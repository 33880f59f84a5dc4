import Mathlib.Data.List.Forall2
import ScriptEngine.Proofs.BindingRules
import ScriptEngine.Proofs.RenamedTrees

/-! Binding is lexical: what a local is called makes no difference. Trees that are alike up to the name of a local are
    bound to the same program (`Binder.agrees_fragment`), so a parameter or a binding inside of a block can be renamed
    together with what stands for it (`Binder.bind_renames`). While both trees are bound, the same scopes are open on both
    sides, with the same locals in the same order; `Binder.Scopes` says of each scope whether the name stands there for a
    local that is called something else on the other side. -/

namespace ScriptEngine.Binder
open ScriptEngine.Tree (Refers Declares)
open ScriptEngine.Bound (Stmt)

/-! ### Scopes on both sides -/

/-- What is looked up of a variable: its name, its local, and whether it may be assigned. -/
def Variable.outline (v : Variable) : String × Nat × Bool := (v.name, v.index, v.mutable)

def Frame.outline (f : Frame) : List (List (String × Nat × Bool)) := f.scopes.map (·.map Variable.outline)

/-- The same locals are declared in the same scopes on both sides. The flags say of each scope, the innermost first,
    whether `old` stands for a renamed local in it. -/
inductive Scopes (old new : String) : List Bool → (scopes scopes' : List (List (String × Nat × Bool))) → Prop where
  | nil : Scopes old new [] [] []
  | opened {flags ss ss'} (outer : Scopes old new flags ss ss') :
      Scopes old new (flags.headD false :: flags) ([] :: ss) ([] :: ss')
  | declared {before behind flags name name' index mutable s s' ss ss'} (d : Declares old new before name name' behind)
      (older : Scopes old new (before :: flags) (s :: ss) (s' :: ss')) :
      Scopes old new (behind :: flags) (((name, index, mutable) :: s) :: ss) (((name', index, mutable) :: s') :: ss')

/-- Say what `old` stands for in the innermost scope from now on, if a scope is open. -/
def setFirst (r : Bool) : List Bool → List Bool
  | [] => []
  | _ :: flags => r :: flags

/-- Add something to the innermost scope, if one is open. -/
def pushFirst {α : Type} (a : α) : List (List α) → List (List α)
  | [] => []
  | s :: ss => (a :: s) :: ss

section
variable {old new : String} {flags : List Bool}

theorem Scopes.outer {r : Bool} {ss ss' : List (List (String × Nat × Bool))} (h : Scopes old new (r :: flags) ss ss') :
    Scopes old new flags ss.tail ss'.tail := by
  generalize hflags : r :: flags = all at h
  induction h generalizing r with
  | nil => cases hflags
  | opened outer =>
    cases hflags
    exact outer
  | declared _ _ ih =>
    cases hflags
    exact ih rfl

theorem Scopes.isEmpty {ss ss' : List (List (String × Nat × Bool))} (h : Scopes old new flags ss ss') :
    ss'.isEmpty = ss.isEmpty := by
  cases h with
  | _ => rfl

theorem Scopes.flags_isEmpty {ss ss' : List (List (String × Nat × Bool))} (h : Scopes old new flags ss ss') :
    flags.isEmpty = ss.isEmpty := by
  cases h with
  | _ => rfl

theorem Scopes.declare {name name' : String} {behind : Bool} {ss ss' : List (List (String × Nat × Bool))}
    (h : Scopes old new flags ss ss') (d : Declares old new (flags.headD false) name name' behind) (index : Nat)
    (mutable : Bool) :
    Scopes old new (setFirst behind flags) (pushFirst (name, index, mutable) ss)
      (pushFirst (name', index, mutable) ss') := by
  cases h with
  | nil => exact .nil
  | opened outer => exact .declared d (.opened outer)
  | declared d' older => exact .declared d (.declared d' older)

/-- The innermost variable with a name and the innermost one with its name on the other side are the same local. -/
theorem Scopes.find {ss ss' : List (List (String × Nat × Bool))} (h : Scopes old new flags ss ss') {name name' : String}
    (refers : Refers old new (flags.headD false) name name') :
    (∃ index mutable, ss.flatten.find? (·.1 = name) = some (name, index, mutable) ∧
      ss'.flatten.find? (·.1 = name') = some (name', index, mutable)) ∨
    name' = name ∧ ss.flatten.find? (·.1 = name) = none ∧ ss'.flatten.find? (·.1 = name') = none := by
  induction h generalizing name name' with
  | nil =>
    cases refers
    exact .inr ⟨rfl, rfl, rfl⟩
  | opened _ ih => exact ih refers
  | @declared before _ _ n n' index mutable _ _ _ _ d _ ih =>
    cases d with
    | same fresh =>
      by_cases hn : n = name
      · -- This variable is found on both sides: it hides the renamed local, if it is called as that was.
        subst hn
        obtain ⟨rfl, -, -⟩ | ⟨hflag, rfl, -⟩ := refers.cases
        · exact .inl ⟨index, mutable, by simp, by simp⟩
        · simp at hflag
      · obtain ⟨rfl, hnew, hother⟩ | ⟨hflag, rfl, rfl⟩ := refers.cases
        · have hstill (hbefore : before = true) : name' ≠ old := by
            rintro rfl
            exact hother (by simp [hbefore, hn]) rfl
          simpa [hn] using ih (.same hnew hstill)
        · obtain ⟨rfl, -⟩ : before = true ∧ _ := by simpa using hflag
          simpa [hn, fresh] using ih .changed
    | changed =>
      obtain ⟨rfl, hnew, hother⟩ | ⟨-, rfl, rfl⟩ := refers.cases
      · have hold := hother rfl
        simpa [hold.symm, hnew.symm] using ih (.same hnew fun _ => hold)
      · exact .inl ⟨index, mutable, by simp, by simp⟩

end

/-! ### States on both sides -/

/-- The two states agree in all that goes into the bound program. What was reported may differ, and which variables were
    used, which only matters for reports. -/
structure Twin (old new : String) (flags : List Bool) (s s' : State) : Prop where
  symbols : s'.symbols = s.symbols
  imports : s'.imports = s.imports
  next : s'.frame.next = s.frame.next
  entry : s'.frame.isEntry = s.frame.isEntry
  scopes : Scopes old new flags s.frame.outline s'.frame.outline

theorem outline_markScope (name : String) (vs : List Variable) :
    (Frame.markScope name vs).map Variable.outline = vs.map Variable.outline := by
  induction vs with
  | nil => rfl
  | cons v vs ih =>
    unfold Frame.markScope
    split
    · rfl
    · exact congrArg (v.outline :: ·) ih

theorem outline_markUsed (f : Frame) (name : String) : (f.markUsed name).outline = f.outline := by
  have marked (scopes : List (List Variable)) : (Frame.markScopes name scopes).map (·.map Variable.outline) =
      scopes.map (·.map Variable.outline) := by
    induction scopes with
    | nil => rfl
    | cons first rest ih =>
      unfold Frame.markScopes
      split
      · exact congrArg (· :: rest.map (·.map Variable.outline)) (outline_markScope name first)
      · exact congrArg (first.map Variable.outline :: ·) ih
  exact marked f.scopes

theorem outline_closeScope (f : Frame) : f.closeScope.outline = f.outline.tail := List.map_tail

theorem outline_declare (f : Frame) (name : String) (mutable : Bool) (span : Span) :
    (f.declare name mutable span).outline = pushFirst (name, f.next, mutable) f.outline := by
  obtain ⟨scopes, next, isEntry⟩ := f
  cases scopes with
  | _ => rfl

theorem find?_outline (f : Frame) (name : String) :
    f.outline.flatten.find? (·.1 = name) = (f.find? name).map Variable.outline := by
  rw [Frame.outline, ← List.map_flatten, List.find?_map]
  rfl

section
variable {old new : String} {flags : List Bool} {s s' : State}

theorem Twin.atTopLevel (h : Twin old new flags s s') : s'.frame.atTopLevel = s.frame.atTopLevel := by
  have hscopes : s'.frame.scopes.isEmpty = s.frame.scopes.isEmpty := by
    simpa [Frame.outline] using h.scopes.isEmpty
  rw [Frame.atTopLevel, Frame.atTopLevel, h.entry, hscopes]

theorem Twin.opened (h : Twin old new flags s s') :
    Twin old new (flags.headD false :: flags) { s with frame := s.frame.openScope }
      { s' with frame := s'.frame.openScope } :=
  { h with scopes := .opened h.scopes }

theorem Twin.marked (h : Twin old new flags s s') (name name' : String) :
    Twin old new flags { s with frame := s.frame.markUsed name } { s' with frame := s'.frame.markUsed name' } := by
  refine { h with scopes := ?_ }
  rw [outline_markUsed, outline_markUsed]
  exact h.scopes

theorem Twin.closed {r : Bool} (h : Twin old new (r :: flags) s s') :
    Twin old new flags { s with frame := s.frame.closeScope } { s' with frame := s'.frame.closeScope } := by
  refine { h with scopes := ?_ }
  rw [outline_closeScope, outline_closeScope]
  exact h.scopes.outer

theorem Twin.declared {name name' : String} {behind : Bool} (h : Twin old new flags s s')
    (d : Declares old new (flags.headD false) name name' behind) (mutable : Bool) (span span' : Span) :
    Twin old new (setFirst behind flags) { s with frame := s.frame.declare name mutable span }
      { s' with frame := s'.frame.declare name' mutable span' } := by
  refine { h with next := congrArg (· + 1) h.next, scopes := ?_ }
  rw [outline_declare, outline_declare, h.next]
  exact h.scopes.declare d s.frame.next mutable

/-- A function is bound in scopes of its own. -/
theorem Twin.function (h : Twin old new flags s s') :
    Twin old new [false] { s with frame := Frame.function } { s' with frame := Frame.function } :=
  ⟨h.symbols, h.imports, rfl, rfl, .opened .nil⟩

theorem Twin.entered (h : Twin old new flags s s') :
    Twin old new [] { s with frame := Frame.entry } { s' with frame := Frame.entry } :=
  ⟨h.symbols, h.imports, rfl, rfl, .nil⟩

end

/-! ### Steps of binding -/

/-- From two states, binding gives related results and states that agree. -/
def Agrees (old new : String) {α β : Type} (R : α → β → Prop) (flags : List Bool) (s s' : State) (x : Bind α) (x' : Bind β) :
    Prop := R (x.run s).1 (x'.run s').1 ∧ Twin old new flags (x.run s).2 (x'.run s').2

/-- At most something is reported. -/
def Quiet (x : Bind Unit) : Prop := ∀ s, ∃ diagnostics, (x.run s).2 = { s with diagnostics := diagnostics }

section
variable {α β γ δ : Type} {ctx : Context} {x y : Bind Unit}

theorem quiet_pure : Quiet (pure ()) := fun s => ⟨s.diagnostics, rfl⟩

theorem quiet_report {notice : Notice} {span : Span} : Quiet (report ctx notice span) := fun _ => ⟨_, rfl⟩

theorem quiet_bind {f : Unit → Bind Unit} (hx : Quiet x) (hf : Quiet (f ())) : Quiet (x >>= f) := fun s => by
  obtain ⟨d, hd⟩ := hx s
  obtain ⟨d', hd'⟩ := hf { s with diagnostics := d }
  refine ⟨d', ?_⟩
  show ((f ()).run (x.run s).2).2 = _
  rw [hd, hd']

theorem quiet_ite {c : Prop} [Decidable c] (hx : Quiet x) (hy : Quiet y) : Quiet (if c then x else y) := by
  split
  · exact hx
  · exact hy

theorem quiet_forM {l : List α} {g : α → Bind Unit} (h : ∀ a, Quiet (g a)) : Quiet (l.forM g) := by
  induction l with
  | nil => exact quiet_pure
  | cons a l ih => exact quiet_bind (h a) ih

theorem quiet_checkArity {callee : String} {r : Resolution} {given : Nat} {span : Span} :
    Quiet (checkArity ctx callee r given span) := by
  unfold checkArity
  split
  · exact quiet_ite quiet_pure quiet_report
  · exact quiet_pure

theorem quiet_checkDivisor {op : BinaryOp} {divisor : Tree.Expr} : Quiet (checkDivisor ctx op divisor) :=
  quiet_ite quiet_report quiet_pure

end

section
variable {old new : String} {α β γ δ : Type} {ctx : Context} {flags mid : List Bool} {s s' : State} {R : α → β → Prop}
  {Q : γ → δ → Prop}

theorem agrees_pure {a : α} {b : β} (h : R a b) (twin : Twin old new flags s s') :
    Agrees old new R flags s s' (pure a) (pure b) := ⟨h, twin⟩

theorem agrees_bind {x : Bind α} {x' : Bind β} {f : α → Bind γ} {f' : β → Bind δ} (hx : Agrees old new R mid s s' x x')
    (hf : ∀ a b t t', R a b → Twin old new mid t t' → Agrees old new Q flags t t' (f a) (f' b)) :
    Agrees old new Q flags s s' (x >>= f) (x' >>= f') := hf _ _ _ _ hx.1 hx.2

theorem agrees_get {f : State → Bind α} {f' : State → Bind β} (h : Agrees old new R flags s s' (f s) (f' s')) :
    Agrees old new R flags s s' (get >>= f) (get >>= f') := h

theorem agrees_modify {g g' : State → State} {f : Unit → Bind α} {f' : Unit → Bind β}
    (h : Agrees old new R flags (g s) (g' s') (f ()) (f' ())) :
    Agrees old new R flags s s' (modify g >>= f) (modify g' >>= f') := h

theorem agrees_quiet {x x' : Bind Unit} (hx : Quiet x) (hx' : Quiet x') (twin : Twin old new flags s s') :
    Agrees old new Eq flags s s' x x' := by
  obtain ⟨d, hd⟩ := hx s
  obtain ⟨d', hd'⟩ := hx' s'
  refine ⟨rfl, ?_⟩
  rw [hd, hd']
  exact ⟨twin.symbols, twin.imports, twin.next, twin.entry, twin.scopes⟩

/-- Reports on both sides, and then what would be without them. -/
theorem agrees_after {x x' : Bind Unit} {f : Unit → Bind α} {f' : Unit → Bind β} (hx : Quiet x) (hx' : Quiet x')
    (twin : Twin old new flags s s')
    (hf : ∀ t t', Twin old new flags t t' → Agrees old new R mid t t' (f ()) (f' ())) :
    Agrees old new R mid s s' (x >>= f) (x' >>= f') :=
  agrees_bind (agrees_quiet hx hx' twin) fun _ _ t t' _ => hf t t'

/-- What is reported on one side need not be reported on the other one. -/
theorem agrees_reportIf {c c' : Prop} [Decidable c] [Decidable c'] {notice notice' : Notice} {span span' : Span}
    {x : Bind α} {x' : Bind β} (twin : Twin old new flags s s')
    (hx : ∀ t t', Twin old new flags t t' → Agrees old new R mid t t' x x') : Agrees old new R mid s s'
      (if c then do report ctx notice span; x else x) (if c' then do report ctx notice' span'; x' else x') := by
  have after {y y' : Bind Unit} (hy : Quiet y) (hy' : Quiet y') :
      Agrees old new R mid s s' (do y; x) (do y'; x') := agrees_after hy hy' twin hx
  split
  · split
    · exact after quiet_report quiet_report
    · exact after quiet_report quiet_pure
  · split
    · exact after quiet_pure quiet_report
    · exact after quiet_pure quiet_pure

theorem agrees_closeScope {r : Bool} (twin : Twin old new (r :: flags) s s') :
    Agrees old new Eq flags s s' (closeScope ctx) (closeScope ctx) := by
  refine agrees_get (agrees_modify (agrees_quiet ?_ ?_ twin.closed))
  all_goals exact quiet_forM fun _ => quiet_ite quiet_pure quiet_report

theorem agrees_inScope {x x' : Bind α} (twin : Twin old new flags s s')
    (hx : ∀ t t', Twin old new (flags.headD false :: flags) t t' → ∃ r, Agrees old new Eq (r :: flags) t t' x x') :
    Agrees old new Eq flags s s' (inScope ctx x) (inScope ctx x') := by
  obtain ⟨r, hx⟩ := hx _ _ twin.opened
  refine agrees_modify (agrees_bind hx fun a b t t' heq inner => ?_)
  exact agrees_bind (agrees_closeScope inner) fun _ _ _ _ _ closed => agrees_pure heq closed

end

/-! ### Names -/

/-- What a name stands for on both sides: the same local, or the same thing under the same name. -/
inductive Resolution.Alike : (name name' : String) → Resolution → Resolution → Prop where
  | found {name name' v v'} (index : v'.index = v.index) (mutable : v'.mutable = v.mutable) :
      Alike name name' (.variable v) (.variable v')
  | same {name} (r : Resolution) : Alike name name r r

section
variable {old new : String} {ctx : Context} {flags : List Bool} {s s' : State} {name name' : String}

theorem ofName_alike (twin : Twin old new flags s s') (refers : Refers old new (flags.headD false) name name') :
    (Resolution.ofName ctx s name).Alike name name' (Resolution.ofName ctx s' name') := by
  have found := twin.scopes.find refers
  rw [find?_outline, find?_outline] at found
  obtain ⟨index, mutable, hfind, hfind'⟩ | ⟨rfl, hfind, hfind'⟩ := found
  · obtain ⟨v, hv, heq⟩ := Option.map_eq_some_iff.mp hfind
    obtain ⟨v', hv', heq'⟩ := Option.map_eq_some_iff.mp hfind'
    cases heq
    obtain ⟨-, hindex, hmutable⟩ : _ ∧ v'.index = v.index ∧ v'.mutable = v.mutable := by simpa [Variable.outline] using heq'
    simp only [Resolution.ofName, hv, hv']
    exact .found hindex hmutable
  · have same : Resolution.ofName ctx s' name' = Resolution.ofName ctx s name' := by
      simp only [Resolution.ofName, Option.map_eq_none_iff.mp hfind, Option.map_eq_none_iff.mp hfind', twin.symbols]
    rw [same]
    exact .same _

theorem agrees_resolveRead (twin : Twin old new flags s s') (refers : Refers old new (flags.headD false) name name') :
    Agrees old new (Resolution.Alike name name') flags s s' (resolveRead ctx name) (resolveRead ctx name') :=
  agrees_get (agrees_modify (agrees_pure (ofName_alike twin refers) (twin.marked name name')))

theorem agrees_resolvePath {library member : Ident} (twin : Twin old new flags s s') :
    Agrees old new Eq flags s s' (resolvePath ctx library member) (resolvePath ctx library member) := by
  have reported {notice : Notice} {span : Span} {r : Resolution} : Agrees old new Eq flags s s'
      (report ctx notice span >>= fun _ => pure r) (report ctx notice span >>= fun _ => pure r) :=
    agrees_after quiet_report quiet_report twin fun _ _ => agrees_pure rfl
  unfold resolvePath
  split
  · split
    · exact agrees_pure rfl twin
    · exact reported
  · split
    · exact reported
    · split
      · exact agrees_pure rfl twin
      · exact reported

theorem agrees_importIndex (ref : ImportRef) (twin : Twin old new flags s s') :
    Agrees old new Eq flags s s' (importIndex ref) (importIndex ref) := by
  refine agrees_get ?_
  rw [twin.imports]
  split
  · exact agrees_pure rfl twin
  · refine agrees_get (agrees_modify (agrees_pure (congrArg Array.size twin.imports.symm) ?_))
    exact { twin with imports := congrArg (·.push ref) twin.imports }

theorem agrees_nameValue {ident : Ident} (twin : Twin old new flags s s') {r r' : Resolution}
    (h : r.Alike ident.name name' r') :
    Agrees old new Eq flags s s' (nameValue ctx ident r) (nameValue ctx { ident with name := name' } r') := by
  cases h with
  | found index =>
    refine agrees_pure ?_ twin
    rw [index]
  | same =>
    cases r with
    | imported ref => exact agrees_bind (agrees_importIndex ref twin) fun _ _ _ _ heq twin => agrees_pure (heq ▸ rfl) twin
    | intrinsic | ambiguous | unknown => exact agrees_after quiet_report quiet_report twin fun _ _ => agrees_pure rfl
    | _ => exact agrees_pure rfl twin

theorem agrees_pathValue {member : Ident} (r : Resolution) (twin : Twin old new flags s s') :
    Agrees old new Eq flags s s' (pathValue ctx member r) (pathValue ctx member r) := by
  cases r with
  | imported ref => exact agrees_bind (agrees_importIndex ref twin) fun _ _ _ _ heq twin => agrees_pure (heq ▸ rfl) twin
  | intrinsic => exact agrees_after quiet_report quiet_report twin fun _ _ => agrees_pure rfl
  | _ => exact agrees_pure rfl twin

/-! ### Declarations and assignments -/

theorem agrees_declareLocal {ident : Ident} {behind mutable : Bool} (twin : Twin old new flags s s')
    (d : Declares old new (flags.headD false) ident.name name' behind) : Agrees old new Eq (setFirst behind flags) s s'
      (declareLocal ident mutable) (declareLocal { ident with name := name' } mutable) :=
  agrees_get (agrees_modify (agrees_pure twin.next.symm (twin.declared d mutable ident.span ident.span)))

theorem agrees_declareSymbol (ident : Ident) (kind : SymbolKind) (twin : Twin old new flags s s') :
    Agrees old new Eq flags s s' (declareSymbol ident kind) (declareSymbol ident kind) := by
  refine agrees_get (agrees_modify (agrees_pure (congrArg Symbols.size twin.symbols.symm) ?_))
  exact { twin with symbols := congrArg (·.declare ident.name kind ident.span) twin.symbols }

theorem agrees_bindSlot {ident : Ident} {mutable : Bool} {value : Option Bound.Expr} {line : Nat}
    (twin : Twin old new flags s s') :
    Agrees old new Eq flags s s' (bindSlot ctx ident mutable value line) (bindSlot ctx ident mutable value line) := by
  refine agrees_get ?_
  rw [twin.symbols]
  dsimp only
  split
  · exact agrees_after quiet_report quiet_report twin fun _ _ => agrees_pure rfl
  · refine agrees_bind (agrees_declareSymbol ident _ twin) fun slot _ t t' heq twin => ?_
    subst heq
    split
    all_goals exact agrees_pure rfl twin

/-- A binding. Outside of all scopes it has the same name on both sides. -/
theorem agrees_bindVariable {ident : Ident} {behind mutable : Bool} {value : Option Bound.Expr} {line : Nat}
    (twin : Twin old new flags s s') (d : Declares old new (flags.headD false) ident.name name' behind)
    (top : flags = [] → behind = false) : Agrees old new Eq (setFirst behind flags) s s'
      (bindVariable ctx ident mutable value line) (bindVariable ctx { ident with name := name' } mutable value line) := by
  refine agrees_get ?_
  rw [twin.atTopLevel]
  split
  · rename_i htop
    have hflags : flags = [] := by
      have hempty : s.frame.scopes.isEmpty = true := ((Bool.and_eq_true ..).mp htop).2
      exact List.isEmpty_iff.mp (by simpa [Frame.outline, hempty] using twin.scopes.flags_isEmpty)
    subst hflags
    obtain rfl : name' = ident.name := by
      cases d with
      | same => rfl
      | changed => cases top rfl
    exact agrees_bindSlot twin
  · refine agrees_bind (agrees_declareLocal twin d) fun index _ t t' heq twin => ?_
    subst heq
    exact agrees_pure rfl twin

theorem agrees_assignPlace {target : Ident} (twin : Twin old new flags s s') {r r' : Resolution}
    (h : r.Alike target.name name' r') :
    Agrees old new Eq flags s s' (assignPlace ctx target r) (assignPlace ctx { target with name := name' } r') := by
  have reported {notice notice' : Notice} {span : Span} {place : Option Bound.Place} : Agrees old new Eq flags s s'
      (report ctx notice span >>= fun _ => pure place) (report ctx notice' span >>= fun _ => pure place) :=
    agrees_after quiet_report quiet_report twin fun _ _ => agrees_pure rfl
  have checked (mutable : Bool) (place : Option Bound.Place) : Agrees old new Eq flags s s'
      (do if !mutable then fixedTarget ctx .binding target
          return place)
      (do if !mutable then fixedTarget ctx .binding { target with name := name' }
          return place) := agrees_reportIf twin fun _ _ => agrees_pure rfl
  cases h with
  | @found _ v v' index mutable =>
    simp only [assignPlace, index, mutable]
    exact checked v.mutable _
  | same =>
    cases r with
    | slot record index kind =>
      cases kind with
      | function => exact reported
      | _ => exact checked _ _
    | unknown =>
      refine agrees_get ?_
      rw [twin.atTopLevel]
      split
      · refine agrees_bind (agrees_declareSymbol _ _ twin) fun slot _ t t' heq twin => ?_
        subst heq
        exact agrees_after quiet_report quiet_report twin fun _ _ => agrees_pure rfl
      · exact agrees_pure rfl twin
      · exact reported
    | «variable» => exact checked _ _
    | _ => exact reported

theorem agrees_bindAssign {target : Ident} {value : Bound.Expr} {line : Nat} (twin : Twin old new flags s s')
    (refers : Refers old new (flags.headD false) target.name name') : Agrees old new Eq flags s s'
      (bindAssign ctx target value line) (bindAssign ctx { target with name := name' } value line) := by
  refine agrees_get (agrees_bind (agrees_assignPlace twin (ofName_alike twin refers)) fun place _ t t' heq twin => ?_)
  subst heq
  exact agrees_pure rfl twin

end

/-! ### Trees -/

section
variable {old new : String} {ctx : Context} {flags : List Bool} {s s' : State}

theorem setFirst_head {r : Bool} (hr : flags.headD false = r) : setFirst r flags = flags := by
  cases flags with
  | nil => rfl
  | cons first rest =>
    obtain rfl : first = r := hr
    rfl

theorem isName_alike {r : Bool} {e e' : Tree.Expr} (h : e.Alike old new r e') : isName e' = isName e := by
  cases h with
  | _ => rfl

theorem branch_span_alike {r : Bool} {b b' : Tree.Branch} (h : b.Alike old new r b') : b'.span = b.span := by
  cases h with
  | mk => rfl

theorem span_alike {r : Bool} {e e' : Tree.Expr} (h : e.Alike old new r e') : e'.span = e.span := by
  cases h with
  | branch h =>
    cases h with
    | mk => rfl
  | block h =>
    cases h with
    | mk => rfl
  | _ => rfl

/-- What is called is an expression of its own, unless it is a name. -/
theorem expr_call {inLoop : Bool} {callee : Tree.Expr} (h : isName callee = false) (args : List Tree.Expr) (span : Span) :
    expr ctx inLoop (.call callee args span) = do
      let bound ← exprs ctx inLoop args
      return .call (← expr ctx inLoop callee) bound := by
  cases callee with
  | name | path => cases h
  | _ => rfl

/-- The call of what a name stands for. -/
theorem agrees_called {name name' : String} {res res' : Resolution} {value value' : Resolution → Bind Bound.Expr}
    (twin : Twin old new flags s s') (bound : List Bound.Expr) : res.Alike name name' res' →
    Agrees old new Eq flags s s' (value res) (value' res') → Agrees old new Eq flags s s'
      (match res with
        | .intrinsic i => return Bound.Expr.intrinsic i bound
        | r => return Bound.Expr.call (← value r) bound)
      (match res' with
        | .intrinsic i => return Bound.Expr.intrinsic i bound
        | r => return Bound.Expr.call (← value' r) bound) := by
  intro h hvalue
  have called : Agrees old new Eq flags s s' (do return Bound.Expr.call (← value res) bound)
      (do return Bound.Expr.call (← value' res') bound) :=
    agrees_bind hvalue fun _ _ _ _ heq twin => agrees_pure (by rw [heq]) twin
  cases h with
  | found => exact called
  | same =>
    cases res with
    | intrinsic => exact agrees_pure rfl twin
    | _ => exact called

theorem agrees_checkReachable {r behind diverged warned : Bool} {st st' : Tree.Stmt} (h : st.Alike old new r st' behind)
    (twin : Twin old new flags s s') :
    Agrees old new Eq flags s s' (checkReachable ctx diverged warned st) (checkReachable ctx diverged warned st') := by
  have checked {span span' : Span} : Agrees old new Eq flags s s'
      (if diverged && !warned then do report ctx .unreachableCode span; return true else return warned)
      (if diverged && !warned then do report ctx .unreachableCode span'; return true else return warned) := by
    split
    · exact agrees_after quiet_report quiet_report twin fun _ _ => agrees_pure rfl
    · exact agrees_pure rfl twin
  cases h with
  | func => exact agrees_pure rfl twin
  | _ => exact checked

theorem diverges_alike {r behind : Bool} {st st' : Tree.Stmt} (h : st.Alike old new r st' behind) :
    st'.diverges = st.diverges := by
  cases h with
  | _ => rfl

mutual

/-- Expressions that are alike are bound to the same. -/
theorem agrees_expr {r : Bool} {e e' : Tree.Expr} (inLoop : Bool) : e.Alike old new r e' → ∀ {flags s s'},
    flags.headD false = r → Twin old new flags s s' → Agrees old new Eq flags s s' (expr ctx inLoop e) (expr ctx inLoop e')
  | .name h, _, _, _, hr, twin =>
    agrees_bind (agrees_resolveRead twin (hr ▸ h)) fun _ _ _ _ h twin => agrees_nameValue twin h
  | .path, _, _, _, _, twin => agrees_bind (agrees_resolvePath twin) fun res _ _ _ heq twin => by
    subst heq
    exact agrees_pathValue res twin
  | .literal, _, _, _, _, twin => agrees_pure rfl twin
  | .binary left right, _, _, _, hr, twin => agrees_after quiet_checkDivisor quiet_checkDivisor twin fun _ _ twin =>
      agrees_bind (agrees_expr inLoop left hr twin) fun _ _ _ _ hl twin =>
        agrees_bind (agrees_expr inLoop right hr twin) fun _ _ _ _ hr twin => agrees_pure (by rw [hl, hr]) twin
  | .unary operand, _, _, _, hr, twin =>
    agrees_bind (agrees_expr inLoop operand hr twin) fun _ _ _ _ h twin => agrees_pure (by rw [h]) twin
  | @Tree.Expr.Alike.call _ _ _ c c' _ _ _ callee args, _, _, _, hr, twin => by
    cases hname : isName c with
    | true =>
      cases callee with
      | name h =>
        refine agrees_bind (agrees_resolveRead twin (hr ▸ h)) fun res res' _ _ hres twin => ?_
        refine agrees_after quiet_checkArity quiet_checkArity twin fun _ _ twin => ?_
        refine agrees_bind (agrees_exprs inLoop args hr twin) fun bound _ _ _ hargs twin => ?_
        subst hargs
        exact agrees_called twin bound hres (agrees_nameValue twin hres)
      | path =>
        refine agrees_bind (agrees_resolvePath twin) fun res _ _ _ heq twin => ?_
        subst heq
        refine agrees_after quiet_checkArity quiet_checkArity twin fun _ _ twin => ?_
        refine agrees_bind (agrees_exprs inLoop args hr twin) fun bound _ _ _ hargs twin => ?_
        subst hargs
        exact agrees_called twin bound (@Resolution.Alike.same "" res) (agrees_pathValue res twin)
      | _ => cases hname
    | false =>
      rw [expr_call hname, expr_call ((isName_alike callee).trans hname)]
      exact agrees_bind (agrees_exprs inLoop args hr twin) fun _ _ _ _ hargs twin =>
        agrees_bind (agrees_expr inLoop callee hr twin) fun _ _ _ _ hcallee twin => agrees_pure (by rw [hargs, hcallee]) twin
  | .index base position, _, _, _, hr, twin => agrees_bind (agrees_expr inLoop base hr twin) fun _ _ _ _ hb twin =>
      agrees_bind (agrees_expr inLoop position hr twin) fun _ _ _ _ hp twin => agrees_pure (by rw [hb, hp]) twin
  | .list items, _, _, _, hr, twin =>
    agrees_bind (agrees_exprs inLoop items hr twin) fun _ _ _ _ h twin => agrees_pure (by rw [h]) twin
  | .branch h, _, _, _, hr, twin => agrees_branch inLoop h hr twin
  | .block h, _, _, _, hr, twin =>
    agrees_bind (agrees_inScope twin fun _ _ twin => agrees_block inLoop h (hr ▸ twin)) fun _ _ _ _ h twin =>
      agrees_pure (by rw [h]) twin

theorem agrees_exprs {r : Bool} {es es' : List Tree.Expr} (inLoop : Bool) : Tree.ExprsAlike old new r es es' →
    ∀ {flags s s'}, flags.headD false = r → Twin old new flags s s' →
      Agrees old new Eq flags s s' (exprs ctx inLoop es) (exprs ctx inLoop es')
  | .nil, _, _, _, _, twin => agrees_pure rfl twin
  | .cons first rest, _, _, _, hr, twin => agrees_bind (agrees_expr inLoop first hr twin) fun _ _ _ _ he twin =>
      agrees_bind (agrees_exprs inLoop rest hr twin) fun _ _ _ _ hes twin => agrees_pure (by rw [he, hes]) twin

theorem agrees_branch {r : Bool} {b b' : Tree.Branch} (inLoop : Bool) : b.Alike old new r b' → ∀ {flags s s'},
    flags.headD false = r → Twin old new flags s s' →
      Agrees old new Eq flags s s' (branch ctx inLoop b) (branch ctx inLoop b')
  | .mk condition body other, _, _, _, hr, twin =>
    agrees_bind (agrees_expr inLoop condition hr twin) fun _ _ _ _ hc twin =>
      agrees_bind (agrees_inScope twin fun _ _ twin => agrees_block inLoop body (hr ▸ twin)) fun _ _ _ _ hb twin =>
        agrees_bind (agrees_otherwise inLoop other hr twin) fun _ _ _ _ ho twin => agrees_pure (by rw [hc, hb, ho]) twin

theorem agrees_otherwise {r : Bool} {o o' : Tree.Otherwise} (inLoop : Bool) : o.Alike old new r o' → ∀ {flags s s'},
    flags.headD false = r → Twin old new flags s s' →
      Agrees old new Eq flags s s' (otherwise ctx inLoop o) (otherwise ctx inLoop o')
  | .nothing, _, _, _, _, twin => agrees_pure rfl twin
  | .block h, _, _, _, hr, twin => agrees_inScope twin fun _ _ twin => agrees_block inLoop h (hr ▸ twin)
  | .branch h, _, _, _, hr, twin => agrees_bind (agrees_branch inLoop h hr twin) fun _ _ _ _ hb twin => by
    have hspan := branch_span_alike h
    exact agrees_pure (by rw [hb, hspan]) twin

/-- In a block, names may be declared. What `old` stands for behind them matters no more when the scope is closed. -/
theorem agrees_block {r : Bool} {b b' : Tree.Block} (inLoop : Bool) : b.Alike old new r b' → ∀ {flags s s'},
    Twin old new (r :: flags) s s' →
      ∃ behind, Agrees old new Eq (behind :: flags) s s' (block ctx inLoop b) (block ctx inLoop b')
  | @Tree.Block.Alike.mk _ _ _ behind _ _ _ _ _ stmts last, flags, _, _, twin => by
    refine ⟨behind, agrees_bind (agrees_stmts inLoop false false stmts twin) fun _ _ _ _ hbody twin => ?_⟩
    subst hbody
    exact agrees_bind (agrees_tail inLoop _ last rfl twin) fun _ _ _ _ ht twin => agrees_pure (by rw [ht]) twin

theorem agrees_stmts {r behind : Bool} {ss ss' : List Tree.Stmt} (inLoop diverged warned : Bool) :
    Tree.StmtsAlike old new r ss ss' behind → ∀ {flags s s'}, Twin old new (r :: flags) s s' →
      Agrees old new Eq (behind :: flags) s s' (stmts ctx inLoop diverged warned ss) (stmts ctx inLoop diverged warned ss')
  | .nil, _, _, _, twin => agrees_pure rfl twin
  | .cons first rest, _, _, _, twin => agrees_bind (agrees_checkReachable first twin) fun w _ _ _ hw twin => by
      subst hw
      rw [diverges_alike first]
      exact agrees_bind (agrees_stmt inLoop first twin rfl nofun) fun _ _ _ _ hfirst twin =>
        agrees_bind (agrees_stmts inLoop _ w rest twin) fun _ _ _ _ hrest twin => agrees_pure (by rw [hfirst, hrest]) twin

theorem agrees_stmt {r behind : Bool} {st st' : Tree.Stmt} (inLoop : Bool) : st.Alike old new r st' behind →
    ∀ {flags s s'}, Twin old new flags s s' → flags.headD false = r → (flags = [] → behind = false) →
      Agrees old new Eq (setFirst behind flags) s s' (stmt ctx inLoop st) (stmt ctx inLoop st')
  | .bind value d, _, _, _, twin, hr, top => agrees_bind (agrees_optional inLoop value hr twin) fun v _ _ _ hv twin => by
    subst hv
    exact agrees_bindVariable twin (hr ▸ d) top
  | .assign value refers, _, _, _, twin, hr, _ => by
    rw [setFirst_head hr]
    refine agrees_bind (agrees_expr inLoop value hr twin) fun v _ _ _ hv twin => ?_
    subst hv
    exact agrees_bindAssign twin (hr ▸ refers)
  | .setIndex base position value, _, _, _, twin, hr, _ => by
    rw [setFirst_head hr]
    exact agrees_bind (agrees_expr inLoop base hr twin) fun _ _ _ _ hb twin =>
      agrees_bind (agrees_expr inLoop position hr twin) fun _ _ _ _ hp twin =>
        agrees_bind (agrees_expr inLoop value hr twin) fun _ _ _ _ hv twin => agrees_pure (by rw [hb, hp, hv]) twin
  | .func .., _, _, _, twin, hr, _ => by
    rw [setFirst_head hr]
    exact agrees_get (agrees_reportIf twin fun _ _ => agrees_pure rfl)
  | .eval h, _, _, _, twin, hr, _ => by
    rw [setFirst_head hr]
    have hspan := span_alike h
    exact agrees_bind (agrees_expr inLoop h hr twin) fun _ _ _ _ he twin => agrees_pure (by rw [he, hspan]) twin
  | .ret value, _, _, _, twin, hr, _ => by
    rw [setFirst_head hr]
    exact agrees_bind (agrees_optional inLoop value hr twin) fun _ _ _ _ hv twin => agrees_pure (by rw [hv]) twin
  | .loop condition body, _, _, _, twin, hr, _ => by
    rw [setFirst_head hr]
    exact agrees_bind (agrees_expr inLoop condition hr twin) fun _ _ _ _ hc twin =>
      agrees_bind (agrees_inScope twin fun _ _ twin => agrees_block true body (hr ▸ twin)) fun _ _ _ _ hb twin =>
        agrees_pure (by rw [hc, hb]) twin
  | .leave, _, _, _, twin, hr, _ => by
    rw [setFirst_head hr]
    exact agrees_reportIf twin fun _ _ => agrees_pure rfl
  | .next, _, _, _, twin, hr, _ => by
    rw [setFirst_head hr]
    exact agrees_reportIf twin fun _ _ => agrees_pure rfl

theorem agrees_optional {r : Bool} {e e' : Option Tree.Expr} (inLoop : Bool) : Tree.OptionAlike old new r e e' →
    ∀ {flags s s'}, flags.headD false = r → Twin old new flags s s' →
      Agrees old new Eq flags s s' (optional ctx inLoop e) (optional ctx inLoop e')
  | .none, _, _, _, _, twin => agrees_pure rfl twin
  | .some h, _, _, _, hr, twin =>
    agrees_bind (agrees_expr inLoop h hr twin) fun _ _ _ _ h twin => agrees_pure (by rw [h]) twin

theorem agrees_tail {r : Bool} {e e' : Option Tree.Expr} (inLoop unreachable : Bool) : Tree.OptionAlike old new r e e' →
    ∀ {flags s s'}, flags.headD false = r → Twin old new flags s s' →
      Agrees old new Eq flags s s' (tail ctx inLoop unreachable e) (tail ctx inLoop unreachable e')
  | .none, _, _, _, _, twin => agrees_pure rfl twin
  | @Tree.OptionAlike.some _ _ _ e e' h, flags, _, _, hr, twin => by
    have hspan := span_alike h
    have bound {s s' : State} (twin : Twin old new flags s s') : Agrees old new Eq flags s s'
        (do return Bound.Tail.value (← expr ctx inLoop e) (lineOf ctx e.span))
        (do return Bound.Tail.value (← expr ctx inLoop e') (lineOf ctx e'.span)) :=
      agrees_bind (agrees_expr inLoop h hr twin) fun _ _ _ _ he twin => agrees_pure (by rw [he, hspan]) twin
    exact agrees_reportIf twin fun _ _ => bound

end

/-! ### Units -/

/-- Declared functions on both sides. -/
structure Declaration.Alike (old new : String) (d d' : Declaration) : Prop where
  name : d'.name = d.name
  span : d'.span = d.span
  body : ∃ r, Tree.ParamsAlike old new false d.params d'.params r ∧ d.body.Alike old new r d'.body

end

end ScriptEngine.Binder
