import ScriptEngine.Bound.Binder
import ScriptEngine.Proofs.Places

/-! What a bound unit refers to is there. Every local is one of its function, every slot of the unit's own
    record is one of its symbols, every function and import is one of its tables, and loop control stands in a
    loop unless an error was reported (`Scoped`). The tables only grow while a unit is bound, so what was in
    scope stays in scope. -/

namespace ScriptEngine

/-! ### Symbols -/

/-- Every symbol has the slot of its position. -/
def Symbols.Ordered (s : Symbols) : Prop := ∀ (i : Nat) (symbol : Symbol), s.entries[i]? = some symbol → symbol.slot = i

namespace Symbols

theorem ordered_empty : Symbols.empty.Ordered := by
  intro i symbol h
  simp [Symbols.empty] at h

theorem Ordered.declare {s : Symbols} (h : s.Ordered) (name : String) (kind : SymbolKind) (span : Span) :
    (s.declare name kind span).Ordered := by
  intro i symbol hi
  simp only [Symbols.declare, Array.getElem?_push] at hi
  split at hi
  · rename_i heq
    cases hi
    exact heq.symm
  · exact h i symbol hi

@[simp]
theorem size_declare (s : Symbols) (name : String) (kind : SymbolKind) (span : Span) :
    (s.declare name kind span).size = s.size + 1 := Array.size_push ..

theorem Ordered.lt {s : Symbols} (h : s.Ordered) {symbol : Symbol} (hmem : symbol ∈ s.entries) :
    symbol.slot < s.size := by
  obtain ⟨i, hi⟩ := Array.mem_iff_getElem?.mp hmem
  rw [h i symbol hi]
  exact (Array.getElem?_eq_some_iff.mp hi).1

theorem mem_of_lookup {s : Symbols} {name : String} {symbol : Symbol} (h : s.lookup? name = some symbol) :
    symbol ∈ s.entries :=
  Array.mem_toList_iff.mp (List.mem_reverse.mp (List.mem_of_find?_eq_some h))

end Symbols

namespace Binder
open ScriptEngine.Bound

/-! ### States -/

namespace State

/-- An error was reported. -/
def Blamed (s : State) : Prop := ∃ d ∈ s.diagnostics, d.isError = true

/-- What holds of the tables at any time: symbols are in slot order and those of functions stand for one of
    `functions` functions, variables are locals, and imports can be resolved. -/
structure Fits (ctx : Context) (functions : Nat) (s : State) : Prop where
  ordered : s.symbols.Ordered
  declared : ∀ symbol ∈ s.symbols.entries, ∀ arity index, symbol.kind = .function arity index → index < functions
  locals : ∀ v ∈ s.frame.scopes.flatten, v.index < s.frame.next
  imports : ∀ ref ∈ s.imports, (ctx.references.resolve? ref).isSome

/-- The tables of the unit only grow, and what was reported stays reported. -/
structure Grows (s s' : State) : Prop where
  symbols : s.symbols.size ≤ s'.symbols.size
  imports : s.imports.size ≤ s'.imports.size
  blamed : s.Blamed → s'.Blamed

/-- The locals of the function grow as well. -/
structure Leads (s s' : State) : Prop extends Grows s s' where
  locals : s.frame.next ≤ s'.frame.next

/-- A scope has all that is in the tables. -/
structure Covered (ctx : Context) (functions : Nat) (s : State) (scope : Scope) : Prop where
  record : scope.record = ctx.unit.record?
  earlier : scope.earlier = ctx.earlier
  functions : functions ≤ scope.functions
  symbols : s.symbols.size ≤ scope.slots
  imports : s.imports.size ≤ scope.imports
  blamed : s.Blamed → scope.stray

/-- A scope has all that is in the tables, and the locals. -/
structure Allows (ctx : Context) (functions : Nat) (s : State) (scope : Scope) : Prop extends
    Covered ctx functions s scope where
  locals : s.frame.next ≤ scope.locals

/-- What is in the tables and no more. -/
def scope (ctx : Context) (functions : Nat) (s : State) : Scope :=
  ⟨s.frame.next, ctx.unit.record?, s.symbols.size, ctx.earlier, functions, s.imports.size, s.Blamed⟩

variable {ctx : Context} {n : Nat} {s s' s'' : State} {scope : Scope}

theorem allows_scope (ctx : Context) (n : Nat) (s : State) : s.Allows ctx n (s.scope ctx n) :=
  ⟨⟨rfl, rfl, Nat.le_refl _, Nat.le_refl _, Nat.le_refl _, id⟩, Nat.le_refl _⟩

theorem Grows.refl (s : State) : s.Grows s := ⟨Nat.le_refl _, Nat.le_refl _, id⟩

theorem Grows.trans (h : s.Grows s') (h' : s'.Grows s'') : s.Grows s'' :=
  ⟨Nat.le_trans h.symbols h'.symbols, Nat.le_trans h.imports h'.imports, h'.blamed ∘ h.blamed⟩

/-- Another function is bound, or another scope. -/
theorem grows_frame (s : State) (frame : Frame) : s.Grows { s with frame := frame } :=
  ⟨Nat.le_refl _, Nat.le_refl _, id⟩

theorem Leads.refl (s : State) : s.Leads s := ⟨Grows.refl s, Nat.le_refl _⟩

theorem Leads.trans (h : s.Leads s') (h' : s'.Leads s'') : s.Leads s'' :=
  ⟨h.toGrows.trans h'.toGrows, Nat.le_trans h.locals h'.locals⟩

/-- What has room for the later tables has room for the earlier ones. -/
theorem Grows.covered (h : s.Grows s') (hscope : s'.Covered ctx n scope) : s.Covered ctx n scope :=
  ⟨hscope.record, hscope.earlier, hscope.functions, Nat.le_trans h.symbols hscope.symbols, Nat.le_trans h.imports hscope.imports,
    hscope.blamed ∘ h.blamed⟩

theorem Leads.allows (h : s.Leads s') (hscope : s'.Allows ctx n scope) : s.Allows ctx n scope :=
  ⟨h.toGrows.covered hscope.toCovered, Nat.le_trans h.locals hscope.locals⟩

end State

/-! ### Steps of binding -/

/-- From a state, binding keeps the tables fitting, takes nothing away from them, and gives something that has
    a property in every scope that has the tables. -/
def Binds {α : Type} (ctx : Context) (n : Nat) (s : State) (x : Bind α) (Q : Scope → α → Prop) : Prop :=
  s.Fits ctx n → (x.run s).2.Fits ctx n ∧ s.Leads (x.run s).2 ∧
    ∀ scope, (x.run s).2.Allows ctx n scope → Q scope (x.run s).1

section
variable {α β : Type} {ctx : Context} {n : Nat} {s : State} {x y : Bind α} {f : α → Bind β} {P : Scope → α → Prop}
  {Q : Scope → β → Prop}

theorem binds_pure {a : α} (h : ∀ scope, s.Allows ctx n scope → P scope a) : Binds ctx n s (pure a) P :=
  fun hs => ⟨hs, .refl s, h⟩

/-- What was bound first keeps its property in all later scopes. -/
theorem binds_bind (hx : Binds ctx n s x P)
    (hf : ∀ a s', s.Leads s' → (∀ scope, s'.Allows ctx n scope → P scope a) → Binds ctx n s' (f a) Q) :
    Binds ctx n s (x >>= f) Q := by
  intro hs
  obtain ⟨hs', leads, ha⟩ := hx hs
  obtain ⟨hs'', leads', hb⟩ := hf _ _ leads ha hs'
  exact ⟨hs'', leads.trans leads', hb⟩

/-- The state may be taken to fit. -/
theorem binds_fits (h : s.Fits ctx n → Binds ctx n s x P) : Binds ctx n s x P := fun hs => h hs hs

theorem binds_get {f : State → Bind α} (h : Binds ctx n s (f s) P) : Binds ctx n s (get >>= f) P := h

/-- A change of the state, and what is bound after it. -/
theorem binds_modify {g : State → State} {f : Unit → Bind α} (hfits : s.Fits ctx n → (g s).Fits ctx n)
    (hleads : s.Leads (g s)) (h : Binds ctx n (g s) (f ()) P) : Binds ctx n s (modify g >>= f) P := by
  intro hs
  obtain ⟨hs', leads, ha⟩ := h (hfits hs)
  exact ⟨hs', hleads.trans leads, ha⟩

theorem binds_ite {c : Prop} [Decidable c] (hx : Binds ctx n s x P) (hy : Binds ctx n s y P) :
    Binds ctx n s (if c then x else y) P := by
  split
  · exact hx
  · exact hy

theorem Binds.imp {R : Scope → α → Prop} (hx : Binds ctx n s x P) (himp : ∀ scope a, P scope a → R scope a) :
    Binds ctx n s x R := by
  intro hs
  obtain ⟨hs', leads, ha⟩ := hx hs
  exact ⟨hs', leads, fun scope hscope => himp scope _ (ha scope hscope)⟩

theorem binds_forM {l : List α} {g : α → Bind Unit} (h : ∀ a s, Binds ctx n s (g a) fun _ _ => True) :
    Binds ctx n s (l.forM g) fun _ _ => True := by
  induction l generalizing s with
  | nil => exact binds_pure fun _ _ => trivial
  | cons a l ih => exact binds_bind (h a s) fun _ _ _ _ => ih

end

section
variable {ctx : Context} {n : Nat} {s : State}

theorem binds_report {notice : Notice} {span : Span} :
    Binds ctx n s (report ctx notice span) fun scope _ => notice.severity = .error → scope.stray := by
  intro hs
  refine ⟨⟨hs.ordered, hs.declared, hs.locals, hs.imports⟩, ⟨⟨Nat.le_refl _, Nat.le_refl _, ?_⟩, Nat.le_refl _⟩,
    fun scope hscope herror => hscope.blamed ?_⟩
  · rintro ⟨d, hd, herror⟩
    exact ⟨d, Array.mem_push_of_mem _ hd, herror⟩
  · refine ⟨_, Array.mem_push_self, ?_⟩
    rw [Diagnostic.isError, Diagnostic.severity, Diagnostic.make, herror]
    rfl

/-- A message, and then nothing more than what would be without it. -/
theorem binds_reported {α : Type} {notice : Notice} {span : Span} {x : Bind α} {P : Scope → α → Prop}
    (hx : ∀ s', s.Leads s' → Binds ctx n s' x P) : Binds ctx n s (report ctx notice span >>= fun _ => x) P :=
  binds_bind binds_report fun _ s' leads _ => hx s' leads

theorem binds_closeScope : Binds ctx n s (closeScope ctx) fun _ _ => True := by
  refine binds_get (binds_modify (fun hs => ?_) ⟨s.grows_frame _, Nat.le_refl _⟩ ?_)
  · refine ⟨hs.ordered, hs.declared, fun v hv => hs.locals v ?_, hs.imports⟩
    obtain ⟨vs, hvs, hv⟩ := List.mem_flatten.mp hv
    exact List.mem_flatten.mpr ⟨vs, List.mem_of_mem_tail hvs, hv⟩
  · refine binds_forM fun v s => binds_ite (binds_pure fun _ _ => trivial) ?_
    exact binds_report.imp fun _ _ _ => trivial

theorem binds_inScope {α : Type} {x : Bind α} {P : Scope → α → Prop} (hx : ∀ s', s.Leads s' → Binds ctx n s' x P) :
    Binds ctx n s (inScope ctx x) P := by
  have opened : s.Leads { s with frame := s.frame.openScope } := ⟨s.grows_frame _, Nat.le_refl _⟩
  refine binds_modify (fun hs => ?_) opened ?_
  · exact ⟨hs.ordered, hs.declared, hs.locals, hs.imports⟩
  · refine binds_bind (hx _ opened) fun a s₂ h₂ ha => binds_bind binds_closeScope fun _ s₃ h₃ _ => ?_
    exact binds_pure fun scope hscope => ha scope (h₃.allows hscope)

/-! ### Names -/

/-- What a name stands for is in scope. -/
def Resolution.In (ctx : Context) (scope : Scope) : Resolution → Prop
  | .variable v => v.index < scope.locals
  | .function index _ => index < scope.functions
  | .slot record index _ => (Place.slot record index).In scope
  | .imported ref _ => (ctx.references.resolve? ref).isSome
  | .intrinsic _ | .ambiguous _ | .unknown => True

theorem resolve?_isSome {refs : ReferenceSet} {library name : String} {l : Library} {e : Export}
    (hl : refs.library? library = some l) (he : l.export? name = some e) : (refs.resolve? ⟨library, name⟩).isSome := by
  obtain ⟨hname, i, hlt, hi, hfirst⟩ := Array.find?_eq_some_iff_getElem.mp hl
  have hposition : refs.position? library = some i := by
    refine Array.findIdx?_eq_some_iff_getElem.mpr ⟨hlt, hi ▸ hname, fun j hj => ?_⟩
    simpa using hfirst j hj
  have hget : refs[i]? = some l := by rw [Array.getElem?_eq_getElem hlt, hi]
  simp only [ReferenceSet.resolve?, hposition, hget, he, Option.bind_eq_bind, Option.bind_some]
  rfl

theorem ofEarlier_in {name : String} {earlier : List Declared} {res : Resolution} {scope : Scope}
    (h : Resolution.ofEarlier name earlier = some res) (hsub : ∀ d ∈ earlier, d ∈ scope.earlier) : res.In ctx scope := by
  induction earlier with
  | nil => cases h
  | cons d ds ih =>
    unfold Resolution.ofEarlier at h
    split at h
    · rename_i symbol hlookup
      cases h
      exact .inr ⟨d, hsub d (.head _), rfl, symbol, Symbols.mem_of_lookup hlookup, rfl⟩
    · exact ih h fun d hd => hsub d (.tail _ hd)

theorem ofImports_in {name : String} {scope : Scope} : (Resolution.ofImports ctx name).In ctx scope := by
  unfold Resolution.ofImports
  split
  · split
    all_goals trivial
  · rename_i library arity hcandidates
    have hmem : (library, arity) ∈ Resolution.candidates ctx name := hcandidates ▸ .head _
    obtain ⟨library', -, hfound⟩ := List.mem_filterMap.mp hmem
    obtain ⟨l, hl, hfound⟩ := Option.bind_eq_some_iff.mp hfound
    obtain ⟨e, he, hfound⟩ := Option.bind_eq_some_iff.mp hfound
    cases hfound
    exact resolve?_isSome hl he
  · trivial

theorem ofName_in (hs : s.Fits ctx n) (name : String) {scope : Scope} (hscope : s.Allows ctx n scope) :
    (Resolution.ofName ctx s name).In ctx scope := by
  unfold Resolution.ofName
  split
  · rename_i v hv
    exact Nat.lt_of_lt_of_le (hs.locals v (List.mem_of_find?_eq_some hv)) hscope.locals
  · split
    · rename_i symbol hsymbol
      have hmem := Symbols.mem_of_lookup hsymbol
      unfold Resolution.ofOwn
      split
      · rename_i arity index hkind
        exact Nat.lt_of_lt_of_le (hs.declared symbol hmem arity index hkind) hscope.functions
      · rename_i record hrecord _
        exact .inl ⟨hscope.record.trans hrecord, Nat.lt_of_lt_of_le (hs.ordered.lt hmem) hscope.symbols⟩
      · trivial
    · cases hearlier : Resolution.ofEarlier name ctx.earlier with
      | some res => exact ofEarlier_in hearlier fun _ hd => hscope.earlier ▸ hd
      | none => exact ofImports_in

/-- Marking a variable changes nothing else of it. -/
theorem mem_markScope {name : String} {vs : List Variable} {v : Variable} (h : v ∈ Frame.markScope name vs) :
    ∃ v' ∈ vs, { v' with used := v.used } = v := by
  induction vs with
  | nil => cases h
  | cons first rest ih =>
    unfold Frame.markScope at h
    split at h
    · rcases List.mem_cons.mp h with rfl | h
      · exact ⟨first, .head _, rfl⟩
      · exact ⟨v, .tail _ h, rfl⟩
    · rcases List.mem_cons.mp h with rfl | h
      · exact ⟨v, .head _, rfl⟩
      · obtain ⟨v', hv', hsame⟩ := ih h
        exact ⟨v', .tail _ hv', hsame⟩

theorem mem_markScopes {name : String} {scopes : List (List Variable)} {v : Variable}
    (h : v ∈ (Frame.markScopes name scopes).flatten) : ∃ v' ∈ scopes.flatten, { v' with used := v.used } = v := by
  induction scopes with
  | nil => cases h
  | cons first rest ih =>
    simp only [List.flatten_cons, List.mem_append]
    unfold Frame.markScopes at h
    split at h
    · rcases List.mem_append.mp h with h | h
      · obtain ⟨v', hv', hsame⟩ := mem_markScope h
        exact ⟨v', .inl hv', hsame⟩
      · exact ⟨v, .inr h, rfl⟩
    · rcases List.mem_append.mp h with h | h
      · exact ⟨v, .inl h, rfl⟩
      · obtain ⟨v', hv', hsame⟩ := ih h
        exact ⟨v', .inr hv', hsame⟩

theorem binds_resolveRead {name : String} :
    Binds ctx n s (resolveRead ctx name) (Resolution.In ctx) := by
  have marked : s.Leads { s with frame := s.frame.markUsed name } := ⟨s.grows_frame _, Nat.le_refl _⟩
  refine binds_fits fun hs => binds_get (binds_modify (fun _ => ?_) marked (binds_pure fun scope hscope => ?_))
  · refine ⟨hs.ordered, hs.declared, fun v hv => ?_, hs.imports⟩
    obtain ⟨v', hv', hsame⟩ := mem_markScopes hv
    rw [← hsame]
    exact hs.locals v' hv'
  · exact ofName_in hs name (marked.allows hscope)

theorem binds_resolvePath {library member : Ident} :
    Binds ctx n s (resolvePath ctx library member) (Resolution.In ctx) := by
  have unknown {notice : Notice} {span : Span} :
      Binds ctx n s (report ctx notice span >>= fun _ => pure Resolution.unknown) (Resolution.In ctx) :=
    binds_reported fun _ _ => binds_pure fun _ _ => trivial
  unfold resolvePath
  split
  · split
    · exact binds_pure fun _ _ => trivial
    · exact unknown
  · split
    · exact unknown
    · rename_i l hl
      split
      · rename_i e he
        exact binds_pure fun _ _ => resolve?_isSome hl he
      · exact unknown

theorem binds_importIndex {ref : ImportRef} (href : (ctx.references.resolve? ref).isSome) :
    Binds ctx n s (importIndex ref) fun scope index => index < scope.imports := by
  refine binds_get ?_
  split
  · rename_i i hi
    obtain ⟨hlt, -⟩ := Array.findIdx?_eq_some_iff_getElem.mp hi
    exact binds_pure fun scope hscope => Nat.lt_of_lt_of_le hlt hscope.imports
  · have pushed : s.imports.size < (s.imports.push ref).size := by
      rw [Array.size_push]
      exact Nat.lt_succ_self _
    refine binds_get (binds_modify (fun hs => ?_) ⟨⟨Nat.le_refl _, Nat.le_of_lt pushed, id⟩, Nat.le_refl _⟩ ?_)
    · refine ⟨hs.ordered, hs.declared, hs.locals, fun ref' href' => ?_⟩
      rcases Array.mem_push.mp href' with href' | rfl
      · exact hs.imports ref' href'
      · exact href
    · exact binds_pure fun scope hscope => Nat.lt_of_lt_of_le pushed hscope.imports

theorem binds_nameValue {inLoop : Bool} {ident : Ident} : (res : Resolution) →
    (∀ scope, s.Allows ctx n scope → res.In ctx scope) →
    Binds ctx n s (nameValue ctx ident res) fun scope e => Scoped.expr scope inLoop e
  | .variable _, hres | .function .., hres | .slot .., hres => binds_pure hres
  | .imported _ _, hres =>
    binds_bind (binds_importIndex (hres _ (s.allows_scope ctx n))) fun _ _ _ hindex => binds_pure hindex
  | .intrinsic _, _ | .ambiguous _, _ | .unknown, _ => binds_reported fun _ _ => binds_pure fun _ _ => trivial

theorem binds_pathValue {inLoop : Bool} {member : Ident} : (res : Resolution) →
    (∀ scope, s.Allows ctx n scope → res.In ctx scope) →
    Binds ctx n s (pathValue ctx member res) fun scope e => Scoped.expr scope inLoop e
  | .imported _ _, hres =>
    binds_bind (binds_importIndex (hres _ (s.allows_scope ctx n))) fun _ _ _ hindex => binds_pure hindex
  | .intrinsic _, _ => binds_reported fun _ _ => binds_pure fun _ _ => trivial
  | .variable _, _ | .function .., _ | .slot .., _ | .ambiguous _, _ | .unknown, _ => binds_pure fun _ _ => trivial

theorem binds_checkArity {callee : String} {res : Resolution} {given : Nat} {span : Span} :
    Binds ctx n s (checkArity ctx callee res given span) fun _ _ => True := by
  unfold checkArity
  split
  · exact binds_ite (binds_pure fun _ _ => trivial) (binds_report.imp fun _ _ _ => trivial)
  · exact binds_pure fun _ _ => trivial

/-! ### Declarations and assignments -/

/-- A new local is there from now on. -/
theorem binds_declareLocal (name : Ident) (mutable : Bool) :
    Binds ctx n s (declareLocal name mutable) fun scope index => s.frame.next ≤ index ∧ index < scope.locals := by
  have declared : s.frame.next < (s.frame.declare name.name mutable name.span).next := Nat.lt_succ_self _
  refine binds_get (binds_modify (fun hs => ?_) ⟨s.grows_frame _, Nat.le_of_lt declared⟩ ?_)
  · refine ⟨hs.ordered, hs.declared, fun v hv => ?_, hs.imports⟩
    have older : ∀ v ∈ s.frame.scopes.flatten, v.index < s.frame.next + 1 :=
      fun v hv => Nat.lt_succ_of_lt (hs.locals v hv)
    simp only [Frame.declare] at hv
    split at hv
    · cases hv
    · rename_i innermost rest hscopes
      rw [hscopes] at older
      rcases List.mem_cons.mp hv with rfl | hv
      · exact declared
      · exact older v hv
  · exact binds_pure fun scope hscope => ⟨Nat.le_refl _, Nat.lt_of_lt_of_le declared hscope.locals⟩

/-- The slot of a new symbol is there from now on. -/
theorem binds_declareSymbol {name : Ident} {kind : SymbolKind}
    (hkind : ∀ arity index, kind = .function arity index → index < n) :
    Binds ctx n s (declareSymbol name kind) fun scope slot => slot < scope.slots := by
  have declared : s.symbols.size < (s.symbols.declare name.name kind name.span).size := by
    rw [Symbols.size_declare]
    exact Nat.lt_succ_self _
  refine binds_get (binds_modify (fun hs => ?_) ⟨⟨Nat.le_of_lt declared, Nat.le_refl _, id⟩, Nat.le_refl _⟩ ?_)
  · refine ⟨hs.ordered.declare name.name kind name.span, fun symbol hsymbol => ?_, hs.locals, hs.imports⟩
    rcases Array.mem_push.mp hsymbol with hsymbol | rfl
    · exact hs.declared symbol hsymbol
    · exact hkind
  · exact binds_pure fun scope hscope => Nat.lt_of_lt_of_le declared hscope.symbols

theorem binds_bindSlot {inLoop : Bool} {name : Ident} {mutable : Bool} {value : Option Expr} {line : Nat}
    (hvalue : ∀ scope, s.Allows ctx n scope → ∀ e ∈ value, Scoped.expr scope inLoop e) :
    Binds ctx n s (bindSlot ctx name mutable value line) fun scope b => ∀ st ∈ b, Scoped.stmt scope inLoop st := by
  refine binds_get ?_
  dsimp only
  split
  · exact binds_reported fun _ _ => binds_pure fun _ _ st hst => nomatch hst
  · refine binds_bind (binds_declareSymbol fun _ _ h => nomatch h) fun slot s' leads hslot => ?_
    split
    · rename_i record e hrecord
      refine binds_pure fun scope hscope st hst => ?_
      cases hst
      exact ⟨.inl ⟨hscope.record.trans hrecord, hslot scope hscope⟩, hvalue scope (leads.allows hscope) e rfl⟩
    · exact binds_pure fun _ _ st hst => nomatch hst

theorem binds_bindVariable {inLoop : Bool} {name : Ident} {mutable : Bool} {value : Option Expr} {line : Nat}
    (hvalue : ∀ scope, s.Allows ctx n scope → ∀ e ∈ value, Scoped.expr scope inLoop e) :
    Binds ctx n s (bindVariable ctx name mutable value line) fun scope b => ∀ st ∈ b, Scoped.stmt scope inLoop st := by
  refine binds_get (binds_ite (binds_bindSlot hvalue) ?_)
  refine binds_bind (binds_declareLocal name mutable) fun index s' leads hindex => ?_
  refine binds_pure fun scope hscope st hst => ?_
  cases hst
  refine ⟨(hindex scope hscope).2, ?_⟩
  cases value with
  | none => trivial
  | some e => exact hvalue scope (leads.allows hscope) e rfl

/-- There is no place to assign to, or one in scope. -/
def PlaceIn (scope : Scope) (p : Option Place) : Prop := ∀ place ∈ p, place.In scope

theorem binds_nowhere : Binds ctx n s (pure none) PlaceIn := binds_pure fun _ _ _ hplace => nomatch hplace

theorem binds_place {place : Place} (hplace : ∀ scope, s.Allows ctx n scope → place.In scope) {s' : State}
    (leads : s.Leads s') : Binds ctx n s' (pure (some place)) PlaceIn := by
  refine binds_pure fun scope hscope p hp => ?_
  cases hp
  exact hplace scope (leads.allows hscope)

theorem binds_assignPlace {target : Ident} : (res : Resolution) → (∀ scope, s.Allows ctx n scope → res.In ctx scope) →
    Binds ctx n s (assignPlace ctx target res) PlaceIn
  | .variable v, hres => binds_ite (binds_reported fun _ leads => binds_place hres leads) (binds_place hres (.refl s))
  | .slot _ _ (.variable _), hres =>
    binds_ite (binds_reported fun _ leads => binds_place hres leads) (binds_place hres (.refl s))
  | .slot _ _ (.function ..), _ | .function .., _ | .imported .., _ | .intrinsic _, _ | .ambiguous _, _ =>
    binds_reported fun _ _ => binds_nowhere
  | .unknown, _ => by
    refine binds_get ?_
    split
    · rename_i record _ hrecord
      refine binds_bind (binds_declareSymbol fun _ _ h => nomatch h) fun slot s' leads hslot => ?_
      refine binds_reported fun s'' leads' => binds_pure fun scope hscope p hp => ?_
      cases hp
      exact .inl ⟨hscope.record.trans hrecord, hslot scope (leads'.allows hscope)⟩
    · exact binds_nowhere
    · exact binds_reported fun _ _ => binds_nowhere

theorem binds_bindAssign {inLoop : Bool} {target : Ident} {value : Expr} {line : Nat}
    (hvalue : ∀ scope, s.Allows ctx n scope → Scoped.expr scope inLoop value) :
    Binds ctx n s (bindAssign ctx target value line) fun scope b => ∀ st ∈ b, Scoped.stmt scope inLoop st := by
  refine binds_fits fun hs => binds_get ?_
  refine binds_bind (binds_assignPlace _ fun scope => ofName_in hs target.name) fun place s' leads h => ?_
  refine binds_pure fun scope hscope st hst => ?_
  obtain ⟨p, rfl, rfl⟩ := Option.map_eq_some_iff.mp hst
  exact ⟨h scope hscope p rfl, hvalue scope (leads.allows hscope)⟩

theorem binds_checkDivisor {op : BinaryOp} {divisor : Tree.Expr} :
    Binds ctx n s (checkDivisor ctx op divisor) fun _ _ => True :=
  binds_ite (binds_report.imp fun _ _ _ => trivial) (binds_pure fun _ _ => trivial)

theorem binds_checkReachable {diverged warned : Bool} {st : Tree.Stmt} :
    Binds ctx n s (checkReachable ctx diverged warned st) fun _ _ => True := by
  unfold checkReachable
  split
  · exact binds_pure fun _ _ => trivial
  · exact binds_ite (binds_reported fun _ _ => binds_pure fun _ _ => trivial) (binds_pure fun _ _ => trivial)

theorem scoped_binary {scope : Scope} {inLoop : Bool} {left right : Expr} (hl : Scoped.expr scope inLoop left)
    (hr : Scoped.expr scope inLoop right) (op : BinaryOp) : Scoped.expr scope inLoop (binary op left right) := by
  cases op
  all_goals exact ⟨hl, hr⟩

theorem scoped_literal {scope : Scope} {inLoop : Bool} (l : Literal) : Scoped.expr scope inLoop (literal l) := by
  cases l
  all_goals trivial

/-- Loop control outside of any loop is an error. -/
theorem binds_control {inLoop : Bool} {keyword : Keyword} {span : Span} {control : Stmt}
    (hcontrol : ∀ scope, inLoop = true ∨ scope.stray → Scoped.stmt scope inLoop control) :
    Binds ctx n s (if !inLoop then report ctx (.strayLoopControl keyword) span >>= fun _ => pure (some control)
      else pure (some control)) fun scope b => ∀ st ∈ b, Scoped.stmt scope inLoop st := by
  split
  · refine binds_bind binds_report fun _ s' _ hreport => binds_pure fun scope hscope st hst => ?_
    cases hst
    exact hcontrol scope (.inr (hreport scope hscope rfl))
  · rename_i hloop
    refine binds_pure fun scope _ st hst => ?_
    cases hst
    exact hcontrol scope (.inl (by simpa using hloop))

end

/-! ### Trees -/

section
variable {ctx : Context} {n : Nat}

mutual

/-- Binding gives trees that are in scope. -/
theorem binds_expr (s : State) (inLoop : Bool) : (e : Tree.Expr) →
    Binds ctx n s (expr ctx inLoop e) fun scope b => Scoped.expr scope inLoop b
  | .name _ => binds_bind binds_resolveRead fun res _ _ hres => binds_nameValue res hres
  | .path _ _ _ => binds_bind binds_resolvePath fun res _ _ hres => binds_pathValue res hres
  | .literal value _ => binds_pure fun _ _ => scoped_literal value
  | .binary op left right _ =>
    binds_bind binds_checkDivisor fun _ s₁ _ _ => binds_bind (binds_expr s₁ inLoop left) fun _ s₂ _ hl =>
      binds_bind (binds_expr s₂ inLoop right) fun _ s₃ leads hr => binds_pure fun scope hscope =>
        scoped_binary (hl scope (leads.allows hscope)) (hr scope hscope) op
  | .unary _ operand _ => binds_bind (binds_expr s inLoop operand) fun _ _ _ h => binds_pure h
  | .call callee args _ => by
    unfold expr
    split
    · refine binds_bind binds_resolveRead fun res s₁ _ hres => binds_bind binds_checkArity fun _ s₂ h₂ _ => ?_
      refine binds_bind (binds_exprs s₂ inLoop args) fun bound s₃ h₃ hargs => ?_
      have hres := fun scope hscope => hres scope ((h₂.trans h₃).allows hscope)
      split
      · exact binds_pure hargs
      · exact binds_bind (binds_nameValue res hres) fun _ s₄ h₄ hcallee => binds_pure fun scope hscope =>
          ⟨hcallee scope hscope, hargs scope (h₄.allows hscope)⟩
    · refine binds_bind binds_resolvePath fun res s₁ _ hres => binds_bind binds_checkArity fun _ s₂ h₂ _ => ?_
      refine binds_bind (binds_exprs s₂ inLoop args) fun bound s₃ h₃ hargs => ?_
      have hres := fun scope hscope => hres scope ((h₂.trans h₃).allows hscope)
      split
      · exact binds_pure hargs
      · exact binds_bind (binds_pathValue res hres) fun _ s₄ h₄ hcallee => binds_pure fun scope hscope =>
          ⟨hcallee scope hscope, hargs scope (h₄.allows hscope)⟩
    · exact binds_bind (binds_exprs s inLoop args) fun _ s₁ _ hargs =>
        binds_bind (binds_expr s₁ inLoop callee) fun _ s₂ h₂ hcallee => binds_pure fun scope hscope =>
          ⟨hcallee scope hscope, hargs scope (h₂.allows hscope)⟩
  | .index base position _ =>
    binds_bind (binds_expr s inLoop base) fun _ s₁ _ hb => binds_bind (binds_expr s₁ inLoop position) fun _ s₂ h₂ hp =>
      binds_pure fun scope hscope => ⟨hb scope (h₂.allows hscope), hp scope hscope⟩
  | .list items _ => binds_bind (binds_exprs s inLoop items) fun _ _ _ h => binds_pure h
  | .branch b => binds_branch s inLoop b
  | .block b => binds_bind (binds_inScope fun s' _ => binds_block s' inLoop b) fun _ _ _ h => binds_pure h

theorem binds_exprs (s : State) (inLoop : Bool) : (es : List Tree.Expr) →
    Binds ctx n s (exprs ctx inLoop es) fun scope bs => Scoped.exprs scope inLoop bs
  | [] => binds_pure fun _ _ => trivial
  | e :: es => binds_bind (binds_expr s inLoop e) fun _ s₁ _ he => binds_bind (binds_exprs s₁ inLoop es) fun _ _ h₂ hes =>
      binds_pure fun scope hscope => ⟨he scope (h₂.allows hscope), hes scope hscope⟩

theorem binds_branch (s : State) (inLoop : Bool) : (b : Tree.Branch) →
    Binds ctx n s (branch ctx inLoop b) fun scope b => Scoped.expr scope inLoop b
  | .mk condition body other _ =>
    binds_bind (binds_expr s inLoop condition) fun _ _ _ hc =>
      binds_bind (binds_inScope fun s' _ => binds_block s' inLoop body) fun _ s₂ h₂ hb =>
        binds_bind (binds_otherwise s₂ inLoop other) fun _ _ h₃ ho => binds_pure fun scope hscope =>
          ⟨hc scope ((h₂.trans h₃).allows hscope), hb scope (h₃.allows hscope), ho scope hscope⟩

theorem binds_otherwise (s : State) (inLoop : Bool) : (o : Tree.Otherwise) →
    Binds ctx n s (otherwise ctx inLoop o) fun scope b => Scoped.block scope inLoop b
  | .nothing => binds_pure fun _ _ => ⟨trivial, trivial⟩
  | .block b => binds_inScope fun s' _ => binds_block s' inLoop b
  | .branch b => binds_bind (binds_branch s inLoop b) fun _ _ _ h => binds_pure fun scope hscope =>
      ⟨trivial, h scope hscope⟩

theorem binds_block (s : State) (inLoop : Bool) : (b : Tree.Block) →
    Binds ctx n s (block ctx inLoop b) fun scope b => Scoped.block scope inLoop b
  | .mk body last _ =>
    binds_bind (binds_stmts s inLoop false false body) fun _ s₁ _ hbody => binds_bind (binds_tail s₁ inLoop _ last)
      fun _ _ h₂ hlast => binds_pure fun scope hscope => ⟨hbody scope (h₂.allows hscope), hlast scope hscope⟩

theorem binds_stmts (s : State) (inLoop diverged warned : Bool) : (ss : List Tree.Stmt) →
    Binds ctx n s (stmts ctx inLoop diverged warned ss) fun scope result => Scoped.stmts scope inLoop result.1
  | [] => binds_pure fun _ _ => trivial
  | st :: ss =>
    binds_bind binds_checkReachable fun _ s₁ _ _ => binds_bind (binds_stmt s₁ inLoop st) fun _ s₂ _ hfirst =>
      binds_bind (binds_stmts s₂ inLoop _ _ ss) fun _ _ h₃ hrest => binds_pure fun scope hscope =>
        Scoped.stmts_append (hfirst scope (h₃.allows hscope)) (hrest scope hscope)

theorem binds_stmt (s : State) (inLoop : Bool) : (st : Tree.Stmt) →
    Binds ctx n s (stmt ctx inLoop st) fun scope b => ∀ st ∈ b, Scoped.stmt scope inLoop st
  | .bind _ _ value _ => binds_bind (binds_optional s inLoop value) fun _ _ _ h => binds_bindVariable h
  | .assign _ value _ => binds_bind (binds_expr s inLoop value) fun _ _ _ h => binds_bindAssign h
  | .setIndex base position value _ =>
    binds_bind (binds_expr s inLoop base) fun _ s₁ _ hb => binds_bind (binds_expr s₁ inLoop position) fun _ s₂ h₂ hp =>
      binds_bind (binds_expr s₂ inLoop value) fun _ s₃ h₃ hv => binds_pure fun scope hscope st hst => by
        cases hst
        exact ⟨hb scope ((h₂.trans h₃).allows hscope), hp scope (h₃.allows hscope), hv scope hscope⟩
  | .func _ _ _ _ =>
    binds_get (binds_ite (binds_reported fun _ _ => binds_pure fun _ _ _ hst => nomatch hst)
      (binds_pure fun _ _ _ hst => nomatch hst))
  | .eval e => binds_bind (binds_expr s inLoop e) fun _ _ _ h => binds_pure fun scope hscope st hst => by
      cases hst
      exact h scope hscope
  | .ret value _ => binds_bind (binds_optional s inLoop value) fun v _ _ h => binds_pure fun scope hscope st hst => by
      cases hst
      cases v with
      | none => trivial
      | some e => exact h scope hscope e rfl
  | .loop condition body _ =>
    binds_bind (binds_expr s inLoop condition) fun _ s₁ _ hc =>
      binds_bind (binds_inScope fun s' _ => binds_block s' true body) fun _ s₂ h₂ hb =>
        binds_pure fun scope hscope st hst => by
          cases hst
          exact ⟨hc scope (h₂.allows hscope), hb scope hscope⟩
  | .leave _ => binds_control fun _ h => h
  | .next _ => binds_control fun _ h => h

theorem binds_optional (s : State) (inLoop : Bool) : (e : Option Tree.Expr) →
    Binds ctx n s (optional ctx inLoop e) fun scope b => ∀ e ∈ b, Scoped.expr scope inLoop e
  | none => binds_pure fun _ _ _ he => nomatch he
  | some e => binds_bind (binds_expr s inLoop e) fun _ _ _ h => binds_pure fun scope hscope b hb => by
      cases hb
      exact h scope hscope

theorem binds_tail (s : State) (inLoop unreachable : Bool) : (e : Option Tree.Expr) →
    Binds ctx n s (tail ctx inLoop unreachable e) fun scope t => Scoped.tail scope inLoop t
  | none => binds_pure fun _ _ => trivial
  | some e => by
    have value (s' : State) : Binds ctx n s' (expr ctx inLoop e >>= fun b => pure (Tail.value b (lineOf ctx e.span)))
        fun scope t => Scoped.tail scope inLoop t :=
      binds_bind (binds_expr s' inLoop e) fun _ _ _ h => binds_pure h
    exact binds_ite (binds_reported fun s' _ => value s') (value s)

end

end

/-! ### Functions -/

section
variable {ctx : Context} {n : Nat} {s : State}

/-- A function is bound with a frame of its own, so that its locals say nothing about the next one's. -/
theorem fits_frame (hs : s.Fits ctx n) {frame : Frame} (hframe : frame.scopes.flatten = []) :
    State.Fits ctx n { s with frame := frame } := by
  refine ⟨hs.ordered, hs.declared, fun v hv => ?_, hs.imports⟩
  rw [hframe] at hv
  cases hv

/-- Every parameter is a local. -/
theorem binds_params (ps : List Ident) :
    Binds ctx n s (params ctx ps) fun scope _ => s.frame.next + ps.length ≤ scope.locals := by
  induction ps generalizing s with
  | nil => exact binds_pure fun scope hscope => hscope.locals
  | cons p ps ih =>
    have rest (s' : State) (leads : s.Leads s') : Binds ctx n s' (declareLocal p false >>= fun _ => params ctx ps)
        fun scope _ => s.frame.next + (ps.length + 1) ≤ scope.locals := by
      refine binds_bind (binds_declareLocal p false) fun index s'' _ hindex => ih.imp fun scope _ hlocals => ?_
      have grown := hindex _ (s''.allows_scope ctx n)
      have room : index < s''.frame.next := grown.2
      have := leads.locals
      omega
    exact binds_get (binds_ite (binds_reported fun s' leads => rest s' leads) (rest s (.refl s)))

/-- Binding whole functions keeps the tables fitting, takes nothing away from them, and gives something that has
    a property in every scope that has the tables. -/
def Makes {α : Type} (ctx : Context) (n : Nat) (s : State) (x : Bind α) (Q : Scope → α → Prop) : Prop :=
  (x.run s).2.Fits ctx n ∧ s.Grows (x.run s).2 ∧ ∀ scope, (x.run s).2.Covered ctx n scope → Q scope (x.run s).1

theorem makes_function (hs : s.Fits ctx n) (d : Declaration) : Makes ctx n s (function ctx d) fun scope f =>
    f.name = ctx.unit.qualified d.name.name ∧ f.Scoped scope := by
  have bound : Binds ctx n { s with frame := Frame.function }
      (params ctx d.params >>= fun _ => block ctx false d.body >>= fun body => closeScope ctx >>= fun _ => pure body)
      fun scope body => d.params.length ≤ scope.locals ∧ Scoped.block scope false body := by
    refine binds_bind (binds_params d.params) fun _ s₁ _ hparams => ?_
    refine binds_bind (binds_block s₁ false d.body) fun body s₂ h₂ hbody => ?_
    refine binds_bind binds_closeScope fun _ s₃ h₃ _ => binds_pure fun scope hscope => ?_
    have hlocals := hparams scope ((h₂.trans h₃).allows hscope)
    exact ⟨Nat.le_trans (Nat.le_add_left ..) hlocals, hbody scope (h₃.allows hscope)⟩
  obtain ⟨hs', leads, hbody⟩ := bound (fits_frame hs rfl)
  refine ⟨hs', (s.grows_frame _).trans leads.toGrows, fun scope hscope => ⟨rfl, ?_⟩⟩
  -- The locals of the function are those of the frame that its body leaves.
  obtain ⟨params, body⟩ := hbody { scope with locals := ((function ctx d).run s).2.frame.next }
    ⟨⟨hscope.record, hscope.earlier, hscope.functions, hscope.symbols, hscope.imports, hscope.blamed⟩, Nat.le_refl _⟩
  exact ⟨params, body⟩

theorem makes_functions (hs : s.Fits ctx n) (ds : List Declaration) : Makes ctx n s (functions ctx ds) fun scope fs =>
    fs.map (·.name) = ds.map (fun d => ctx.unit.qualified d.name.name) ∧ ∀ f ∈ fs, f.Scoped scope := by
  induction ds generalizing s with
  | nil => exact ⟨hs, .refl s, fun _ _ => ⟨rfl, fun f hf => nomatch hf⟩⟩
  | cons d ds ih =>
    obtain ⟨hs', grows, first⟩ := makes_function hs d
    obtain ⟨hs'', grows', rest⟩ := ih hs'
    refine ⟨hs'', grows.trans grows', fun scope hscope => ?_⟩
    obtain ⟨hname, hfirst⟩ := first scope (grows'.covered hscope)
    obtain ⟨hnames, hrest⟩ := rest scope hscope
    refine ⟨congr (congrArg List.cons hname) hnames, fun f hf => ?_⟩
    rcases List.mem_cons.mp hf with rfl | hf
    · exact hfirst
    · exact hrest f hf

theorem makes_entry (hs : s.Fits ctx n) (f : Tree.Fragment) (name : String) : Makes ctx n s (entry ctx f name)
    fun scope main => main.name = name ∧ main.arity = 0 ∧ main.Scoped scope := by
  have opened : State.Fits ctx n { s with frame := .entry } := fits_frame hs rfl
  obtain ⟨hs', leads, hbody⟩ := binds_block _ false (.mk f.stmts f.tail f.span) opened
  refine ⟨hs', (s.grows_frame _).trans leads.toGrows, fun scope hscope => ⟨rfl, rfl, Nat.zero_le _, ?_⟩⟩
  exact hbody { scope with locals := ((entry ctx f name).run s).2.frame.next }
    ⟨⟨hscope.record, hscope.earlier, hscope.functions, hscope.symbols, hscope.imports, hscope.blamed⟩, Nat.le_refl _⟩

theorem binds_rejectStatements {f : Tree.Fragment} : Binds ctx n s (rejectStatements ctx f) fun _ _ => True := by
  refine binds_bind (binds_forM fun st s => ?_) fun _ s' _ _ => ?_
  · split
    · exact binds_pure fun _ _ => trivial
    · exact binds_report.imp fun _ _ _ => trivial
  · split
    · exact binds_report.imp fun _ _ _ => trivial
    · exact binds_pure fun _ _ => trivial

/-- The entry routine is behind the declared functions, takes no arguments, and has a name of its own. -/
def EndsInEntry (ctx : Context) (declared : List Declaration) (fs : List Func) : Prop :=
  ∃ first main, fs = first ++ [main] ∧ first.map (·.name) = declared.map (fun d => ctx.unit.qualified d.name.name) ∧
    main.name = ctx.unit.qualified "<Main>" ∧ main.arity = 0

theorem makes_unitFunctions (hs : s.Fits ctx n) (f : Tree.Fragment) (declared : List Declaration) :
    Makes ctx n s (unitFunctions ctx f declared) fun scope fs => declared.length ≤ fs.length ∧
      (ctx.unit.isScript = true → EndsInEntry ctx declared fs) ∧ ∀ f ∈ fs, f.Scoped scope := by
  have lengths {fs : List Func} (h : fs.map (·.name) = declared.map (fun d => ctx.unit.qualified d.name.name)) :
      fs.length = declared.length := by
    simpa using congrArg List.length h
  cases hname : ctx.unit.entryName? with
  | some name =>
    obtain ⟨hs', grows, hmain⟩ := makes_entry hs f name
    obtain ⟨hs'', grows', hrest⟩ := makes_functions hs' declared
    simp only [unitFunctions, hname]
    refine ⟨hs'', grows.trans grows', fun scope hscope => ?_⟩
    obtain ⟨hmainName, harity, hmain⟩ := hmain scope (grows'.covered hscope)
    obtain ⟨hnames, hrest⟩ := hrest scope hscope
    refine ⟨?_, fun hscript => ⟨_, _, rfl, hnames, ?_, harity⟩, fun g hg => ?_⟩
    · have hlength := lengths hnames
      have : declared.length ≤ (((functions ctx declared).run ((entry ctx f name).run s).2).1 ++
          [((entry ctx f name).run s).1]).length := by
        rw [List.length_append, hlength]
        exact Nat.le_add_right ..
      exact this
    · rw [UnitKind.entryName?, if_pos hscript] at hname
      cases hname
      exact hmainName
    · rcases List.mem_append.mp hg with hg | hg
      · exact hrest g hg
      · rw [List.mem_singleton.mp hg]
        exact hmain
  | none =>
    obtain ⟨hs', leads, -⟩ := binds_rejectStatements (f := f) hs
    obtain ⟨hs'', grows', hrest⟩ := makes_functions hs' declared
    simp only [unitFunctions, hname]
    refine ⟨hs'', leads.toGrows.trans grows', fun scope hscope => ?_⟩
    obtain ⟨hnames, hrest⟩ := hrest scope hscope
    refine ⟨Nat.le_of_eq (lengths hnames).symm, fun hscript => ?_, hrest⟩
    rw [UnitKind.entryName?, if_pos hscript] at hname
    cases hname

/-! ### Units -/

/-- What declaring the functions of a fragment leaves: one symbol for every function that is declared, in
    order from position `index` on. -/
structure Hoisted (ss : List Tree.Stmt) (index : Nat) (s s' : State) (declared : List Declaration) : Prop where
  ordered : s'.symbols.Ordered
  functions : ∀ symbol ∈ s'.symbols.entries, ∀ arity i, symbol.kind = .function arity i → i < index + declared.length
  symbols : s.symbols.size + declared.length ≤ s'.symbols.size
  frame : s'.frame = s.frame
  imports : s'.imports = s.imports
  named : ∀ d ∈ declared, .func d.name d.params d.body d.span ∈ ss

theorem hoist_hoisted (ss : List Tree.Stmt) (index : Nat) (hs : s.symbols.Ordered)
    (hfunctions : ∀ symbol ∈ s.symbols.entries, ∀ arity i, symbol.kind = .function arity i → i < index) :
    Hoisted ss index s ((hoist ctx ss index).run s).2 ((hoist ctx ss index).run s).1 := by
  induction ss generalizing s index with
  | nil => exact ⟨hs, hfunctions, Nat.le_refl _, rfl, rfl, fun d hd => nomatch hd⟩
  | cons st ss ih =>
    have skipped {s' : State} (hsymbols : s'.symbols = s.symbols) (hframe : s'.frame = s.frame)
        (himports : s'.imports = s.imports) :
        Hoisted (st :: ss) index s ((hoist ctx ss index).run s').2 ((hoist ctx ss index).run s').1 := by
      have rest := ih index (hsymbols ▸ hs) (hsymbols ▸ hfunctions)
      exact ⟨rest.ordered, rest.functions, hsymbols ▸ rest.symbols, rest.frame.trans hframe,
        rest.imports.trans himports, fun d hd => .tail _ (rest.named d hd)⟩
    cases st with
    | func name params body span =>
      unfold hoist
      simp only [StateT.run_bind, StateT.run_get, pure_bind]
      split
      · exact skipped rfl rfl rfl
      · have ordered := hs.declare name.name (.function params.length index) name.span
        have rest := ih (s := { s with symbols := s.symbols.declare name.name (.function params.length index) name.span })
          (index + 1) ordered fun symbol hsymbol arity i hkind => ?_
        · have size := rest.symbols
          rw [Symbols.size_declare, Nat.add_right_comm] at size
          refine ⟨rest.ordered, fun symbol hsymbol arity i hkind => ?_, size, rest.frame, rest.imports, fun d hd => ?_⟩
          · have hlt := rest.functions symbol hsymbol arity i hkind
            rw [Nat.add_right_comm] at hlt
            exact hlt
          · rcases List.mem_cons.mp hd with rfl | hd
            · exact .head _
            · exact .tail _ (rest.named d hd)
        · rcases Array.mem_push.mp hsymbol with hsymbol | rfl
          · exact Nat.lt_succ_of_lt (hfunctions symbol hsymbol arity i hkind)
          · cases hkind
            exact Nat.lt_succ_self _
    | _ => exact skipped rfl rfl rfl

/-- The declared functions of a fragment, and the state after their declaration. -/
def declarations (ctx : Context) (f : Tree.Fragment) : List Declaration × State :=
  (hoist ctx f.stmts 0).run ⟨.empty, #[], #[], Frame.function⟩

theorem declarations_hoisted (ctx : Context) (f : Tree.Fragment) :
    Hoisted f.stmts 0 ⟨.empty, #[], #[], Frame.function⟩ (declarations ctx f).2 (declarations ctx f).1 :=
  hoist_hoisted f.stmts 0 Symbols.ordered_empty fun symbol hsymbol => absurd hsymbol (Array.not_mem_empty symbol)

theorem declarations_fits (ctx : Context) (f : Tree.Fragment) :
    (declarations ctx f).2.Fits ctx (declarations ctx f).1.length := by
  have hoisted := declarations_hoisted ctx f
  refine ⟨hoisted.ordered, fun symbol hsymbol arity i hkind => ?_, fun v hv => ?_, fun ref href => ?_⟩
  · rw [← Nat.zero_add (declarations ctx f).1.length]
    exact hoisted.functions symbol hsymbol arity i hkind
  · rw [hoisted.frame] at hv
    cases hv
  · rw [hoisted.imports] at href
    exact absurd href (Array.not_mem_empty ref)

/-- What the functions of a bound unit can refer to. -/
def Output.scope (ctx : Context) (o : Output) : Scope :=
  ⟨0, ctx.unit.record?, o.symbols.size, ctx.earlier, o.program.functions.length, o.program.imports.size,
    ∃ d ∈ o.diagnostics, d.isError = true⟩

/-- Whatever a bound unit refers to is there, and its entry routine is told apart from its other functions by
    its name. -/
structure Coherent (ctx : Context) (f : Tree.Fragment) (o : Output) : Prop where
  ordered : o.symbols.Ordered
  inScope : o.program.Scoped (o.scope ctx)
  imports : ∀ ref ∈ o.program.imports, (ctx.references.resolve? ref).isSome
  slots : ctx.unit.isScript = true → o.program.slots = o.symbols.names
  entry : ctx.unit.isScript = true → ∃ first main, o.program.functions = first ++ [main] ∧
    o.program.entry = some first.length ∧ main.name = ctx.unit.qualified "<Main>" ∧ main.arity = 0 ∧
    ∀ g ∈ first, ∃ name params body span,
      .func name params body span ∈ f.stmts ∧ g.name = ctx.unit.qualified name.name

theorem bind_coherent (ctx : Context) (f : Tree.Fragment) : Coherent ctx f (bind ctx f) := by
  let declared := (declarations ctx f).1
  let s₁ := (declarations ctx f).2
  let s₂ := ((unitFunctions ctx f declared).run s₁).2
  have hoisted := declarations_hoisted ctx f
  have hs₁ : s₁.Fits ctx declared.length := declarations_fits ctx f
  obtain ⟨hs₂, grows, made⟩ := makes_unitFunctions hs₁ f declared
  have blamed : s₂.Blamed → ((bind ctx f).scope ctx).stray := by
    rintro ⟨d, hd, herror⟩
    exact ⟨d, List.mem_mergeSort.mpr (Array.mem_toList_iff.mpr hd), herror⟩
  have hlength : declared.length ≤ (bind ctx f).program.functions.length :=
    (made _ (s₂.allows_scope ctx declared.length).toCovered).1
  have covered : s₂.Covered ctx declared.length ((bind ctx f).scope ctx) :=
    ⟨rfl, rfl, hlength, Nat.le_refl _, Nat.le_refl _, blamed⟩
  obtain ⟨-, ends, within⟩ := made _ covered
  refine ⟨hs₂.ordered, ⟨rfl, within, fun s hs => ?_⟩, hs₂.imports, fun hscript => if_pos hscript, fun hscript => ?_⟩
  · have hslots : (bind ctx f).program.functionSlots = functionSlots ctx.unit declared := rfl
    rw [hslots, functionSlots] at hs
    split at hs
    · obtain ⟨i, hi, rfl⟩ := List.mem_map.mp hs
      have hlt := List.mem_range.mp hi
      have hsymbols : declared.length ≤ s₂.symbols.size :=
        Nat.le_trans (Nat.le_trans (Nat.le_add_left ..) hoisted.symbols) grows.symbols
      exact ⟨Nat.lt_of_lt_of_le hlt hlength, Nat.lt_of_lt_of_le hlt hsymbols⟩
    · cases hs
  · obtain ⟨first, main, hfs, hnames, hmain, harity⟩ := ends hscript
    have hentry : (bind ctx f).program.entry = some first.length := by
      have hlengths : first.length = declared.length := by simpa using congrArg List.length hnames
      rw [hlengths]
      exact if_pos hscript
    refine ⟨first, main, hfs, hentry, hmain, harity, fun g hg => ?_⟩
    have hname : g.name ∈ first.map (·.name) := List.mem_map_of_mem hg
    rw [hnames] at hname
    obtain ⟨d, hd, hname⟩ := List.mem_map.mp hname
    exact ⟨d.name, d.params, d.body, d.span, hoisted.named d hd, hname.symm⟩

/-- The routine that opens the record of a script is one of its functions. -/
theorem Coherent.entry_lt {ctx : Context} {f : Tree.Fragment} {o : Output} (h : Coherent ctx f o)
    (hscript : ctx.unit.isScript = true) : ∃ index, o.program.entry = some index ∧ index < o.program.functions.length := by
  obtain ⟨first, main, hfs, hentry, -⟩ := h.entry hscript
  refine ⟨first.length, hentry, ?_⟩
  rw [hfs, List.length_append]
  exact Nat.lt_succ_self _

end
end Binder
end ScriptEngine
