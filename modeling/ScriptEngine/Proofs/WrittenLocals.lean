import ScriptEngine.Proofs.LexicalScope

/-! In a bound tree no local is read before it is written (`Bound.Settled`). A binding takes a new local and writes it at
    once, and the name stands for the local behind the binding only, up to the end of the block: so the variables in scope
    are always among the locals that were written (`Binder.Covers`), whatever else is wrong with the source text. -/

namespace ScriptEngine

/-! ### Trees -/

namespace Bound

/-- The locals that are written behind a statement, if those in `w` are written before it. Of what a statement holds
    inside of itself nothing is sure. -/
def Stmt.after (w : List Nat) : Stmt → List Nat
  | .store (.frame index) _ _ => index :: w
  | _ => w

theorem Stmt.subset_after (w : List Nat) (s : Stmt) : w ⊆ s.after w := by
  unfold after
  split
  · exact List.subset_cons_self _ w
  · exact List.Subset.refl w

theorem Stmt.subset_afterAll (w : List Nat) (ss : List Stmt) : w ⊆ ss.foldl Stmt.after w := by
  induction ss generalizing w with
  | nil => exact List.Subset.refl w
  | cons s ss ih => exact List.Subset.trans (s.subset_after w) (ih _)

namespace Settled

mutual

/-- An expression reads only locals that are in `w` or that are written before in the same block. -/
def expr (w : List Nat) : Expr → Prop
  | .load (.frame index) => index ∈ w
  | .unit | .int _ | .float _ | .bool _ | .text _ | .load (.slot ..) | .function _ | .imported _ => True
  | .both left right | .either left right | .operate _ left right | .index left right => expr w left ∧ expr w right
  | .unary _ operand => expr w operand
  | .call callee args => expr w callee ∧ exprs w args
  | .intrinsic _ args | .list args => exprs w args
  | .branch condition body otherwise => expr w condition ∧ block w body ∧ block w otherwise
  | .block b => block w b

def exprs (w : List Nat) : List Expr → Prop
  | [] => True
  | e :: es => expr w e ∧ exprs w es

def stmt (w : List Nat) : Stmt → Prop
  | .store _ value _ | .eval value _ | .ret value _ => expr w value
  | .setIndex base position value _ => expr w base ∧ expr w position ∧ expr w value
  | .loop condition body _ => expr w condition ∧ block w body
  | .leave _ | .next _ => True

def stmts (w : List Nat) : List Stmt → Prop
  | [] => True
  | s :: ss => stmt w s ∧ stmts (s.after w) ss

def tail (w : List Nat) : Tail → Prop
  | .nothing => True
  | .value e _ => expr w e

def block (w : List Nat) : Block → Prop
  | .mk body last => stmts w body ∧ tail (body.foldl Stmt.after w) last

end

end Settled

/-- The parameters of a function are written before its body. -/
def Func.Settled (f : Func) : Prop := Settled.block (List.range f.arity) f.body

end Bound

namespace Binder
open ScriptEngine.Bound

/-! ### Scopes -/

/-- All variables of the scopes are among the locals in `w`. -/
def Covers (w : List Nat) (scopes : List (List (String × Nat × Bool))) : Prop := ∀ v ∈ scopes.flatten, v.2.1 ∈ w

section
variable {w w' : List Nat} {scopes : List (List (String × Nat × Bool))}

theorem Covers.mono (h : Covers w scopes) (hsub : w ⊆ w') : Covers w' scopes := fun v hv => hsub (h v hv)

theorem Covers.opened (h : Covers w scopes) : Covers w ([] :: scopes) := h

theorem Covers.declare (h : Covers w scopes) (name : String) (index : Nat) (mutable : Bool) :
    Covers (index :: w) (pushFirst (name, index, mutable) scopes) := by
  intro v hv
  cases scopes with
  | nil => cases hv
  | cons first rest =>
    rcases List.mem_cons.mp hv with rfl | hv
    · exact List.mem_cons_self
    · exact List.mem_cons_of_mem _ (h v hv)

theorem tail_pushFirst {α : Type} (a : α) (ls : List (List α)) : (pushFirst a ls).tail = ls.tail := by
  cases ls with
  | _ => rfl

end

/-! ### Steps of binding -/

/-- From a state, binding gives something and leaves a state, of which `Q` holds. -/
def Gives {α : Type} (s : State) (x : Bind α) (Q : α → State → Prop) : Prop := Q (x.run s).1 (x.run s).2

/-- Binding leaves the scopes as they are, and gives something with a property. -/
def Apart {α : Type} (P : α → Prop) (s : State) (x : Bind α) : Prop :=
  Gives s x fun a s' => P a ∧ s'.frame.outline = s.frame.outline

section
variable {α β : Type} {ctx : Context} {s : State} {x : Bind α} {f : α → Bind β} {P : α → Prop} {Q : β → Prop}

theorem gives_bind {R : α → State → Prop} {S : β → State → Prop} (hx : Gives s x R)
    (hf : ∀ a s', R a s' → Gives s' (f a) S) : Gives s (x >>= f) S := hf _ _ hx

theorem gives_get {f : State → Bind α} {R : α → State → Prop} (h : Gives s (f s) R) : Gives s (get >>= f) R := h

theorem apart_pure {a : α} (h : P a) : Apart P s (pure a) := ⟨h, rfl⟩

theorem apart_bind (hx : Apart P s x)
    (hf : ∀ a s', P a → s'.frame.outline = s.frame.outline → Apart Q s' (f a)) : Apart Q s (x >>= f) := by
  obtain ⟨ha, hs⟩ := hx
  obtain ⟨hb, hs'⟩ := hf _ _ ha hs
  exact ⟨hb, hs'.trans hs⟩

theorem apart_quiet {y : Bind Unit} (hy : Quiet y) : Apart (fun _ => True) s y := by
  obtain ⟨diagnostics, h⟩ := hy s
  refine ⟨trivial, ?_⟩
  rw [h]

/-- A message, and then what would be without it. -/
theorem apart_after {y : Bind Unit} {f : Unit → Bind α} (hy : Quiet y)
    (hf : ∀ s', s'.frame.outline = s.frame.outline → Apart P s' (f ())) : Apart P s (y >>= f) :=
  apart_bind (apart_quiet hy) fun _ s' _ hs' => hf s' hs'

theorem apart_ite {c : Prop} [Decidable c] {y : Bind α} (hx : Apart P s x) (hy : Apart P s y) :
    Apart P s (if c then x else y) := by
  split
  · exact hx
  · exact hy

theorem gives_closeScope (ctx : Context) :
    Gives s (closeScope ctx) fun _ s' => s'.frame.outline = s.frame.outline.tail := by
  have quiet : Quiet (s.frame.innermost.forM fun v =>
      if v.used || v.name.startsWith "_" then pure () else report ctx (.unusedVariable v.name) v.span) :=
    quiet_forM fun _ => quiet_ite quiet_pure quiet_report
  have closed := (apart_quiet (s := { s with frame := s.frame.closeScope }) quiet).2
  exact closed.trans (outline_closeScope s.frame)

/-- What a scope declares is gone when it is closed. -/
theorem apart_inScope {w : List Nat} (h : Covers w s.frame.outline) (hx : ∀ s', Covers w s'.frame.outline →
    Gives s' x fun a s'' => P a ∧ s''.frame.outline.tail = s'.frame.outline.tail) : Apart P s (inScope ctx x) := by
  obtain ⟨ha, inner⟩ := hx { s with frame := s.frame.openScope } h.opened
  exact ⟨ha, (gives_closeScope ctx).trans inner⟩

end

/-! ### Names -/

/-- A name stands for a local only if the local is in `w`. -/
def Resolution.Among (w : List Nat) : Resolution → Prop
  | .variable v => v.index ∈ w
  | _ => True

section
variable {ctx : Context} {w : List Nat} {s : State}

theorem ofEarlier_among {name : String} {earlier : List ScriptEngine.Declared} {res : Resolution}
    (h : Resolution.ofEarlier name earlier = some res) : res.Among w := by
  induction earlier with
  | nil => cases h
  | cons d ds ih =>
    unfold Resolution.ofEarlier at h
    split at h
    · cases h
      trivial
    · exact ih h

theorem ofImports_among (name : String) : (Resolution.ofImports ctx name).Among w := by
  unfold Resolution.ofImports
  split
  · split
    all_goals trivial
  · trivial
  · trivial

theorem ofName_among (h : Covers w s.frame.outline) (name : String) : (Resolution.ofName ctx s name).Among w := by
  unfold Resolution.ofName
  split
  · rename_i v hv
    have found := find?_outline s.frame name
    rw [hv] at found
    exact h _ (List.mem_of_find?_eq_some found)
  · split
    · unfold Resolution.ofOwn
      split
      all_goals trivial
    · cases hearlier : Resolution.ofEarlier name ctx.earlier with
      | some res => exact ofEarlier_among hearlier
      | none => exact ofImports_among name

theorem apart_resolveRead (h : Covers w s.frame.outline) (name : String) :
    Apart (Resolution.Among w) s (resolveRead ctx name) :=
  ⟨ofName_among h name, outline_markUsed s.frame name⟩

theorem apart_resolvePath (library member : Ident) : Apart (fun _ => True) s (resolvePath ctx library member) := by
  have unknown {notice : Notice} {span : Span} :
      Apart (fun _ => True) s (report ctx notice span >>= fun _ => pure Resolution.unknown) :=
    apart_after quiet_report fun _ _ => apart_pure trivial
  unfold resolvePath
  split
  · split
    · exact apart_pure trivial
    · exact unknown
  · split
    · exact unknown
    · split
      · exact apart_pure trivial
      · exact unknown

theorem apart_importIndex (ref : ImportRef) : Apart (fun _ => True) s (importIndex ref) := by
  refine gives_get ?_
  split
  · exact apart_pure trivial
  · exact ⟨trivial, rfl⟩

theorem apart_nameValue {ident : Ident} : {res : Resolution} → res.Among w →
    Apart (Settled.expr w) s (nameValue ctx ident res)
  | .variable _, h => apart_pure h
  | .function .., _ | .slot .., _ => apart_pure trivial
  | .imported ref _, _ => apart_bind (apart_importIndex ref) fun _ _ _ _ => apart_pure trivial
  | .intrinsic _, _ | .ambiguous _, _ | .unknown, _ => apart_after quiet_report fun _ _ => apart_pure trivial

theorem apart_pathValue {member : Ident} : (res : Resolution) → Apart (Settled.expr w) s (pathValue ctx member res)
  | .imported ref _ => apart_bind (apart_importIndex ref) fun _ _ _ _ => apart_pure trivial
  | .intrinsic _ => apart_after quiet_report fun _ _ => apart_pure trivial
  | .variable _ | .function .. | .slot .. | .ambiguous _ | .unknown => apart_pure trivial

/-! ### Declarations and assignments -/

/-- A statement is settled, and behind it all variables in scope are written; only the innermost scope may have changed. -/
def Writes (w : List Nat) (s : State) (x : Bind (Option Stmt)) : Prop :=
  Gives s x fun st s' => (∀ st' ∈ st, Settled.stmt w st') ∧ Covers (st.toList.foldl Stmt.after w) s'.frame.outline ∧
    s'.frame.outline.tail = s.frame.outline.tail

/-- A statement that declares nothing. -/
theorem writes_of_apart {x : Bind (Option Stmt)} (h : Covers w s.frame.outline)
    (hx : Apart (fun st => ∀ st' ∈ st, Settled.stmt w st') s x) : Writes w s x := by
  obtain ⟨hst, hs⟩ := hx
  refine ⟨hst, ?_, congrArg List.tail hs⟩
  rw [hs]
  refine h.mono ?_
  cases (x.run s).1 with
  | none => exact List.Subset.refl w
  | some st => exact st.subset_after w

theorem writes_bind {α : Type} {P : α → Prop} {x : Bind α} {f : α → Bind (Option Stmt)} (hx : Apart P s x)
    (hf : ∀ a s', P a → s'.frame.outline = s.frame.outline → Writes w s' (f a)) : Writes w s (x >>= f) := by
  obtain ⟨ha, hs⟩ := hx
  obtain ⟨hst, hcovers, htail⟩ := hf _ _ ha hs
  exact ⟨hst, hcovers, htail.trans (congrArg List.tail hs)⟩

theorem apart_declareSymbol (name : Ident) (kind : SymbolKind) : Apart (fun _ => True) s (declareSymbol name kind) :=
  ⟨trivial, rfl⟩

theorem apart_none {α : Type} {P : α → Prop} : Apart (fun a => ∀ a' ∈ a, P a') s (pure none) := by
  refine apart_pure fun a ha => ?_
  cases ha

theorem apart_some {α : Type} {P : α → Prop} {a : α} (h : P a) : Apart (fun a => ∀ a' ∈ a, P a') s (pure (some a)) := by
  refine apart_pure fun a' ha => ?_
  cases ha
  exact h

theorem apart_bindSlot {name : Ident} {mutable : Bool} {value : Option Expr} {line : Nat}
    (hvalue : ∀ e ∈ value, Settled.expr w e) :
    Apart (fun st => ∀ st' ∈ st, Settled.stmt w st') s (bindSlot ctx name mutable value line) := by
  refine gives_get ?_
  dsimp only
  split
  · exact apart_after quiet_report fun _ _ => apart_none
  · refine apart_bind (apart_declareSymbol name _) fun slot _ _ _ => ?_
    split
    · exact apart_some (hvalue _ rfl)
    · exact apart_none

/-- A binding takes a new local and writes it. -/
theorem writes_bindVariable {name : Ident} {mutable : Bool} {value : Option Expr} {line : Nat}
    (h : Covers w s.frame.outline) (hvalue : ∀ e ∈ value, Settled.expr w e) :
    Writes w s (bindVariable ctx name mutable value line) := by
  refine gives_get ?_
  split
  · exact writes_of_apart h (apart_bindSlot hvalue)
  · have declared := outline_declare s.frame name.name mutable name.span
    refine ⟨?_, ?_, ?_⟩
    · intro st hst
      cases hst
      cases value with
      | none => trivial
      | some e => exact hvalue e rfl
    · show Covers (s.frame.next :: w) (s.frame.declare name.name mutable name.span).outline
      rw [declared]
      exact h.declare name.name s.frame.next mutable
    · show (s.frame.declare name.name mutable name.span).outline.tail = s.frame.outline.tail
      rw [declared, tail_pushFirst]

theorem apart_assignPlace (target : Ident) (res : Resolution) : Apart (fun _ => True) s (assignPlace ctx target res) := by
  have reported {notice : Notice} {span : Span} {place : Option Place} :
      Apart (fun _ => True) s (report ctx notice span >>= fun _ => pure place) :=
    apart_after quiet_report fun _ _ => apart_pure trivial
  cases res with
  | «variable» => exact apart_ite reported (apart_pure trivial)
  | slot _ _ kind =>
    cases kind with
    | «variable» => exact apart_ite reported (apart_pure trivial)
    | function => exact reported
  | unknown =>
    refine gives_get ?_
    split
    · exact apart_bind (apart_declareSymbol _ _) fun _ _ _ _ => apart_after quiet_report fun _ _ => apart_pure trivial
    · exact apart_pure trivial
    · exact reported
  | _ => exact reported

theorem apart_bindAssign {target : Ident} {value : Expr} {line : Nat} (hvalue : Settled.expr w value) :
    Apart (fun st => ∀ st' ∈ st, Settled.stmt w st') s (bindAssign ctx target value line) := by
  refine gives_get (apart_bind (apart_assignPlace _ _) fun place _ _ _ => apart_pure fun st hst => ?_)
  obtain ⟨_, -, rfl⟩ := Option.map_eq_some_iff.mp hst
  exact hvalue

/-! ### Trees -/

theorem settled_literal (l : Literal) : Settled.expr w (literal l) := by
  cases l
  all_goals trivial

theorem settled_binary {left right : Expr} (hl : Settled.expr w left) (hr : Settled.expr w right) (op : BinaryOp) :
    Settled.expr w (binary op left right) := by
  cases op
  all_goals exact ⟨hl, hr⟩

theorem settled_append {st : Option Stmt} {ss : List Stmt} (hst : ∀ st' ∈ st, Settled.stmt w st')
    (hss : Settled.stmts (st.toList.foldl Stmt.after w) ss) : Settled.stmts w (st.toList ++ ss) := by
  cases st with
  | none => exact hss
  | some st => exact ⟨hst st rfl, hss⟩

theorem apart_checkReachable {diverged warned : Bool} (st : Tree.Stmt) :
    Apart (fun _ => True) s (checkReachable ctx diverged warned st) := by
  unfold checkReachable
  split
  · exact apart_pure trivial
  · exact apart_ite (apart_after quiet_report fun _ _ => apart_pure trivial) (apart_pure trivial)

end

section
variable {ctx : Context}

mutual

/-- Where all variables in scope are written, binding gives a settled expression. -/
theorem apart_expr (inLoop : Bool) {w : List Nat} {s : State} (h : Covers w s.frame.outline) : (e : Tree.Expr) →
    Apart (Settled.expr w) s (expr ctx inLoop e)
  | .name ident => apart_bind (apart_resolveRead h ident.name) fun _ _ hres _ => apart_nameValue hres
  | .path library member _ => apart_bind (apart_resolvePath library member) fun res _ _ _ => apart_pathValue res
  | .literal value _ => apart_pure (settled_literal value)
  | .binary op left right _ => apart_after quiet_checkDivisor fun s₁ h₁ =>
      apart_bind (apart_expr inLoop (h₁ ▸ h) left) fun _ s₂ hl h₂ =>
        apart_bind (apart_expr inLoop (h₂ ▸ h₁ ▸ h) right) fun _ _ hr _ => apart_pure (settled_binary hl hr op)
  | .unary _ operand _ => apart_bind (apart_expr inLoop h operand) fun _ _ he _ => apart_pure he
  | .call callee args _ => by
    unfold expr
    split
    · rename_i ident
      refine apart_bind (apart_resolveRead h ident.name) fun res s₁ hres h₁ => apart_after quiet_checkArity fun s₂ h₂ => ?_
      refine apart_bind (apart_exprs inLoop (h₂ ▸ h₁ ▸ h) args) fun bound _ hargs _ => ?_
      split
      · exact apart_pure hargs
      · exact apart_bind (apart_nameValue hres) fun _ _ hcallee _ => apart_pure ⟨hcallee, hargs⟩
    · rename_i library member _
      refine apart_bind (apart_resolvePath library member) fun res s₁ _ h₁ => ?_
      refine apart_after quiet_checkArity fun s₂ h₂ => ?_
      refine apart_bind (apart_exprs inLoop (h₂ ▸ h₁ ▸ h) args) fun bound _ hargs _ => ?_
      split
      · exact apart_pure hargs
      · exact apart_bind (apart_pathValue res) fun _ _ hcallee _ => apart_pure ⟨hcallee, hargs⟩
    · exact apart_bind (apart_exprs inLoop h args) fun _ _ hargs h₁ =>
        apart_bind (apart_expr inLoop (h₁ ▸ h) callee) fun _ _ hcallee _ => apart_pure ⟨hcallee, hargs⟩
  | .index base position _ => apart_bind (apart_expr inLoop h base) fun _ _ hb h₁ =>
      apart_bind (apart_expr inLoop (h₁ ▸ h) position) fun _ _ hp _ => apart_pure ⟨hb, hp⟩
  | .list items _ => apart_bind (apart_exprs inLoop h items) fun _ _ hi _ => apart_pure hi
  | .branch b => apart_branch inLoop h b
  | .block b => apart_bind (apart_inScope h fun _ h' => gives_block inLoop h' b) fun _ _ hb _ => apart_pure hb

theorem apart_exprs (inLoop : Bool) {w : List Nat} {s : State} (h : Covers w s.frame.outline) : (es : List Tree.Expr) →
    Apart (Settled.exprs w) s (exprs ctx inLoop es)
  | [] => apart_pure trivial
  | e :: es => apart_bind (apart_expr inLoop h e) fun _ _ he h₁ =>
      apart_bind (apart_exprs inLoop (h₁ ▸ h) es) fun _ _ hes _ => apart_pure ⟨he, hes⟩

theorem apart_branch (inLoop : Bool) {w : List Nat} {s : State} (h : Covers w s.frame.outline) : (b : Tree.Branch) →
    Apart (Settled.expr w) s (branch ctx inLoop b)
  | .mk condition body other _ => apart_bind (apart_expr inLoop h condition) fun _ _ hc h₁ =>
      apart_bind (apart_inScope (h₁ ▸ h) fun _ h' => gives_block inLoop h' body) fun _ _ hb h₂ =>
        apart_bind (apart_otherwise inLoop (h₂ ▸ h₁ ▸ h) other) fun _ _ ho _ => apart_pure ⟨hc, hb, ho⟩

theorem apart_otherwise (inLoop : Bool) {w : List Nat} {s : State} (h : Covers w s.frame.outline) : (o : Tree.Otherwise) →
    Apart (Settled.block w) s (otherwise ctx inLoop o)
  | .nothing => apart_pure ⟨trivial, trivial⟩
  | .block b => apart_inScope h fun _ h' => gives_block inLoop h' b
  | .branch b => apart_bind (apart_branch inLoop h b) fun _ _ hb _ => apart_pure ⟨trivial, hb⟩

theorem gives_block (inLoop : Bool) {w : List Nat} {s : State} (h : Covers w s.frame.outline) : (b : Tree.Block) →
    Gives s (block ctx inLoop b) fun b' s' => Settled.block w b' ∧ s'.frame.outline.tail = s.frame.outline.tail
  | .mk body last _ => gives_bind (gives_stmts inLoop false false h body) fun bound s₁ ⟨hbody, h₁, tail₁⟩ => by
    obtain ⟨hlast, h₂⟩ := apart_tail inLoop (bound.2.1 && !bound.2.2) h₁ last
    exact ⟨⟨hbody, hlast⟩, (congrArg List.tail h₂).trans tail₁⟩

theorem gives_stmts (inLoop diverged warned : Bool) {w : List Nat} {s : State} (h : Covers w s.frame.outline) :
    (ss : List Tree.Stmt) → Gives s (stmts ctx inLoop diverged warned ss) fun bound s' => Settled.stmts w bound.1 ∧
      Covers (bound.1.foldl Stmt.after w) s'.frame.outline ∧ s'.frame.outline.tail = s.frame.outline.tail
  | [] => ⟨trivial, h, rfl⟩
  | st :: ss => gives_bind (apart_checkReachable st) fun warned s₁ ⟨_, h₁⟩ =>
      gives_bind (writes_stmt inLoop (h₁ ▸ h) st) fun first s₂ ⟨hfirst, h₂, tail₂⟩ => by
        obtain ⟨hrest, h₃, tail₃⟩ := gives_stmts inLoop (diverged || st.diverges) warned h₂ ss
        refine ⟨settled_append hfirst hrest, ?_, ?_⟩
        · show Covers ((first.toList ++ _).foldl Stmt.after w) _
          rw [List.foldl_append]
          exact h₃
        · exact tail₃.trans (tail₂.trans (congrArg List.tail h₁))

theorem writes_stmt (inLoop : Bool) {w : List Nat} {s : State} (h : Covers w s.frame.outline) : (st : Tree.Stmt) →
    Writes w s (stmt ctx inLoop st)
  | .bind _ _ value _ => writes_bind (apart_optional inLoop h value) fun _ _ hv h₁ => writes_bindVariable (h₁ ▸ h) hv
  | .assign _ value _ => writes_of_apart h (apart_bind (apart_expr inLoop h value) fun _ _ hv _ => apart_bindAssign hv)
  | .setIndex base position value _ => writes_of_apart h <| apart_bind (apart_expr inLoop h base) fun _ _ hb h₁ =>
      apart_bind (apart_expr inLoop (h₁ ▸ h) position) fun _ _ hp h₂ =>
        apart_bind (apart_expr inLoop (h₂ ▸ h₁ ▸ h) value) fun _ _ hv _ => apart_some ⟨hb, hp, hv⟩
  | .func .. => writes_of_apart h (gives_get (apart_ite (apart_after quiet_report fun _ _ => apart_none) apart_none))
  | .eval e => writes_of_apart h (apart_bind (apart_expr inLoop h e) fun _ _ he _ => apart_some he)
  | .ret value _ => writes_of_apart h <| apart_bind (apart_optional inLoop h value) fun v _ hv _ => apart_some <| by
      cases v with
      | none => trivial
      | some e => exact hv e rfl
  | .loop condition body _ => writes_of_apart h <| apart_bind (apart_expr inLoop h condition) fun _ _ hc h₁ =>
      apart_bind (apart_inScope (h₁ ▸ h) fun _ h' => gives_block true h' body) fun _ _ hb _ => apart_some ⟨hc, hb⟩
  | .leave _ | .next _ =>
    writes_of_apart h (apart_ite (apart_after quiet_report fun _ _ => apart_some trivial) (apart_some trivial))

theorem apart_optional (inLoop : Bool) {w : List Nat} {s : State} (h : Covers w s.frame.outline) : (e : Option Tree.Expr) →
    Apart (fun b => ∀ e ∈ b, Settled.expr w e) s (optional ctx inLoop e)
  | none => apart_none
  | some e => apart_bind (apart_expr inLoop h e) fun _ _ he _ => apart_some he

theorem apart_tail (inLoop unreachable : Bool) {w : List Nat} {s : State} (h : Covers w s.frame.outline) :
    (e : Option Tree.Expr) → Apart (Settled.tail w) s (tail ctx inLoop unreachable e)
  | none => apart_pure trivial
  | some e => by
    have value {s' : State} (hs : s'.frame.outline = s.frame.outline) :
        Apart (Settled.tail w) s' (expr ctx inLoop e >>= fun b => pure (Tail.value b (lineOf ctx e.span))) :=
      apart_bind (apart_expr inLoop (hs ▸ h) e) fun _ _ he _ => apart_pure he
    exact apart_ite (apart_after quiet_report fun _ hs => value hs) (value rfl)

end

/-! ### Units -/

/-- Parameters are the first locals of a function. -/
theorem gives_params (ctx : Context) (ps : List Ident) {s : State} (h : Covers (List.range s.frame.next) s.frame.outline) :
    Gives s (params ctx ps) fun _ s' => s'.frame.next = s.frame.next + ps.length ∧
      Covers (List.range s'.frame.next) s'.frame.outline := by
  induction ps generalizing s with
  | nil => exact ⟨rfl, h⟩
  | cons p ps ih =>
    have rest {s' : State} (hs : s'.frame = s.frame) : Gives s' (declareLocal p false >>= fun _ => params ctx ps)
        fun _ s'' => s''.frame.next = s.frame.next + (ps.length + 1) ∧
          Covers (List.range s''.frame.next) s''.frame.outline := by
      have declared : Covers (List.range (s'.frame.next + 1)) (s'.frame.declare p.name false p.span).outline := by
        rw [outline_declare, hs]
        refine (h.declare p.name s.frame.next false).mono fun i hi => ?_
        rcases List.mem_cons.mp hi with rfl | hi
        · exact List.mem_range.mpr (Nat.lt_succ_self _)
        · exact List.mem_range.mpr (Nat.lt_succ_of_lt (List.mem_range.mp hi))
      obtain ⟨hnext, covers⟩ := ih (s := { s' with frame := s'.frame.declare p.name false p.span }) declared
      refine ⟨?_, covers⟩
      rw [← hs, Nat.add_comm ps.length, ← Nat.add_assoc]
      exact hnext
    refine gives_get ?_
    split
    · exact rest rfl
    · exact rest rfl

theorem function_settled (s : State) (d : Declaration) : ((function ctx d).run s).1.Settled := by
  have fresh : Covers (List.range 0) Frame.function.outline := fun v hv => nomatch hv
  obtain ⟨hnext, covers⟩ := gives_params ctx d.params (s := { s with frame := Frame.function }) fresh
  rw [hnext, show ({ s with frame := Frame.function } : State).frame.next = 0 from rfl, Nat.zero_add] at covers
  exact (gives_block false covers d.body).1

theorem functions_settled (s : State) (ds : List Declaration) : ∀ f ∈ ((functions ctx ds).run s).1, f.Settled := by
  induction ds generalizing s with
  | nil => exact fun f hf => nomatch hf
  | cons d ds ih =>
    intro f hf
    rcases List.mem_cons.mp hf with rfl | hf
    · exact function_settled s d
    · exact ih _ f hf

/-- The top level of a script has no variables among the locals. -/
theorem entry_settled (s : State) (f : Tree.Fragment) (name : String) : ((entry ctx f name).run s).1.Settled := by
  have fresh : Covers (List.range 0) Frame.entry.outline := fun v hv => nomatch hv
  exact (gives_block false (s := { s with frame := Frame.entry }) fresh (.mk f.stmts f.tail f.span)).1

/-- No function of a unit reads a local before it writes it, whatever is wrong with the unit. -/
theorem bind_settled (ctx : Context) (f : Tree.Fragment) : ∀ g ∈ (bind ctx f).program.functions, g.Settled := by
  have settled (s : State) (declared : List Declaration) :
      ∀ g ∈ ((unitFunctions ctx f declared).run s).1, g.Settled := by
    unfold unitFunctions
    split
    · rename_i name _
      intro g hg
      rcases List.mem_append.mp hg with hg | hg
      · exact functions_settled _ declared g hg
      · rw [List.mem_singleton.mp hg]
        exact entry_settled s f name
    · exact functions_settled _ declared
  exact settled _ _

end

end Binder
end ScriptEngine
