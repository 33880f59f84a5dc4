import ScriptEngine.Proofs.BindingRules
import ScriptEngine.Proofs.SourceNames

/-! What a unit declares, its statements at the top level name (`Binder.bind_names`). Expressions declare nothing,
    and neither do statements in a scope: they leave the symbols as they are (`Binder.Leaves`). -/

namespace ScriptEngine.Binder
open ScriptEngine.Bound (Expr Stmt Place)

/-! ### What declares nothing -/

/-- Binding leaves the symbols as they are. -/
def Leaves {α : Type} (s : State) (x : Bind α) : Prop := (x.run s).2.symbols = s.symbols

section
variable {α β : Type} {s : State} {x y : Bind α} {f : α → Bind β}

theorem leaves_pure {a : α} : Leaves s (pure a) := rfl

theorem leaves_bind (hx : Leaves s x) (hf : ∀ a, Leaves (x.run s).2 (f a)) : Leaves s (x >>= f) := (hf _).trans hx

theorem leaves_get {f : State → Bind α} (h : Leaves s (f s)) : Leaves s (get >>= f) := h

theorem leaves_modify {g : State → State} {f : Unit → Bind α} (hg : (g s).symbols = s.symbols)
    (h : Leaves (g s) (f ())) : Leaves s (modify g >>= f) := Eq.trans h hg

theorem leaves_ite {c : Prop} [Decidable c] (hx : Leaves s x) (hy : Leaves s y) : Leaves s (if c then x else y) := by
  split
  · exact hx
  · exact hy

theorem leaves_forM {l : List α} {g : α → Bind Unit} (h : ∀ a s, Leaves s (g a)) : Leaves s (l.forM g) := by
  induction l generalizing s with
  | nil => exact leaves_pure
  | cons a l ih => exact leaves_bind (h a s) fun _ => ih

end

section
variable {ctx : Context} {s : State}

theorem leaves_report {notice : Notice} {span : Span} : Leaves s (report ctx notice span) := rfl

/-- A message, and then what would be without it. -/
theorem leaves_reported {α : Type} {notice : Notice} {span : Span} {x : Bind α} (hx : ∀ s', Leaves s' x) :
    Leaves s (report ctx notice span >>= fun _ => x) := leaves_bind leaves_report fun _ => hx _

theorem leaves_closeScope : Leaves s (closeScope ctx) :=
  leaves_get (leaves_modify rfl (leaves_forM fun _ _ => leaves_ite leaves_pure leaves_report))

theorem leaves_inScope {α : Type} {x : Bind α} (hx : ∀ s', s'.frame.atTopLevel = false → Leaves s' x) :
    Leaves s (inScope ctx x) :=
  leaves_modify rfl (leaves_bind (hx _ (Bool.and_false _)) fun _ => leaves_bind leaves_closeScope fun _ => leaves_pure)

theorem leaves_resolveRead {name : String} : Leaves s (resolveRead ctx name) := rfl

theorem leaves_resolvePath {library member : Ident} : Leaves s (resolvePath ctx library member) := by
  unfold resolvePath
  refine leaves_ite ?_ ?_
  · split
    · exact leaves_pure
    · exact leaves_reported fun _ => leaves_pure
  · split
    · exact leaves_reported fun _ => leaves_pure
    · split
      · exact leaves_pure
      · exact leaves_reported fun _ => leaves_pure

theorem leaves_importIndex {ref : ImportRef} : Leaves s (importIndex ref) := by
  refine leaves_get ?_
  split
  · exact leaves_pure
  · exact leaves_get (leaves_modify rfl leaves_pure)

theorem leaves_nameValue {ident : Ident} : (res : Resolution) → Leaves s (nameValue ctx ident res)
  | .variable _ | .function _ _ | .slot _ _ _ => leaves_pure
  | .imported _ _ => leaves_bind leaves_importIndex fun _ => leaves_pure
  | .intrinsic _ | .ambiguous _ | .unknown => leaves_reported fun _ => leaves_pure

theorem leaves_pathValue {member : Ident} : (res : Resolution) → Leaves s (pathValue ctx member res)
  | .imported _ _ => leaves_bind leaves_importIndex fun _ => leaves_pure
  | .intrinsic _ => leaves_reported fun _ => leaves_pure
  | .variable _ | .function _ _ | .slot _ _ _ | .ambiguous _ | .unknown => leaves_pure

theorem leaves_checkArity {callee : String} {r : Resolution} {given : Nat} {span : Span} :
    Leaves s (checkArity ctx callee r given span) := by
  unfold checkArity
  split
  · exact leaves_ite leaves_pure leaves_report
  · exact leaves_pure

theorem leaves_checkDivisor {op : BinaryOp} {divisor : Tree.Expr} : Leaves s (checkDivisor ctx op divisor) :=
  leaves_ite leaves_report leaves_pure

theorem leaves_checkReachable {diverged warned : Bool} {st : Tree.Stmt} :
    Leaves s (checkReachable ctx diverged warned st) := by
  unfold checkReachable
  split
  · exact leaves_pure
  · exact leaves_ite (leaves_reported fun _ => leaves_pure) leaves_pure

theorem leaves_bindVariable {name : Ident} {mutable : Bool} {value : Option Expr} {line : Nat}
    (inner : s.frame.atTopLevel = false) : Leaves s (bindVariable ctx name mutable value line) := by
  refine leaves_get ?_
  rw [inner, if_neg Bool.false_ne_true]
  exact leaves_bind (leaves_get (leaves_modify rfl leaves_pure)) fun _ => leaves_pure

/-- In a scope an assignment to an unknown name is only reported. -/
theorem leaves_assignPlace {target : Ident} (inner : s.frame.atTopLevel = false) :
    (res : Resolution) → Leaves s (assignPlace ctx target res)
  | .variable _ | .slot _ _ (.variable _) => leaves_ite (leaves_reported fun _ => leaves_pure) leaves_pure
  | .slot _ _ (.function ..) | .function .. | .imported .. | .intrinsic _ | .ambiguous _ =>
    leaves_reported fun _ => leaves_pure
  | .unknown => by
    refine leaves_get ?_
    rw [inner]
    exact leaves_reported fun _ => leaves_pure

theorem leaves_bindAssign {target : Ident} {value : Expr} {line : Nat} (inner : s.frame.atTopLevel = false) :
    Leaves s (bindAssign ctx target value line) :=
  leaves_get (leaves_bind (leaves_assignPlace inner _) fun _ => leaves_pure)

end

/-! ### Trees -/

section
variable {ctx : Context}

mutual

theorem leaves_expr (s : State) (inLoop : Bool) : (e : Tree.Expr) → Leaves s (expr ctx inLoop e)
  | .name _ => leaves_bind leaves_resolveRead fun res => leaves_nameValue res
  | .path _ _ _ => leaves_bind leaves_resolvePath fun res => leaves_pathValue res
  | .literal _ _ => leaves_pure
  | .binary _ left right _ =>
    leaves_bind leaves_checkDivisor fun _ => leaves_bind (leaves_expr _ inLoop left) fun _ =>
      leaves_bind (leaves_expr _ inLoop right) fun _ => leaves_pure
  | .unary _ operand _ => leaves_bind (leaves_expr s inLoop operand) fun _ => leaves_pure
  | .call callee args _ => by
    unfold expr
    split
    · refine leaves_bind leaves_resolveRead fun res => leaves_bind leaves_checkArity fun _ => ?_
      refine leaves_bind (leaves_exprs _ inLoop args) fun _ => ?_
      split
      · exact leaves_pure
      · exact leaves_bind (leaves_nameValue res) fun _ => leaves_pure
    · refine leaves_bind leaves_resolvePath fun res => leaves_bind leaves_checkArity fun _ => ?_
      refine leaves_bind (leaves_exprs _ inLoop args) fun _ => ?_
      split
      · exact leaves_pure
      · exact leaves_bind (leaves_pathValue res) fun _ => leaves_pure
    · exact leaves_bind (leaves_exprs s inLoop args) fun _ => leaves_bind (leaves_expr _ inLoop callee) fun _ => leaves_pure
  | .index base position _ =>
    leaves_bind (leaves_expr s inLoop base) fun _ => leaves_bind (leaves_expr _ inLoop position) fun _ => leaves_pure
  | .list items _ => leaves_bind (leaves_exprs s inLoop items) fun _ => leaves_pure
  | .branch b => leaves_branch s inLoop b
  | .block b => leaves_bind (leaves_inScope fun s' inner => leaves_block s' inner inLoop b) fun _ => leaves_pure

theorem leaves_exprs (s : State) (inLoop : Bool) : (es : List Tree.Expr) → Leaves s (exprs ctx inLoop es)
  | [] => leaves_pure
  | e :: es => leaves_bind (leaves_expr s inLoop e) fun _ => leaves_bind (leaves_exprs _ inLoop es) fun _ => leaves_pure

theorem leaves_branch (s : State) (inLoop : Bool) : (b : Tree.Branch) → Leaves s (branch ctx inLoop b)
  | .mk condition body other _ =>
    leaves_bind (leaves_expr s inLoop condition) fun _ =>
      leaves_bind (leaves_inScope fun s' inner => leaves_block s' inner inLoop body) fun _ =>
        leaves_bind (leaves_otherwise _ inLoop other) fun _ => leaves_pure

theorem leaves_otherwise (s : State) (inLoop : Bool) : (o : Tree.Otherwise) → Leaves s (otherwise ctx inLoop o)
  | .nothing => leaves_pure
  | .block b => leaves_inScope fun s' inner => leaves_block s' inner inLoop b
  | .branch b => leaves_bind (leaves_branch s inLoop b) fun _ => leaves_pure

/-- Only at the top level statements declare something. -/
theorem leaves_block (s : State) (inner : s.frame.atTopLevel = false) (inLoop : Bool) : (b : Tree.Block) →
    Leaves s (block ctx inLoop b)
  | .mk body last _ => leaves_bind (leaves_stmts s inner inLoop false false body) fun _ =>
      leaves_bind (leaves_tail _ inLoop _ last) fun _ => leaves_pure

theorem leaves_stmts (s : State) (inner : s.frame.atTopLevel = false) (inLoop diverged warned : Bool) :
    (ss : List Tree.Stmt) → Leaves s (stmts ctx inLoop diverged warned ss)
  | [] => leaves_pure
  | st :: ss => by
    have checked : Yields s (checkReachable ctx diverged warned st) fun _ _ => True := yields_checkReachable
    have inner₁ := checked.1.atTopLevel.trans inner
    have bound : Yields _ (stmt ctx inLoop st) _ := yields_stmt _ inLoop st (.inl inner₁)
    have inner₂ := bound.1.atTopLevel.trans inner₁
    exact leaves_bind leaves_checkReachable fun _ => leaves_bind (leaves_stmt _ inLoop st (.inl inner₁)) fun _ =>
      leaves_bind (leaves_stmts _ inner₂ inLoop _ _ ss) fun _ => leaves_pure

theorem leaves_stmt (s : State) (inLoop : Bool) : (st : Tree.Stmt) →
    s.frame.atTopLevel = false ∨ st.target? = none → Leaves s (stmt ctx inLoop st)
  | .bind _ _ value _, hplace => by
    have bound : Yields s (optional ctx inLoop value) _ := yields_optional s inLoop value
    have inner := hplace.resolve_right (Option.some_ne_none _)
    exact leaves_bind (leaves_optional s inLoop value) fun _ => leaves_bindVariable (bound.1.atTopLevel.trans inner)
  | .assign _ value _, hplace => by
    have bound : Yields s (expr ctx inLoop value) _ := yields_expr s inLoop value
    have inner := hplace.resolve_right (Option.some_ne_none _)
    exact leaves_bind (leaves_expr s inLoop value) fun _ => leaves_bindAssign (bound.1.atTopLevel.trans inner)
  | .setIndex base position value _, _ =>
    leaves_bind (leaves_expr s inLoop base) fun _ => leaves_bind (leaves_expr _ inLoop position) fun _ =>
      leaves_bind (leaves_expr _ inLoop value) fun _ => leaves_pure
  | .func _ _ _ _, _ => leaves_get (leaves_ite (leaves_reported fun _ => leaves_pure) leaves_pure)
  | .eval e, _ => leaves_bind (leaves_expr s inLoop e) fun _ => leaves_pure
  | .ret value _, _ => leaves_bind (leaves_optional s inLoop value) fun _ => leaves_pure
  | .loop condition body _, _ =>
    leaves_bind (leaves_expr s inLoop condition) fun _ =>
      leaves_bind (leaves_inScope fun s' inner => leaves_block s' inner true body) fun _ => leaves_pure
  | .leave _, _ | .next _, _ => leaves_ite (leaves_reported fun _ => leaves_pure) leaves_pure

theorem leaves_optional (s : State) (inLoop : Bool) : (e : Option Tree.Expr) → Leaves s (optional ctx inLoop e)
  | none => leaves_pure
  | some e => leaves_bind (leaves_expr s inLoop e) fun _ => leaves_pure

theorem leaves_tail (s : State) (inLoop unreachable : Bool) : (e : Option Tree.Expr) →
    Leaves s (tail ctx inLoop unreachable e)
  | none => leaves_pure
  | some e => leaves_ite (leaves_reported fun s' => leaves_bind (leaves_expr s' inLoop e) fun _ => leaves_pure)
      (leaves_bind (leaves_expr s inLoop e) fun _ => leaves_pure)

end

end

/-! ### What declares something -/

/-- The names of the symbols have a property. -/
def Named (P : String → Prop) (s : State) : Prop := ∀ symbol ∈ s.symbols.entries, P symbol.name

/-- The names that binding declares have a property, if those before have it. -/
def Names {α : Type} (P : String → Prop) (s : State) (x : Bind α) : Prop := Named P s → Named P (x.run s).2

section
variable {α β : Type} {P : String → Prop} {s : State} {x y : Bind α} {f : α → Bind β}

theorem Leaves.names (h : Leaves s x) : Names P s x := fun hs => by
  rw [Named, h]
  exact hs

theorem names_bind (hx : Names P s x) (hf : ∀ a, Names P (x.run s).2 (f a)) : Names P s (x >>= f) := fun hs => hf _ (hx hs)

theorem names_get {f : State → Bind α} (h : Names P s (f s)) : Names P s (get >>= f) := h

theorem names_modify {g : State → State} {f : Unit → Bind α} (hg : Named P s → Named P (g s)) (h : Names P (g s) (f ())) :
    Names P s (modify g >>= f) := fun hs => h (hg hs)

theorem names_declareSymbol {name : Ident} (kind : SymbolKind) (hname : P name.name) :
    Names P s (declareSymbol name kind) := by
  intro hs symbol hsymbol
  rcases Array.mem_push.mp hsymbol with hsymbol | rfl
  · exact hs symbol hsymbol
  · exact hname

end

section
variable {P : String → Prop} {ctx : Context} {s : State}

theorem names_bindVariable {name : Ident} {mutable : Bool} {value : Option Expr} {line : Nat} (hname : P name.name) :
    Names P s (bindVariable ctx name mutable value line) := by
  cases htop : s.frame.atTopLevel with
  | false => exact (leaves_bindVariable htop).names
  | true =>
    refine names_get ?_
    rw [htop, if_pos rfl]
    intro hs
    obtain hrun | ⟨b, hrun, -⟩ := bindSlot_run ctx s name mutable value line
    · rw [hrun]
      exact hs
    · rw [hrun]
      exact names_declareSymbol (.variable mutable) hname hs

theorem names_assignPlace {target : Ident} (hname : P target.name) : (res : Resolution) →
    Names P s (assignPlace ctx target res)
  | .variable _ | .slot _ _ (.variable _) => (leaves_ite (leaves_reported fun _ => leaves_pure) leaves_pure).names
  | .slot _ _ (.function ..) | .function .. | .imported .. | .intrinsic _ | .ambiguous _ =>
    (leaves_reported fun _ => leaves_pure).names
  | .unknown => by
    refine names_get ?_
    split
    · exact names_bind (names_declareSymbol _ hname) fun _ => (leaves_reported fun _ => leaves_pure).names
    · exact leaves_pure.names
    · exact (leaves_reported fun _ => leaves_pure).names

/-- A statement of the top level declares nothing but its own name. -/
theorem names_stmt (inLoop : Bool) {st : Tree.Stmt} (h : ∀ name ∈ st.target?, P name.name) :
    Names P s (stmt ctx inLoop st) := by
  cases st with
  | bind name mutable value span =>
    exact names_bind (leaves_optional s inLoop value).names fun _ => names_bindVariable (h _ rfl)
  | assign target value span =>
    refine names_bind (leaves_expr s inLoop value).names fun _ => names_get (names_bind ?_ fun _ => leaves_pure.names)
    exact names_assignPlace (h _ rfl) _
  | func name params body span =>
    exact (leaves_get (leaves_ite (leaves_reported fun _ => leaves_pure) leaves_pure)).names
  | _ => exact (leaves_stmt s inLoop _ (.inr rfl)).names

theorem names_stmts (inLoop diverged warned : Bool) {ss : List Tree.Stmt}
    (h : ∀ st ∈ ss, ∀ name ∈ st.target?, P name.name) : Names P s (stmts ctx inLoop diverged warned ss) := by
  induction ss generalizing s diverged warned with
  | nil => exact leaves_pure.names
  | cons st ss ih =>
    refine names_bind leaves_checkReachable.names fun _ => names_bind (names_stmt inLoop (h st (.head _))) fun _ => ?_
    exact names_bind (ih _ _ fun st' hst' => h st' (.tail _ hst')) fun _ => leaves_pure.names

theorem names_hoist {ss : List Tree.Stmt} (h : ∀ st ∈ ss, ∀ name ∈ st.target?, P name.name) (index : Nat) :
    Names P s (hoist ctx ss index) := by
  induction ss generalizing s index with
  | nil => exact leaves_pure.names
  | cons st ss ih =>
    have rest (s' : State) (index : Nat) : Names P s' (hoist ctx ss index) :=
      ih (fun st' hst' => h st' (.tail _ hst')) index
    cases st with
    | func name params body span =>
      refine names_get ?_
      split
      · exact names_bind leaves_report.names fun _ => rest _ index
      · refine names_bind (names_declareSymbol _ (h _ (.head _) _ rfl)) fun _ => ?_
        exact names_bind (rest _ (index + 1)) fun _ => leaves_pure.names
    | _ => exact rest s index

theorem leaves_params (ps : List Ident) : Leaves s (params ctx ps) := by
  induction ps generalizing s with
  | nil => exact leaves_pure
  | cons p ps ih =>
    have declared (s' : State) : Leaves s' (declareLocal p false >>= fun _ => params ctx ps) :=
      leaves_bind (leaves_get (leaves_modify rfl leaves_pure)) fun _ => ih
    exact leaves_get (leaves_ite (leaves_reported fun s' => declared s') (declared s))

theorem leaves_function (d : Declaration) : Leaves s (function ctx d) := by
  have bound : Yields { s with frame := Frame.function } (params ctx d.params) fun _ _ => True := yields_params d.params
  refine leaves_modify rfl (leaves_bind (leaves_params d.params) fun _ => ?_)
  refine leaves_bind (leaves_block _ bound.1.atTopLevel false d.body) fun _ => ?_
  exact leaves_bind leaves_closeScope fun _ => leaves_get leaves_pure

theorem leaves_functions (ds : List Declaration) : Leaves s (functions ctx ds) := by
  induction ds generalizing s with
  | nil => exact leaves_pure
  | cons d ds ih => exact leaves_bind (leaves_function d) fun _ => leaves_bind ih fun _ => leaves_pure

theorem names_entry {f : Tree.Fragment} (name : String) (h : ∀ st ∈ f.stmts, ∀ name ∈ st.target?, P name.name) :
    Names P s (entry ctx f name) := by
  refine names_modify id (names_bind ?_ fun _ => (leaves_get leaves_pure).names)
  exact names_bind (names_stmts false false false h) fun _ =>
    names_bind (leaves_tail _ false _ f.tail).names fun _ => leaves_pure.names

theorem leaves_rejectStatements {f : Tree.Fragment} : Leaves s (rejectStatements ctx f) := by
  refine leaves_bind (leaves_forM fun st _ => ?_) fun _ => ?_
  · split
    · exact leaves_pure
    · exact leaves_report
  · split
    · exact leaves_report
    · exact leaves_pure

end

/-- What a unit declares, a statement of its top level names. -/
theorem bind_names (ctx : Context) {f : Tree.Fragment} {P : String → Prop}
    (h : ∀ st ∈ f.stmts, ∀ name ∈ st.target?, P name.name) : ∀ symbol ∈ (bind ctx f).symbols.entries, P symbol.name := by
  have bound (s : State) : Names P s (fragment ctx f) := by
    refine names_bind (names_hoist h 0) fun declared => names_bind ?_ fun _ => (leaves_get leaves_pure).names
    unfold unitFunctions
    split
    · exact names_bind (names_entry _ h) fun _ => names_bind (leaves_functions declared).names fun _ => leaves_pure.names
    · exact names_bind leaves_rejectStatements.names fun _ => (leaves_functions declared).names
  exact bound _ fun symbol hsymbol => absurd hsymbol (Array.not_mem_empty symbol)

end ScriptEngine.Binder
