import ScriptEngine.Proofs.Scoping
import ScriptEngine.Proofs.TreeSpans
import ScriptEngine.ScriptUnit

/-! Places of messages. Binding reports places of the tree, at once or when a scope is closed (`Binder.Reports`), and the
    messages of a bound unit are sorted; what keeps a text from being read is reported in order anyway. So whatever the
    compiler has to say of a text is in the text and in its order (`ScriptUnit.create_messages`). -/

namespace ScriptEngine

namespace Tree

theorem Stmt.LiesAll.mem {source : String} {ss : List Stmt} (h : Stmt.LiesAll source ss) {s : Stmt} (hs : s ∈ ss) :
    s.Lies source := by
  induction ss with
  | nil => cases hs
  | cons first rest ih =>
    rcases List.mem_cons.mp hs with rfl | hs
    · exact h.1
    · exact ih h.2 hs

end Tree

namespace Binder

/-- What was reported, and every variable that may still be reported, is in the text. -/
def State.Lies (source : String) (s : State) : Prop :=
  (∀ d ∈ s.diagnostics, d.span.Within source) ∧ ∀ v ∈ s.frame.scopes.flatten, v.span.Within source

/-- All places that binding reports are in the text, if those before are. -/
def Reports {α : Type} (source : String) (s : State) (x : Bind α) : Prop := s.Lies source → (x.run s).2.Lies source

section
variable {α β : Type} {source : String} {s : State} {x y : Bind α} {f : α → Bind β}

theorem reports_pure {a : α} : Reports source s (pure a) := id

theorem reports_bind (hx : Reports source s x) (hf : ∀ a, Reports source (x.run s).2 (f a)) :
    Reports source s (x >>= f) := fun hs => hf _ (hx hs)

theorem reports_get {f : State → Bind α} (h : Reports source s (f s)) : Reports source s (get >>= f) := h

theorem reports_modify {g : State → State} {f : Unit → Bind α} (hg : s.Lies source → (g s).Lies source)
    (h : Reports source (g s) (f ())) : Reports source s (modify g >>= f) := fun hs => h (hg hs)

theorem reports_ite {c : Prop} [Decidable c] (hx : Reports source s x) (hy : Reports source s y) :
    Reports source s (if c then x else y) := by
  split
  · exact hx
  · exact hy

theorem reports_forM {l : List α} {g : α → Bind Unit} (h : ∀ a ∈ l, ∀ s, Reports source s (g a)) :
    Reports source s (l.forM g) := by
  induction l generalizing s with
  | nil => exact reports_pure
  | cons a l ih => exact reports_bind (h a (.head _) s) fun _ => ih fun a' ha' => h a' (.tail _ ha')

end

section
variable {source : String} {ctx : Context} {s : State} {span : Span}

theorem reports_report {notice : Notice} (h : span.Within source) : Reports source s (report ctx notice span) := by
  refine fun hs => ⟨fun d hd => ?_, hs.2⟩
  rcases Array.mem_push.mp hd with hd | rfl
  · exact hs.1 d hd
  · exact h

/-- A message, and then what would be without it. -/
theorem reports_reported {α : Type} {notice : Notice} {x : Bind α} (h : span.Within source)
    (hx : ∀ s', Reports source s' x) : Reports source s (report ctx notice span >>= fun _ => x) :=
  reports_bind (reports_report h) fun _ => hx _

/-- Another function is bound, with no variables yet. -/
theorem State.Lies.frame (h : s.Lies source) {frame : Frame} (hframe : frame.scopes.flatten = []) :
    State.Lies source { s with frame := frame } := by
  refine ⟨h.1, fun v hv => ?_⟩
  rw [hframe] at hv
  cases hv

/-- The variables of a scope that is closed are reported. -/
theorem reports_closeScope : Reports source s (closeScope ctx) := by
  intro hs
  have innermost (v : Variable) (hv : v ∈ s.frame.innermost) : v.span.Within source := by
    refine hs.2 v ?_
    unfold Frame.innermost at hv
    cases hscopes : s.frame.scopes with
    | nil =>
      rw [hscopes] at hv
      cases hv
    | cons first rest =>
      rw [hscopes, List.mem_reverse] at hv
      exact List.mem_append_left _ hv
  have closed : State.Lies source { s with frame := s.frame.closeScope } := by
    refine ⟨hs.1, fun v hv => hs.2 v ?_⟩
    obtain ⟨vs, hvs, hv⟩ := List.mem_flatten.mp hv
    exact List.mem_flatten.mpr ⟨vs, List.mem_of_mem_tail hvs, hv⟩
  have unused : Reports source { s with frame := s.frame.closeScope } (s.frame.innermost.forM fun v =>
      if v.used || v.name.startsWith "_" then pure () else report ctx (.unusedVariable v.name) v.span) :=
    reports_forM fun v hv _ => reports_ite reports_pure (reports_report (innermost v hv))
  exact unused closed

theorem reports_inScope {α : Type} {x : Bind α} (hx : ∀ s', Reports source s' x) : Reports source s (inScope ctx x) :=
  reports_modify id (reports_bind (hx _) fun _ => reports_bind reports_closeScope fun _ => reports_pure)

/-! ### Names -/

theorem reports_resolveRead {name : String} : Reports source s (resolveRead ctx name) := by
  refine reports_get (reports_modify (fun hs => ⟨hs.1, fun v hv => ?_⟩) reports_pure)
  obtain ⟨v', hv', hsame⟩ := mem_markScopes hv
  rw [← hsame]
  exact hs.2 v' hv'

theorem reports_resolvePath {library member : Ident} (hlibrary : library.span.Within source)
    (hmember : member.span.Within source) : Reports source s (resolvePath ctx library member) := by
  unfold resolvePath
  refine reports_ite ?_ ?_
  · split
    · exact reports_pure
    · exact reports_reported hmember fun _ => reports_pure
  · split
    · exact reports_reported hlibrary fun _ => reports_pure
    · split
      · exact reports_pure
      · exact reports_reported hmember fun _ => reports_pure

theorem reports_importIndex {ref : ImportRef} : Reports source s (importIndex ref) := by
  refine reports_get ?_
  split
  · exact reports_pure
  · exact reports_get (reports_modify id reports_pure)

theorem reports_nameValue {ident : Ident} (h : ident.span.Within source) :
    (res : Resolution) → Reports source s (nameValue ctx ident res)
  | .variable _ | .function _ _ | .slot _ _ _ => reports_pure
  | .imported _ _ => reports_bind reports_importIndex fun _ => reports_pure
  | .intrinsic _ | .ambiguous _ | .unknown => reports_reported h fun _ => reports_pure

theorem reports_pathValue {member : Ident} (h : member.span.Within source) :
    (res : Resolution) → Reports source s (pathValue ctx member res)
  | .imported _ _ => reports_bind reports_importIndex fun _ => reports_pure
  | .intrinsic _ => reports_reported h fun _ => reports_pure
  | .variable _ | .function _ _ | .slot _ _ _ | .ambiguous _ | .unknown => reports_pure

theorem reports_checkArity {callee : String} {r : Resolution} {given : Nat} (h : span.Within source) :
    Reports source s (checkArity ctx callee r given span) := by
  unfold checkArity
  split
  · exact reports_ite reports_pure (reports_report h)
  · exact reports_pure

/-! ### Declarations and assignments -/

theorem reports_declareLocal {name : Ident} {mutable : Bool} (h : name.span.Within source) :
    Reports source s (declareLocal name mutable) := by
  refine reports_get (reports_modify (fun hs => ⟨hs.1, fun v hv => ?_⟩) reports_pure)
  simp only [Frame.declare] at hv
  have older := hs.2
  split at hv
  · cases hv
  · rename_i innermost rest hscopes
    rw [hscopes] at older
    rcases List.mem_cons.mp hv with rfl | hv
    · exact h
    · exact older v hv

theorem reports_declareSymbol {name : Ident} {kind : SymbolKind} : Reports source s (declareSymbol name kind) :=
  reports_get (reports_modify id reports_pure)

theorem reports_bindVariable {name : Ident} {mutable : Bool} {value : Option Bound.Expr} {line : Nat}
    (h : name.span.Within source) : Reports source s (bindVariable ctx name mutable value line) := by
  refine reports_get (reports_ite (reports_get ?_) (reports_bind (reports_declareLocal h) fun _ => reports_pure))
  dsimp only
  split
  · exact reports_reported h fun _ => reports_pure
  · refine reports_bind reports_declareSymbol fun _ => ?_
    split
    all_goals exact reports_pure

theorem reports_assignPlace {target : Ident} (h : target.span.Within source) :
    (res : Resolution) → Reports source s (assignPlace ctx target res)
  | .variable _ | .slot _ _ (.variable _) => reports_ite (reports_reported h fun _ => reports_pure) reports_pure
  | .slot _ _ (.function ..) | .function .. | .imported .. | .intrinsic _ | .ambiguous _ =>
    reports_reported h fun _ => reports_pure
  | .unknown => by
    refine reports_get ?_
    split
    · exact reports_bind reports_declareSymbol fun _ => reports_reported h fun _ => reports_pure
    · exact reports_pure
    · exact reports_reported h fun _ => reports_pure

theorem reports_bindAssign {target : Ident} {value : Bound.Expr} {line : Nat} (h : target.span.Within source) :
    Reports source s (bindAssign ctx target value line) :=
  reports_get (reports_bind (reports_assignPlace h _) fun _ => reports_pure)

theorem reports_checkDivisor {op : BinaryOp} {divisor : Tree.Expr} (h : divisor.span.Within source) :
    Reports source s (checkDivisor ctx op divisor) := reports_ite (reports_report h) reports_pure

theorem reports_checkReachable {diverged warned : Bool} {st : Tree.Stmt} (h : st.span.Within source) :
    Reports source s (checkReachable ctx diverged warned st) := by
  unfold checkReachable
  split
  · exact reports_pure
  · exact reports_ite (reports_reported h fun _ => reports_pure) reports_pure

end

/-! ### Trees -/

section
variable {source : String} {ctx : Context}

mutual

theorem reports_expr (s : State) (inLoop : Bool) : (e : Tree.Expr) → e.Lies source → Reports source s (expr ctx inLoop e)
  | .name _, h => reports_bind reports_resolveRead fun res => reports_nameValue h res
  | .path _ _ _, h => reports_bind (reports_resolvePath h.1 h.2.1) fun res => reports_pathValue h.2.1 res
  | .literal _ _, _ => reports_pure
  | .binary _ left right _, h =>
    reports_bind (reports_checkDivisor h.2.1.span) fun _ => reports_bind (reports_expr _ inLoop left h.1) fun _ =>
      reports_bind (reports_expr _ inLoop right h.2.1) fun _ => reports_pure
  | .unary _ operand _, h => reports_bind (reports_expr s inLoop operand h.1) fun _ => reports_pure
  | .call callee args _, h => by
    unfold expr
    split
    · refine reports_bind reports_resolveRead fun res => reports_bind (reports_checkArity h.2.2) fun _ => ?_
      refine reports_bind (reports_exprs _ inLoop args h.2.1) fun _ => ?_
      split
      · exact reports_pure
      · exact reports_bind (reports_nameValue h.1 res) fun _ => reports_pure
    · refine reports_bind (reports_resolvePath h.1.1 h.1.2.1) fun res => reports_bind (reports_checkArity h.2.2) fun _ => ?_
      refine reports_bind (reports_exprs _ inLoop args h.2.1) fun _ => ?_
      split
      · exact reports_pure
      · exact reports_bind (reports_pathValue h.1.2.1 res) fun _ => reports_pure
    · exact reports_bind (reports_exprs s inLoop args h.2.1) fun _ =>
        reports_bind (reports_expr _ inLoop callee h.1) fun _ => reports_pure
  | .index base position _, h =>
    reports_bind (reports_expr s inLoop base h.1) fun _ =>
      reports_bind (reports_expr _ inLoop position h.2.1) fun _ => reports_pure
  | .list items _, h => reports_bind (reports_exprs s inLoop items h.1) fun _ => reports_pure
  | .branch b, h => reports_branch s inLoop b h
  | .block b, h => reports_bind (reports_inScope fun s' => reports_block s' inLoop b h) fun _ => reports_pure

theorem reports_exprs (s : State) (inLoop : Bool) :
    (es : List Tree.Expr) → Tree.Expr.LiesAll source es → Reports source s (exprs ctx inLoop es)
  | [], _ => reports_pure
  | e :: es, h =>
    reports_bind (reports_expr s inLoop e h.1) fun _ => reports_bind (reports_exprs _ inLoop es h.2) fun _ => reports_pure

theorem reports_branch (s : State) (inLoop : Bool) :
    (b : Tree.Branch) → b.Lies source → Reports source s (branch ctx inLoop b)
  | .mk condition body other _, h =>
    reports_bind (reports_expr s inLoop condition h.1) fun _ =>
      reports_bind (reports_inScope fun s' => reports_block s' inLoop body h.2.1) fun _ =>
        reports_bind (reports_otherwise _ inLoop other h.2.2.1) fun _ => reports_pure

theorem reports_otherwise (s : State) (inLoop : Bool) :
    (o : Tree.Otherwise) → o.Lies source → Reports source s (otherwise ctx inLoop o)
  | .nothing, _ => reports_pure
  | .block b, h => reports_inScope fun s' => reports_block s' inLoop b h
  | .branch b, h => reports_bind (reports_branch s inLoop b h) fun _ => reports_pure

theorem reports_block (s : State) (inLoop : Bool) :
    (b : Tree.Block) → b.Lies source → Reports source s (block ctx inLoop b)
  | .mk body last _, h =>
    reports_bind (reports_stmts s inLoop false false body h.1) fun _ =>
      reports_bind (reports_tail _ inLoop _ last h.2.1) fun _ => reports_pure

theorem reports_stmts (s : State) (inLoop diverged warned : Bool) :
    (ss : List Tree.Stmt) → Tree.Stmt.LiesAll source ss → Reports source s (stmts ctx inLoop diverged warned ss)
  | [], _ => reports_pure
  | st :: ss, h =>
    reports_bind (reports_checkReachable h.1.span) fun _ => reports_bind (reports_stmt _ inLoop st h.1) fun _ =>
      reports_bind (reports_stmts _ inLoop _ _ ss h.2) fun _ => reports_pure

theorem reports_stmt (s : State) (inLoop : Bool) : (st : Tree.Stmt) → st.Lies source → Reports source s (stmt ctx inLoop st)
  | .bind _ _ value _, h => reports_bind (reports_optional s inLoop value h.2.1) fun _ => reports_bindVariable h.1
  | .assign _ value _, h => reports_bind (reports_expr s inLoop value h.2.1) fun _ => reports_bindAssign h.1
  | .setIndex base position value _, h =>
    reports_bind (reports_expr s inLoop base h.1) fun _ => reports_bind (reports_expr _ inLoop position h.2.1) fun _ =>
      reports_bind (reports_expr _ inLoop value h.2.2.1) fun _ => reports_pure
  | .func _ _ _ _, h => reports_get (reports_ite (reports_reported h.1 fun _ => reports_pure) reports_pure)
  | .eval e, h => reports_bind (reports_expr s inLoop e h) fun _ => reports_pure
  | .ret value _, h => reports_bind (reports_optional s inLoop value h.1) fun _ => reports_pure
  | .loop condition body _, h =>
    reports_bind (reports_expr s inLoop condition h.1) fun _ =>
      reports_bind (reports_inScope fun s' => reports_block s' true body h.2.1) fun _ => reports_pure
  | .leave _, h | .next _, h => reports_ite (reports_reported h fun _ => reports_pure) reports_pure

theorem reports_optional (s : State) (inLoop : Bool) :
    (e : Option Tree.Expr) → Tree.Expr.LiesIfAny source e → Reports source s (optional ctx inLoop e)
  | none, _ => reports_pure
  | some e, h => reports_bind (reports_expr s inLoop e h) fun _ => reports_pure

theorem reports_tail (s : State) (inLoop unreachable : Bool) :
    (e : Option Tree.Expr) → Tree.Expr.LiesIfAny source e → Reports source s (tail ctx inLoop unreachable e)
  | none, _ => reports_pure
  | some e, h =>
    reports_ite (reports_reported (Tree.Expr.Lies.span h) fun s' =>
        reports_bind (reports_expr s' inLoop e h) fun _ => reports_pure)
      (reports_bind (reports_expr s inLoop e h) fun _ => reports_pure)

end

end

/-! ### Units -/

section
variable {source : String} {ctx : Context} {s : State}

theorem reports_hoist {ss : List Tree.Stmt} (h : Tree.Stmt.LiesAll source ss) (index : Nat) :
    Reports source s (hoist ctx ss index) := by
  induction ss generalizing s index with
  | nil => exact reports_pure
  | cons st ss ih =>
    cases st with
    | func name params body span =>
      refine reports_get ?_
      split
      · exact reports_bind (reports_report h.1.1) fun _ => ih h.2 index
      · exact reports_bind reports_declareSymbol fun _ => reports_bind (ih h.2 (index + 1)) fun _ => reports_pure
    | _ => exact ih h.2 index

theorem reports_params {ps : List Ident} (h : ∀ p ∈ ps, p.span.Within source) : Reports source s (params ctx ps) := by
  induction ps generalizing s with
  | nil => exact reports_pure
  | cons p ps ih =>
    obtain ⟨hp, hps⟩ := List.forall_mem_cons.mp h
    have declared (s' : State) : Reports source s' (declareLocal p false >>= fun _ => params ctx ps) :=
      reports_bind (reports_declareLocal hp) fun _ => ih hps
    exact reports_get (reports_ite (reports_reported hp declared) (declared s))

/-- A declared function is one of the tree. -/
def Declaration.Lies (source : String) (d : Declaration) : Prop :=
  (Tree.Stmt.func d.name d.params d.body d.span).Lies source

theorem reports_function {d : Declaration} (h : d.Lies source) : Reports source s (function ctx d) := by
  refine reports_modify (fun hs => hs.frame rfl) (reports_bind (reports_params h.2.1) fun _ => ?_)
  refine reports_bind (reports_block _ false d.body h.2.2.1) fun _ => ?_
  exact reports_bind reports_closeScope fun _ => reports_get reports_pure

theorem reports_functions {ds : List Declaration} (h : ∀ d ∈ ds, d.Lies source) : Reports source s (functions ctx ds) := by
  induction ds generalizing s with
  | nil => exact reports_pure
  | cons d ds ih =>
    obtain ⟨hd, hds⟩ := List.forall_mem_cons.mp h
    exact reports_bind (reports_function hd) fun _ => reports_bind (ih hds) fun _ => reports_pure

variable {f : Tree.Fragment}

theorem reports_entry (name : String) (hstmts : Tree.Stmt.LiesAll source f.stmts)
    (htail : Tree.Expr.LiesIfAny source f.tail) : Reports source s (entry ctx f name) := by
  refine reports_modify (fun hs => hs.frame rfl) (reports_bind ?_ fun _ => reports_get reports_pure)
  exact reports_bind (reports_stmts _ false false false f.stmts hstmts) fun _ =>
    reports_bind (reports_tail _ false _ f.tail htail) fun _ => reports_pure

theorem reports_rejectStatements (hstmts : Tree.Stmt.LiesAll source f.stmts) (htail : Tree.Expr.LiesIfAny source f.tail) :
    Reports source s (rejectStatements ctx f) := by
  refine reports_bind (reports_forM fun st hst _ => ?_) fun _ => ?_
  · split
    · exact reports_pure
    · exact reports_report (hstmts.mem hst).span
  · split
    · rename_i e he
      rw [he] at htail
      exact reports_report (Tree.Expr.Lies.span htail)
    · exact reports_pure

theorem reports_unitFunctions {declared : List Declaration} (hstmts : Tree.Stmt.LiesAll source f.stmts)
    (htail : Tree.Expr.LiesIfAny source f.tail) (hdeclared : ∀ d ∈ declared, d.Lies source) :
    Reports source s (unitFunctions ctx f declared) := by
  unfold unitFunctions
  split
  · exact reports_bind (reports_entry _ hstmts htail) fun _ =>
      reports_bind (reports_functions hdeclared) fun _ => reports_pure
  · exact reports_bind (reports_rejectStatements hstmts htail) fun _ => reports_functions hdeclared

/-- What binding a fragment reports is in the text. -/
theorem bind_within (ctx : Context) (hstmts : Tree.Stmt.LiesAll source f.stmts)
    (htail : Tree.Expr.LiesIfAny source f.tail) : ∀ d ∈ (bind ctx f).diagnostics, d.span.Within source := by
  have nothing : State.Lies source ⟨.empty, #[], #[], Frame.function⟩ :=
    ⟨fun d hd => absurd hd (Array.not_mem_empty d), fun v hv => nomatch hv⟩
  have declared : ∀ d ∈ (declarations ctx f).1, d.Lies source :=
    fun d hd => hstmts.mem ((declarations_hoisted ctx f).named d hd)
  have hoisted : (declarations ctx f).2.Lies source := reports_hoist hstmts 0 nothing
  have bound : Reports source (declarations ctx f).2 (unitFunctions ctx f (declarations ctx f).1) :=
    reports_unitFunctions hstmts htail declared
  exact fun d hd => (bound hoisted).1 d (Array.mem_toList_iff.mp (List.mem_mergeSort.mp hd))

end
end Binder

/-- Sorted messages are in the order of their places. -/
theorem Diagnostic.sort_pairwise (ds : List Diagnostic) :
    (Diagnostic.sort ds).Pairwise fun a b => a.span.start ≤ b.span.start := by
  refine (List.pairwise_mergeSort (fun a b c hab hbc => ?_) (fun a b => ?_) ds).imp fun h => of_decide_eq_true h
  · exact decide_eq_true (Nat.le_trans (of_decide_eq_true hab) (of_decide_eq_true hbc))
  · rcases Nat.le_total a.span.start b.span.start with h | h
    · exact Bool.or_eq_true_iff.mpr (.inl (decide_eq_true h))
    · exact Bool.or_eq_true_iff.mpr (.inr (decide_eq_true h))

namespace ScriptUnit

/-- What the compiler has to say of a text, whether it makes a unit of it or not. -/
def messages : Except (List Diagnostic) ScriptUnit → List Diagnostic
  | .error ds => ds
  | .ok u => u.diagnostics

/-- Messages are in the order of their places, and each place is in the text and cuts no character apart. -/
theorem create_messages (kind : UnitKind) (source : String) (refs : ReferenceSet) (imports : List String)
    (earlier : List Declared) :
    (messages (create kind source refs imports earlier)).Pairwise (fun a b => a.span.start ≤ b.span.start) ∧
    ∀ d ∈ messages (create kind source refs imports earlier),
      d.span.start ≤ d.span.stop ∧ d.span.stop ≤ source.utf8ByteSize ∧
      String.Pos.Raw.IsValid source ⟨d.span.start⟩ ∧ String.Pos.Raw.IsValid source ⟨d.span.stop⟩ := by
  suffices (messages (create kind source refs imports earlier)).Pairwise (fun a b => a.span.start ≤ b.span.start) ∧
      ∀ d ∈ messages (create kind source refs imports earlier), d.span.Within source from
    ⟨this.1, fun d hd => ⟨(this.2 d hd).ordered, (this.2 d hd).bounded, (this.2 d hd).start, (this.2 d hd).stop⟩⟩
  unfold create
  dsimp only
  split
  · rename_i errors herrors
    obtain ⟨sorted, within⟩ := Tree.Fragment.parse_errors herrors
    refine ⟨List.pairwise_map.mpr sorted, fun d hd => ?_⟩
    obtain ⟨e, he, rfl⟩ := List.mem_map.mp hd
    exact within e he
  · rename_i tree htree
    obtain ⟨hstmts, htail⟩ := Tree.Fragment.parse_lies htree
    exact ⟨Diagnostic.sort_pairwise _, Binder.bind_within _ hstmts htail⟩

/-- A text is assigned to, a name is missing, and a bracket is left open. -/
def unreadable : String := "\"é\" = 1; let = 2; f(1"

/-- Each of them is reported; the letter in the text takes two bytes. -/
theorem create_messages_unreadable :
    (messages (create (.script 1) unreadable #[] [] [])).map (·.span) = [⟨0, 4⟩, ⟨14, 15⟩, ⟨22, 22⟩] ∧
    ∀ d ∈ messages (create (.script 1) unreadable #[] [] []),
      d.span.start ≤ d.span.stop ∧ d.span.stop ≤ unreadable.utf8ByteSize ∧
      String.Pos.Raw.IsValid unreadable ⟨d.span.start⟩ ∧ String.Pos.Raw.IsValid unreadable ⟨d.span.stop⟩ :=
  ⟨by decide +kernel, (create_messages (.script 1) unreadable #[] [] []).2⟩

end ScriptUnit
end ScriptEngine
