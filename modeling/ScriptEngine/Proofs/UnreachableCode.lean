import Mathlib.Data.List.ReduceOption
import ScriptEngine.Proofs.FlaggedBlocks
import ScriptEngine.Proofs.PackedLibraries

/-! Code that is flagged as unreachable is never executed. In a unit without errors every block of the source has its code
    (`Binder.bind_bodies`), and each warning is about one of these blocks (`Binder.bind_justified`). What it is about, and
    what follows in the block, is behind a statement that control never passes (`Binder.Parts.dead`), so no run of a program
    with the unit executes its code (`Compiles.skips_flagged`). -/

namespace ScriptEngine
open Lowering

theorem reduceOption_cons {α : Type} (first : Option α) (rest : List (Option α)) :
    (first :: rest).reduceOption = first.toList ++ rest.reduceOption := by
  rw [← List.singleton_append, List.reduceOption_append, List.reduceOption_singleton]

theorem exists_getElem?_of_forall₂ {α β : Type} {R : α → β → Prop} {xs : List α} {ys : List β} (h : List.Forall₂ R xs ys)
    {i : Nat} {x : α} (hx : xs[i]? = some x) : ∃ y, ys[i]? = some y ∧ R x y := by
  induction h generalizing i with
  | nil => cases hx
  | cons first _ ih =>
    cases i with
    | zero =>
      cases hx
      exact ⟨_, rfl, first⟩
    | succ i => exact ih hx

theorem mem_zip_of_getElem? {α β : Type} {xs : List α} {ys : List β} {i : Nat} {x : α} {y : β} (hx : xs[i]? = some x)
    (hy : ys[i]? = some y) : (x, y) ∈ xs.zip ys :=
  List.mem_of_getElem? (List.getElem?_zip_eq_some.mpr ⟨hx, hy⟩)

namespace Tree

/-- The body of the function that a statement declares. -/
def Stmt.body? : Stmt → Option Block
  | .func _ _ body _ => some body
  | _ => none

/-- The bodies of the functions of a unit: the declared ones, then the top level of a script. -/
def Fragment.bodies (f : Fragment) (unit : UnitKind) : List Block :=
  f.stmts.filterMap Stmt.body? ++ if unit.isScript then [.mk f.stmts f.tail f.span] else []

end Tree

namespace Binder

section
variable {ctx : Context} {s : State}

/-! ### Blocks of functions -/

/-- The blocks of a function come from those of a body in the source, wherever its code stands. -/
def HasBlocks (ctx : Context) (body : Tree.Block) (g : Bound.Func) : Prop :=
  ∀ pc, Mirrors ctx (Tree.Blocks.block body) (Blocks.block pc g.body)

theorem adds_functionBlocks (ctx : Context) (s : State) (d : Declaration) :
    Adds s (function ctx d) fun _ g => HasBlocks ctx d.body g := by
  obtain ⟨before, known⟩ := adds_functionBody ctx s d fun s' inner => yields_blocks s' (rooted_inner inner) false d.body
  exact ⟨before, fun last hlast clean => (known last hlast clean).2⟩

theorem adds_entryBlocks (record : ctx.unit.record?.isSome = true) (s : State) (f : Tree.Fragment) (name : String) :
    Adds s (entry ctx f name) fun _ main => HasBlocks ctx (.mk f.stmts f.tail f.span) main := by
  have bound := yields_blocks { s with frame := Frame.entry } (fun _ => record) false (.mk f.stmts f.tail f.span)
  exact ⟨(s.before_frame Frame.entry).trans bound.1.toBefore, bound.2⟩

/-- In a unit without errors the blocks of each function come from those of its body. -/
theorem bind_bodies (record : ctx.unit.isScript = true → ctx.unit.record?.isSome = true) {f : Tree.Fragment}
    (clean : ∀ d ∈ (bind ctx f).diagnostics, d.isError = false) :
    List.Forall₂ (HasBlocks ctx) (f.bodies ctx.unit) (bind ctx f).program.functions := by
  have unblamed := unitFunctions_unblamed clean
  have hbodies : f.stmts.filterMap Tree.Stmt.body? = (declarations ctx f).1.map (·.body) := by
    rw [(declarations_declares clean).all, List.map_filterMap]
    refine List.filterMap_congr fun st _ => ?_
    cases st <;> rfl
  show List.Forall₂ _ _ ((unitFunctions ctx f (declarations ctx f).1).run (declarations ctx f).2).1
  rw [Tree.Fragment.bodies, hbodies]
  cases hscript : ctx.unit.isScript with
  | true =>
    obtain ⟨-, made⟩ := adds_unitFunctions (adds_entryBlocks (record hscript) (declarations ctx f).2 f _)
      (adds_functionBlocks ctx) (declarations ctx f).1 hscript
    obtain ⟨first, main, hfunctions, each, hmain⟩ := made _ (.refl _) unblamed
    rw [hfunctions]
    exact List.rel_append (List.forall₂_map_left_iff.mpr each) (.cons hmain .nil)
  | false =>
    have hname : ctx.unit.entryName? = none := if_neg (Bool.eq_false_iff.mp hscript)
    simp only [unitFunctions, hname] at unblamed ⊢
    obtain ⟨-, made⟩ := adds_functions (adds_functionBlocks ctx) ((rejectStatements ctx f).run (declarations ctx f).2).2
      (declarations ctx f).1
    rw [if_neg Bool.false_ne_true, List.append_nil]
    exact List.forall₂_map_left_iff.mpr (made _ (.refl _) unblamed)

/-! ### Warnings of units -/

variable {all : List Tree.Block} {f : Tree.Fragment}

theorem warns_hoist (ss : List Tree.Stmt) (index : Nat) : Warns (Justified all) (hoist ctx ss index) := by
  induction ss generalizing index with
  | nil => exact warns_pure
  | cons st ss ih =>
    cases st with
    | func name params body span =>
      refine warns_get fun s => ?_
      split
      · exact warns_reported nofun nofun (ih index)
      · exact warns_bind warns_declareSymbol fun _ => warns_bind (ih (index + 1)) fun _ => warns_pure
    | _ => exact ih index

theorem warns_params (ps : List Ident) : Warns (Justified all) (params ctx ps) := by
  induction ps with
  | nil => exact warns_pure
  | cons p ps ih =>
    have declared : Warns (Justified all) (declareLocal p false >>= fun _ => params ctx ps) :=
      warns_bind warns_declareLocal fun _ => ih
    exact warns_get fun _ => warns_ite (warns_reported nofun nofun declared) declared

theorem warns_function {d : Declaration} (h : ∀ t ∈ Tree.Blocks.block d.body, t ∈ all) :
    Warns (Justified all) (function ctx d) :=
  warns_bind (warns_modify fun _ => rfl) fun _ => warns_bind (warns_params d.params) fun _ =>
    warns_bind (warns_block false d.body h) fun _ => warns_bind warns_closeScope fun _ => warns_get fun _ => warns_pure

theorem warns_functions {ds : List Declaration} (h : ∀ d ∈ ds, ∀ t ∈ Tree.Blocks.block d.body, t ∈ all) :
    Warns (Justified all) (functions ctx ds) := by
  induction ds with
  | nil => exact warns_pure
  | cons d ds ih =>
    obtain ⟨hd, hds⟩ := List.forall_mem_cons.mp h
    exact warns_bind (warns_function hd) fun _ => warns_bind (ih hds) fun _ => warns_pure

theorem warns_entry (name : String) (h : ∀ t ∈ Tree.Blocks.block (.mk f.stmts f.tail f.span), t ∈ all) :
    Warns (Justified all) (entry ctx f name) :=
  warns_bind (warns_modify fun _ => rfl) fun _ => warns_bind (warns_block false _ h) fun _ => warns_get fun _ => warns_pure

theorem warns_rejectStatements : Warns (Justified all) (rejectStatements ctx f) := by
  refine warns_bind (warns_forM fun st => ?_) fun _ => ?_
  · split
    · exact warns_pure
    · exact warns_other nofun nofun
  · split
    · exact warns_other nofun nofun
    · exact warns_pure

theorem warns_unitFunctions {declared : List Declaration} (hdeclared : ∀ d ∈ declared, d.body ∈ f.bodies ctx.unit) :
    Warns (Justified ((f.bodies ctx.unit).flatMap Tree.Blocks.block)) (unitFunctions ctx f declared) := by
  have bodies : Warns (Justified ((f.bodies ctx.unit).flatMap Tree.Blocks.block)) (functions ctx declared) :=
    warns_functions fun d hd t ht => List.mem_flatMap.mpr ⟨d.body, hdeclared d hd, ht⟩
  unfold unitFunctions
  split
  · rename_i name hname
    have hscript : ctx.unit.isScript = true := of_not_not fun h => by
      rw [UnitKind.entryName?, if_neg h] at hname
      cases hname
    have top : .mk f.stmts f.tail f.span ∈ f.bodies ctx.unit := by
      rw [Tree.Fragment.bodies, if_pos hscript]
      exact List.mem_append_right _ (.head _)
    refine warns_bind (warns_entry name fun t ht => List.mem_flatMap.mpr ⟨_, top, ht⟩) fun _ => ?_
    exact warns_bind bodies fun _ => warns_pure
  · exact warns_bind warns_rejectStatements fun _ => bodies

/-- Whatever binding a fragment flags is unreachable, or a division by zero, in a block of one of its functions. -/
theorem bind_justified (ctx : Context) (f : Tree.Fragment) :
    ∀ d ∈ (bind ctx f).diagnostics, Justified ((f.bodies ctx.unit).flatMap Tree.Blocks.block) d := by
  have declared (d : Declaration) (hd : d ∈ (declarations ctx f).1) : d.body ∈ f.bodies ctx.unit :=
    List.mem_append_left _ (List.mem_filterMap.mpr ⟨_, (declarations_hoisted ctx f).named d hd, rfl⟩)
  intro d hd
  rcases warns_unitFunctions declared _ d (Array.mem_toList_iff.mp (List.mem_mergeSort.mp hd)) with hd | justified
  · exact (warns_hoist f.stmts 0 _ d hd).elim (fun hd => absurd hd (Array.not_mem_empty d)) id
  · exact justified

/-! ### Items of a block -/

/-- What binding gave for a statement of a block. -/
def BoundStmt (ctx : Context) (st : Tree.Stmt) (piece : Option Bound.Stmt) : Prop :=
  ∃ inLoop s, piece = ((stmt ctx inLoop st).run s).1

/-- What binding gave for the value of a block. -/
def BoundTail (ctx : Context) (value : Option Tree.Expr) (last : Bound.Tail) : Prop :=
  ∃ inLoop unreachable s, last = ((tail ctx inLoop unreachable value).run s).1

/-- A bound block consists of what binding gave for each statement, which may be nothing, and for the value. -/
structure Parts (ctx : Context) (t : Tree.Block) (b : Bound.Block) (pieces : List (Option Bound.Stmt)) (last : Bound.Tail) :
    Prop where
  block : b = .mk pieces.reduceOption last
  stmts : List.Forall₂ (BoundStmt ctx) t.stmts pieces
  tail : BoundTail ctx t.tail last

theorem stmts_parts (inLoop diverged warned : Bool) (ss : List Tree.Stmt) (s : State) : ∃ pieces,
    ((stmts ctx inLoop diverged warned ss).run s).1.1 = pieces.reduceOption ∧ List.Forall₂ (BoundStmt ctx) ss pieces := by
  induction ss generalizing s diverged warned with
  | nil => exact ⟨[], rfl, .nil⟩
  | cons st ss ih =>
    let s₁ := ((checkReachable ctx diverged warned st).run s).2
    let piece := (stmt ctx inLoop st).run s₁
    obtain ⟨pieces, hpieces, each⟩ := ih (diverged || st.diverges) ((checkReachable ctx diverged warned st).run s).1 piece.2
    refine ⟨piece.1 :: pieces, ?_, .cons ⟨inLoop, s₁, rfl⟩ each⟩
    rw [reduceOption_cons]
    exact congrArg (piece.1.toList ++ ·) hpieces

theorem BoundFrom.parts {t : Tree.Block} {b : Bound.Block} (h : BoundFrom ctx t b) :
    ∃ pieces last, Parts ctx t b pieces last := by
  obtain ⟨inLoop, s, rfl⟩ := h.made
  obtain ⟨body, value, span⟩ := t
  obtain ⟨pieces, hpieces, each⟩ := stmts_parts inLoop false false body s
  exact ⟨pieces, _, congrArg (Bound.Block.mk · _) hpieces, each, inLoop, _, _, rfl⟩

/-- Control does not pass what is bound from a statement that it does not pass. -/
theorem BoundStmt.diverges {st : Tree.Stmt} {piece : Option Bound.Stmt} (h : BoundStmt ctx st piece)
    (hdiverges : st.diverges = true) : ∃ b, piece = some b ∧ b.diverges = true := by
  obtain ⟨inLoop, s, rfl⟩ := h
  cases st with
  | ret value span => exact ⟨_, rfl, rfl⟩
  | leave span | next span => cases inLoop <;> exact ⟨_, rfl, rfl⟩
  | _ => cases hdiverges

theorem any_diverges {ss : List Tree.Stmt} {pieces : List (Option Bound.Stmt)} (h : List.Forall₂ (BoundStmt ctx) ss pieces)
    (hany : ss.any Tree.Stmt.diverges = true) : pieces.reduceOption.any Bound.Stmt.diverges = true := by
  induction h with
  | nil => cases hany
  | @cons st piece ss pieces hfirst _ ih =>
    rw [reduceOption_cons, List.any_append, Bool.or_eq_true]
    rcases Bool.or_eq_true_iff.mp hany with hst | hrest
    · obtain ⟨b, rfl, hb⟩ := hfirst.diverges hst
      exact .inl (by rw [Option.toList_some, List.any_cons, hb, Bool.true_or])
    · exact .inr (ih hrest)

end
end Binder

/-! ### What is flagged -/

namespace Tree

/-- What is flagged in a block is behind a statement that control never passes. -/
theorem unreachable?_diverges {last : Option Expr} {ss : List Stmt} {k m : Nat} {diverged : Bool} {span : Span}
    (h : unreachable? k diverged last ss = some (m, span)) :
    k ≤ m ∧ (diverged = true ∨ (ss.take (m - k)).any Stmt.diverges = true) := by
  induction ss generalizing k diverged with
  | nil =>
    unfold unreachable? at h
    split at h
    · obtain ⟨e, -, heq⟩ := Option.map_eq_some_iff.mp h
      cases heq
      exact ⟨Nat.le_refl _, .inl ‹_›⟩
    · cases h
  | cons s ss ih =>
    unfold unreachable? at h
    split at h
    · rename_i hreport
      cases h
      exact ⟨Nat.le_refl _, .inl (Bool.and_eq_true_iff.mp hreport).1⟩
    · obtain ⟨hle, hdiverges⟩ := ih h
      refine ⟨Nat.le_of_succ_le hle, ?_⟩
      have htake : m - k = m - (k + 1) + 1 := by omega
      rw [htake, List.take_succ_cons, List.any_cons, Bool.or_eq_true]
      rcases hdiverges with hdiverges | hrest
      · exact (Bool.or_eq_true_iff.mp hdiverges).imp_right .inl
      · exact .inr (.inr hrest)

theorem Block.unreachable?_diverges {t : Block} {k : Nat} {span : Span} (h : t.unreachable? = some (k, span)) :
    (t.stmts.take k).any Stmt.diverges = true := by
  obtain ⟨body, last, blockSpan⟩ := t
  exact (Tree.unreachable?_diverges h).2.resolve_left Bool.false_ne_true

end Tree

/-- The code of what is flagged in a block, and of all that follows in it, is dead. -/
theorem Binder.Parts.dead {ctx : Context} {t : Tree.Block} {b : BlockAt} {pieces : List (Option Bound.Stmt)}
    {last : Bound.Tail} (parts : Parts ctx t b.block pieces last) {k : Nat} {span : Span}
    (flagged : t.unreachable? = some (k, span)) {pc : Nat} (hle : b.pc + Size.stmts (pieces.take k).reduceOption ≤ pc)
    (hlt : pc < b.stop) : b.Dead pc := by
  have diverges := any_diverges (List.forall₂_take k parts.stmts) (Tree.Block.unreachable?_diverges flagged)
  have hstmts : b.block.stmts = (pieces.take k).reduceOption ++ (pieces.drop k).reduceOption := by
    rw [parts.block, ← List.reduceOption_append, List.take_append_drop]
    rfl
  refine ⟨?_, ?_, hlt⟩
  · rw [hstmts, List.any_append, diverges, Bool.true_or]
  · rw [hstmts, Bound.Stmt.kept_append diverges]
    exact Nat.le_trans (Nat.add_le_add_left (Size.kept_le _) _) hle

/-! ### Compiled sources -/

/-- The notice of each message can be told from its code here. -/
theorem Notice.code_unreachable {notice : Notice} (h : notice.code = "prime.unreachableCode") : notice = .unreachableCode := by
  cases notice with
  | unreachableCode => rfl
  | _ => simp [code] at h

/-- The code that a source text was compiled to: as a submission, behind whatever was submitted before, or as a library.
    All lengths in its image can be written in 32 bits. -/
inductive Compiles (source : String) : ScriptUnit → CodeModule → Prop where
  | submission {c : Chain} {refs : ReferenceSet} {accepted : Compiled} (compiled : c.compile source refs = .ok accepted)
      (encodes : accepted.unit.Encodes) : Compiles source accepted.unit accepted.executable.code
  | library {name location : String} {u : ScriptUnit} {bytes : List UInt8} {l : Library}
      (created : ScriptUnit.create (.library name) source #[] [] [] = .ok u) (built : Library.build name source = .ok bytes)
      (encodes : u.Encodes) (loaded : Library.ofBytes location bytes = .ok l) : Compiles source u l.code

/-- A block of the source in which something is flagged at a place, and its code. -/
structure Flagged (source : String) (u : ScriptUnit) (code : CodeModule) (span : Span) where
  ctx : Binder.Context
  tree : Tree.Fragment
  parsed : Tree.Fragment.parse source.toList = .ok tree
  bound : u.output = Binder.bind ctx tree
  /-- The position of the function that the block is in. -/
  index : Nat
  body : Tree.Block
  function : Bound.Func
  routine : Routine
  bodyAt : (tree.bodies u.kind)[index]? = some body
  functionAt : u.program.functions[index]? = some function
  routineAt : code.functions[index]? = some routine
  block : Tree.Block
  place : BlockAt
  paired : (block, place) ∈ (Tree.Blocks.block body).zip (Blocks.function u.program index function)
  stands : ∃ loop, Stands.block routine loop place.pc place.block
  /-- What is flagged comes behind so many statements of the block. -/
  position : Nat
  flagged : block.unreachable? = some (position, span)
  pieces : List (Option Bound.Stmt)
  last : Bound.Tail
  parts : Binder.Parts ctx block place.block pieces last

namespace Flagged

variable {source : String} {u : ScriptUnit} {code : CodeModule} {span : Span}

/-- Where the code of what is flagged begins. -/
def start (f : Flagged source u code span) : Nat := f.place.pc + Size.stmts (f.pieces.take f.position).reduceOption

/-- Where the code of the block ends. -/
def stop (f : Flagged source u code span) : Nat := f.place.stop

/-- There is such code, if only that of the value of the block. -/
theorem start_lt_stop (f : Flagged source u code span) : f.start < f.stop := by
  have hsplit : Size.stmts f.pieces.reduceOption =
      Size.stmts (f.pieces.take f.position).reduceOption + Size.stmts (f.pieces.drop f.position).reduceOption := by
    rw [← Size.stmts_append, ← List.reduceOption_append, List.take_append_drop]
  have htail := Size.tail_pos f.last
  have hstop : f.stop = f.place.pc + (Size.stmts f.pieces.reduceOption + Size.tail f.last) := by
    rw [stop, BlockAt.stop, f.parts.block, Size.block]
  rw [start]
  omega

end Flagged

namespace Compiles

variable {source : String} {u : ScriptUnit} {code : CodeModule}

/-- A compiled source was read and bound without errors. -/
theorem created (h : Compiles source u code) : ∃ kind refs imports earlier, (kind.isScript = true → kind.record?.isSome = true) ∧
    ScriptUnit.create kind source refs imports earlier = .ok u ∧ u.hasErrors = false := by
  cases h with
  | submission compiled =>
    obtain ⟨hu, clean, -⟩ := Chain.compile_eq_ok compiled
    exact ⟨_, _, _, _, fun _ => rfl, hu, clean⟩
  | @library name location u bytes l hu built => exact ⟨.library name, _, _, _, nofun, hu, Library.build_clean built hu⟩

/-- Its code was emitted and loaded. -/
theorem loaded (h : Compiles source u code) :
    ∃ image refs, Emitted u.kind u.program image ∧ CodeModule.Loaded image refs code := by
  cases h with
  | submission compiled encodes =>
    obtain ⟨image, emitted, loaded⟩ := (Chain.compile_follows compiled encodes).1.loaded
    exact ⟨image, _, emitted, loaded⟩
  | @library name location u bytes l hu built encodes loads =>
    have built : Library.BuiltFrom (· = u) bytes := by
      refine ⟨name, source, built, fun u' hu' => ?_⟩
      obtain rfl := Except.ok.inj (hu.symm.trans hu')
      exact ⟨encodes, rfl⟩
    obtain ⟨_, holds, rfl⟩ := Library.ofBytes_holds built loads
    obtain ⟨image, emitted, loaded⟩ := holds.loaded
    exact ⟨image, _, emitted, loaded⟩

/-- Its functions have the blocks of the source, and warnings are about these. -/
theorem bound (h : Compiles source u code) : ∃ ctx tree, Tree.Fragment.parse source.toList = .ok tree ∧
    u.output = Binder.bind ctx tree ∧ List.Forall₂ (Binder.HasBlocks ctx) (tree.bodies u.kind) u.program.functions ∧
    ∀ d ∈ u.diagnostics, Binder.Justified ((tree.bodies u.kind).flatMap Tree.Blocks.block) d := by
  obtain ⟨kind, refs, imports, earlier, record, hu, clean⟩ := h.created
  obtain ⟨rfl, tree, hparse, hbound⟩ := ScriptUnit.create_eq_ok hu
  refine ⟨_, tree, hparse, hbound, ?_, ?_⟩
  · rw [show u.program = u.output.program from rfl, hbound]
    refine Binder.bind_bodies record fun d hd => ?_
    rw [← hbound] at hd
    exact Bool.not_eq_true _ ▸ List.any_eq_false.mp clean d hd
  · rw [show u.diagnostics = u.output.diagnostics from rfl, hbound]
    exact Binder.bind_justified _ tree

/-- Every function has its code. -/
theorem stands (h : Compiles source u code) : code.functions.size = u.program.functions.length ∧
    ∀ {i : Nat} {f : Bound.Func} {r : Routine}, u.program.functions[i]? = some f → code.functions[i]? = some r →
      Stands.function r u.program i f := by
  obtain ⟨image, refs, emitted, loaded⟩ := h.loaded
  rw [loaded.functions]
  exact ⟨emitted.stands.size, emitted.stands.function⟩

/-- So the function that comes from a body of the source has its code. -/
theorem function (h : Compiles source u code) {ctx : Binder.Context} {all : List Tree.Block}
    (bodies : List.Forall₂ (Binder.HasBlocks ctx) all u.program.functions) {i : Nat} {body : Tree.Block}
    (hi : all[i]? = some body) : ∃ f r, u.program.functions[i]? = some f ∧ code.functions[i]? = some r ∧
      Binder.HasBlocks ctx body f ∧ Stands.function r u.program i f := by
  obtain ⟨size, stands⟩ := h.stands
  obtain ⟨f, hf, blocks⟩ := exists_getElem?_of_forall₂ bodies hi
  have hlt : i < code.functions.size := size ▸ (List.getElem?_eq_some_iff.mp hf).1
  have hr : code.functions[i]? = some code.functions[i] := Array.getElem?_eq_getElem hlt
  exact ⟨f, _, hf, hr, blocks, stands hf hr⟩

/-- Whatever is flagged in a compiled source is so in one of its blocks, which has its code. -/
theorem flagged (h : Compiles source u code) {d : Diagnostic} (hd : d ∈ u.diagnostics) (hnotice : d.notice = .unreachableCode) :
    Nonempty (Flagged source u code d.span) := by
  obtain ⟨ctx, tree, hparse, hbound, bodies, justified⟩ := h.bound
  obtain ⟨t, ht, k, hflagged⟩ := (justified d hd).unreachable hnotice
  -- The function that the block is in, and the bound block that comes from this one.
  obtain ⟨body, hbody, ht⟩ := List.mem_flatMap.mp ht
  obtain ⟨i, hi⟩ := List.mem_iff_getElem?.mp hbody
  obtain ⟨f, r, hf, hr, blocks, stands⟩ := h.function bodies hi
  obtain ⟨j, hj⟩ := List.mem_iff_getElem?.mp ht
  obtain ⟨b, hb, from'⟩ := exists_getElem?_of_forall₂ (blocks (Size.opening u.program i)) hj
  obtain ⟨pieces, last, parts⟩ := from'.parts
  have hstands := (function_contained stands).stands b (List.mem_of_getElem? hb)
  exact ⟨⟨ctx, tree, hparse, hbound, i, body, f, r, hi, hf, hr, t, b, mem_zip_of_getElem? hj hb, hstands, k, hflagged,
    pieces, last, parts⟩⟩

/-- The source is accepted as a first submission, with one message, which has this code and this place. -/
def noting (source code : String) (span : Span) : Bool :=
  ((Chain.start []).compile source #[]).toOption.any fun accepted => decide accepted.unit.Encodes &&
    decide (accepted.unit.diagnostics.map (fun d => (d.notice.code, d.span)) = [(code, span)])

theorem of_noting {source code : String} {span : Span} (h : noting source code span = true) : ∃ accepted d,
    (Chain.start []).compile source #[] = .ok accepted ∧ accepted.unit.Encodes ∧ accepted.unit.diagnostics = [d] ∧
      d.notice.code = code ∧ d.span = span := by
  obtain ⟨accepted, hmade, known⟩ := (Option.any_eq_true ..).mp h
  obtain ⟨encodes, hcodes⟩ := Bool.and_eq_true_iff.mp known
  obtain ⟨d, hd, heq⟩ := List.map_eq_singleton_iff.mp (of_decide_eq_true hcodes)
  obtain ⟨hcode, hspan⟩ := Prod.mk.inj heq
  exact ⟨accepted, d, except_toOption_eq_some.mp hmade, of_decide_eq_true encodes, hd, hcode, hspan⟩

/-- What is flagged as unreachable is in a block of the source, and no run of a program with the compiled code executes an
    instruction of it or of anything that follows it in this block. -/
theorem skips_flagged (h : Compiles source u code) {d : Diagnostic} (hd : d ∈ u.diagnostics)
    (hcode : d.notice.code = "prime.unreachableCode") : Nonempty (Flagged source u code d.span) ∧
    ∀ f : Flagged source u code d.span, f.start < f.stop ∧ ∀ (program : Program) (home : Home),
      program.module? home = some code → ∀ pc, f.start ≤ pc → pc < f.stop → program.Skips ⟨home, f.index⟩ pc := by
  refine ⟨h.flagged hd (Notice.code_unreachable hcode), fun f => ⟨f.start_lt_stop, fun program home hcode pc hle hlt => ?_⟩⟩
  have dead : Dead (Blocks.function u.program f.index f.function) pc :=
    ⟨f.place, (List.of_mem_zip f.paired).2, f.parts.dead f.flagged hle hlt⟩
  exact Machine.skips_of_dead hcode f.routineAt (h.stands.2 f.functionAt f.routineAt) dead

/-- A loop with code behind a jump out of it. -/
def leavingSource : String :=
  "fn f(n) { let mut m = n; while m < 9 { if m > 4 { break; m = 0; m } m = m + 1; } m * 2 } f(1)"

/-- What follows the jump is flagged, and no run executes it. -/
theorem skips_flagged_leaving : ∃ accepted d, (Chain.start []).compile leavingSource #[] = .ok accepted ∧
    accepted.unit.Encodes ∧ accepted.unit.diagnostics = [d] ∧ d.notice.code = "prime.unreachableCode" ∧ d.span = ⟨57, 63⟩ ∧
    Nonempty (Flagged leavingSource accepted.unit accepted.executable.code d.span) ∧
    ∀ f : Flagged leavingSource accepted.unit accepted.executable.code d.span, f.start < f.stop ∧
      ∀ pc, f.start ≤ pc → pc < f.stop → (Program.mk #[] #[accepted.executable.code]).Skips ⟨.fragment 0, f.index⟩ pc := by
  obtain ⟨accepted, d, compiled, encodes, hd, hcode, hspan⟩ := @of_noting leavingSource "prime.unreachableCode" ⟨57, 63⟩
    (by decide +kernel)
  obtain ⟨found, skips⟩ := (submission compiled encodes).skips_flagged (hd ▸ .head _) hcode
  exact ⟨accepted, d, compiled, encodes, hd, hcode, hspan, found, fun f => ⟨(skips f).1, (skips f).2 _ _ rfl⟩⟩

end Compiles
end ScriptEngine
