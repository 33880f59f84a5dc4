import Mathlib.Data.List.Forall2
import ScriptEngine.Proofs.Scoping

/-! What the messages of binding are worth. If no error is reported, every assignment in the bound unit goes to
    a place that may be assigned, every call of something known has the right number of arguments (`Obeys`),
    and what the top level fixes is declared in the order of the slots (`TopLevel`). -/

namespace ScriptEngine

namespace Bound

/-- What is asked of the stores and the calls in a tree. -/
structure Rules where
  store : Place → Prop
  call : Expr → Nat → Prop
  intrinsic : Intrinsic → Nat → Prop

/-- The same rules for calls, while anything may be assigned. -/
def Rules.lax (rules : Rules) : Rules := { rules with store := fun _ => True }

namespace Obeys

mutual

/-- The stores and the calls in an expression follow the rules. -/
def expr (rules : Rules) : Expr → Prop
  | .unit | .int _ | .float _ | .bool _ | .text _ | .load _ | .function _ | .imported _ => True
  | .both left right | .either left right | .operate _ left right => expr rules left ∧ expr rules right
  | .unary _ operand => expr rules operand
  | .call callee args => rules.call callee args.length ∧ expr rules callee ∧ exprs rules args
  | .intrinsic i args => rules.intrinsic i args.length ∧ exprs rules args
  | .index base position => expr rules base ∧ expr rules position
  | .list items => exprs rules items
  | .branch condition body otherwise => expr rules condition ∧ block rules body ∧ block rules otherwise
  | .block b => block rules b

def exprs (rules : Rules) : List Expr → Prop
  | [] => True
  | e :: es => expr rules e ∧ exprs rules es

def stmt (rules : Rules) : Stmt → Prop
  | .store place value _ => rules.store place ∧ expr rules value
  | .setIndex base position value _ => expr rules base ∧ expr rules position ∧ expr rules value
  | .eval e _ => expr rules e
  | .ret value _ => expr rules value
  | .loop condition body _ => expr rules condition ∧ block rules body
  | .leave _ | .next _ => True

def stmts (rules : Rules) : List Stmt → Prop
  | [] => True
  | s :: ss => stmt rules s ∧ stmts rules ss

def tail (rules : Rules) : Tail → Prop
  | .nothing => True
  | .value e _ => expr rules e

def block (rules : Rules) : Block → Prop
  | .mk body last => stmts rules body ∧ tail rules last

end

section
variable {rules : Rules}

mutual

/-- What follows the rules follows them for calls alone. -/
theorem expr_lax : (e : Expr) → expr rules e → expr rules.lax e
  | .unit, _ | .int _, _ | .float _, _ | .bool _, _ | .text _, _ | .load _, _ | .function _, _ | .imported _, _ => trivial
  | .both left right, h | .either left right, h | .operate _ left right, h => ⟨expr_lax left h.1, expr_lax right h.2⟩
  | .unary _ operand, h => expr_lax operand h
  | .call callee args, h => ⟨h.1, expr_lax callee h.2.1, exprs_lax args h.2.2⟩
  | .intrinsic _ args, h => ⟨h.1, exprs_lax args h.2⟩
  | .index base position, h => ⟨expr_lax base h.1, expr_lax position h.2⟩
  | .list items, h => exprs_lax items h
  | .branch condition body otherwise, h => ⟨expr_lax condition h.1, block_lax body h.2.1, block_lax otherwise h.2.2⟩
  | .block b, h => block_lax b h

theorem exprs_lax : (es : List Expr) → exprs rules es → exprs rules.lax es
  | [], _ => trivial
  | e :: es, h => ⟨expr_lax e h.1, exprs_lax es h.2⟩

theorem stmt_lax : (s : Stmt) → stmt rules s → stmt rules.lax s
  | .store _ value _, h => ⟨trivial, expr_lax value h.2⟩
  | .setIndex base position value _, h => ⟨expr_lax base h.1, expr_lax position h.2.1, expr_lax value h.2.2⟩
  | .eval e _, h | .ret e _, h => expr_lax e h
  | .loop condition body _, h => ⟨expr_lax condition h.1, block_lax body h.2⟩
  | .leave _, _ | .next _, _ => trivial

theorem stmts_lax : (ss : List Stmt) → stmts rules ss → stmts rules.lax ss
  | [], _ => trivial
  | s :: ss, h => ⟨stmt_lax s h.1, stmts_lax ss h.2⟩

theorem tail_lax : (t : Tail) → tail rules t → tail rules.lax t
  | .nothing, _ => trivial
  | .value e _, h => expr_lax e h

theorem block_lax : (b : Block) → block rules b → block rules.lax b
  | .mk body last, h => ⟨stmts_lax body h.1, tail_lax last h.2⟩

end
end

theorem stmts_append {rules : Rules} {first : Option Stmt} {rest : List Stmt} (hfirst : ∀ s ∈ first, stmt rules s)
    (hrest : stmts rules rest) : stmts rules (first.toList ++ rest) := by
  cases first with
  | none => exact hrest
  | some s => exact ⟨hfirst s rfl, hrest⟩

end Obeys

/-- The statements of a top level follow the rules, apart from those that give a fixed name its value: they come
    in the order of the slots, from `least` on. -/
inductive TopLevel (rules : Rules) (fixed : Nat → Nat → Prop) : Nat → List Stmt → Prop where
  | nil (least : Nat) : TopLevel rules fixed least []
  | plain {least : Nat} {s : Stmt} {ss : List Stmt} (obeys : Obeys.stmt rules s) (rest : TopLevel rules fixed least ss) :
      TopLevel rules fixed least (s :: ss)
  | declares {least record slot line : Nat} {value : Expr} {ss : List Stmt} (own : fixed record slot)
      (fresh : least ≤ slot) (obeys : Obeys.expr rules value) (rest : TopLevel rules fixed (slot + 1) ss) :
      TopLevel rules fixed least (.store (.slot record slot) value line :: ss)

theorem TopLevel.mono {rules : Rules} {fixed : Nat → Nat → Prop} {least least' : Nat} {ss : List Stmt}
    (h : TopLevel rules fixed least ss) (hle : least' ≤ least) : TopLevel rules fixed least' ss := by
  induction h generalizing least' with
  | nil least => exact .nil least'
  | plain obeys _ ih => exact .plain obeys (ih hle)
  | declares own fresh obeys rest _ => exact .declares own (Nat.le_trans hle fresh) obeys rest

theorem TopLevel.lax {rules : Rules} {fixed : Nat → Nat → Prop} {least : Nat} {ss : List Stmt}
    (h : TopLevel rules fixed least ss) : Obeys.stmts rules.lax ss := by
  induction h with
  | nil => trivial
  | plain obeys _ ih => exact ⟨Obeys.stmt_lax _ obeys, ih⟩
  | declares _ _ obeys _ ih => exact ⟨⟨trivial, Obeys.expr_lax _ obeys⟩, ih⟩

end Bound

namespace Symbols

/-- One table goes on with another one, by variables only. -/
def Continues (s s' : Symbols) : Prop := ∃ added, s'.entries.toList = s.entries.toList ++ added ∧
  ∀ symbol ∈ added, ∃ mutable, symbol.kind = .variable mutable

variable {s s' s'' : Symbols}

theorem Continues.refl (s : Symbols) : s.Continues s := ⟨[], (List.append_nil _).symm, fun _ h => nomatch h⟩

theorem Continues.trans (h : s.Continues s') (h' : s'.Continues s'') : s.Continues s'' := by
  obtain ⟨added, heq, hadded⟩ := h
  obtain ⟨added', heq', hadded'⟩ := h'
  refine ⟨added ++ added', by rw [heq', heq, List.append_assoc], fun symbol hsymbol => ?_⟩
  exact (List.mem_append.mp hsymbol).elim (hadded symbol) (hadded' symbol)

theorem continues_declare (s : Symbols) (name : String) (mutable : Bool) (span : Span) :
    s.Continues (s.declare name (.variable mutable) span) := by
  refine ⟨[_], Array.toList_push, fun symbol hsymbol => ?_⟩
  rw [List.mem_singleton.mp hsymbol]
  exact ⟨mutable, rfl⟩

theorem Continues.mem (h : s.Continues s') {symbol : Symbol} (hmem : symbol ∈ s.entries) : symbol ∈ s'.entries := by
  obtain ⟨added, heq, -⟩ := h
  rw [← Array.mem_toList_iff, heq]
  exact List.mem_append_left _ (Array.mem_toList_iff.mpr hmem)

/-- What the names of a table stand for, in slot order. -/
def kinds (s : Symbols) : List SymbolKind := s.entries.toList.map (·.kind)

theorem kinds_declare (s : Symbols) (name : String) (kind : SymbolKind) (span : Span) :
    (s.declare name kind span).kinds = s.kinds ++ [kind] := by
  rw [kinds, declare, Array.toList_push, List.map_append]
  rfl

theorem kinds_getElem? {i : Nat} {symbol : Symbol} (h : s.entries[i]? = some symbol) :
    s.kinds[i]? = some symbol.kind := by
  rw [kinds, List.getElem?_map, Array.getElem?_toList, h]
  rfl

theorem Continues.kinds (h : s.Continues s') : ∃ added, s'.kinds = s.kinds ++ added ∧
    ∀ kind ∈ added, ∃ mutable, kind = .variable mutable := by
  obtain ⟨added, heq, hadded⟩ := h
  refine ⟨added.map (·.kind), by rw [Symbols.kinds, heq, List.map_append]; rfl, fun kind hkind => ?_⟩
  obtain ⟨symbol, hsymbol, rfl⟩ := List.mem_map.mp hkind
  exact hadded symbol hsymbol

theorem Continues.size (h : s.Continues s') : s.size ≤ s'.size := by
  obtain ⟨added, heq, -⟩ := h
  rw [Symbols.size, Symbols.size, ← Array.length_toList, ← Array.length_toList, heq, List.length_append]
  exact Nat.le_add_right ..

end Symbols

/-- A library of a set exports a function with a number of parameters. -/
def ReferenceSet.Exports (refs : ReferenceSet) (ref : ImportRef) (arity : Nat) : Prop :=
  ∃ l e, refs.library? ref.library = some l ∧ l.export? ref.name = some e ∧ e.arity = arity

namespace Binder
open ScriptEngine.Bound

/-! ### Rules -/

/-- A symbol of a record: of the unit's own, or of an earlier submission's. -/
def Context.Declares (ctx : Context) (own : Symbols) (record : Nat) (symbol : Symbol) : Prop :=
  ctx.unit.record? = some record ∧ symbol ∈ own.entries ∨ ∃ d ∈ ctx.earlier, d.record = record ∧ symbol ∈ d.symbols.entries

/-- Locals may be assigned as binding sees fit, and slots of variables that can change. -/
def Context.Assignable (ctx : Context) (own : Symbols) : Place → Prop
  | .frame _ => True
  | .slot record slot => ∃ symbol, ctx.Declares own record symbol ∧ symbol.slot = slot ∧ symbol.kind = .variable true

/-- A function, a slot that holds a function for good, or an import is called with as many arguments as it has
    parameters. -/
def Context.Callable (ctx : Context) (own : Symbols) (imports : Array ImportRef) : Expr → Nat → Prop
  | .function index, given => ∃ symbol ∈ own.entries, symbol.kind = .function given index
  | .load (.slot record slot), given => ∃ symbol, ctx.Declares own record symbol ∧ symbol.slot = slot ∧
      ∀ arity index, symbol.kind = .function arity index → arity = given
  | .imported index, given => ∃ ref, imports[index]? = some ref ∧ ctx.references.Exports ref given
  | _, _ => True

/-- The rules for a unit with some tables. -/
def Context.rules (ctx : Context) (own : Symbols) (imports : Array ImportRef) : Rules :=
  ⟨ctx.Assignable own, ctx.Callable own imports, fun i given => i.arity.accepts given = true⟩

namespace State

def rules (ctx : Context) (s : State) : Rules := ctx.rules s.symbols s.imports

/-- The tables of one state begin with those of another one, and what was reported stays reported. -/
structure Before (s s' : State) : Prop where
  symbols : s.symbols.Continues s'.symbols
  imports : s.imports.toList <+: s'.imports.toList
  blamed : s.Blamed → s'.Blamed

/-- The function that is bound is the same, and as many scopes are open. -/
structure Keeps (s s' : State) : Prop extends Before s s' where
  entry : s'.frame.isEntry = s.frame.isEntry
  depth : s'.frame.scopes.length = s.frame.scopes.length

variable {s s' s'' : State}

theorem Before.refl (s : State) : s.Before s := ⟨.refl _, List.prefix_rfl, id⟩

theorem Before.trans (h : s.Before s') (h' : s'.Before s'') : s.Before s'' :=
  ⟨h.symbols.trans h'.symbols, h.imports.trans h'.imports, h'.blamed ∘ h.blamed⟩

theorem before_frame (s : State) (frame : Frame) : s.Before { s with frame := frame } :=
  ⟨.refl _, List.prefix_rfl, id⟩

theorem Keeps.refl (s : State) : s.Keeps s := ⟨.refl s, rfl, rfl⟩

theorem Keeps.trans (h : s.Keeps s') (h' : s'.Keeps s'') : s.Keeps s'' :=
  ⟨h.toBefore.trans h'.toBefore, h'.entry.trans h.entry, h'.depth.trans h.depth⟩

theorem Before.import? (h : s.Before s') {i : Nat} {ref : ImportRef} (hi : s.imports[i]? = some ref) :
    s'.imports[i]? = some ref := by
  obtain ⟨rest, hrest⟩ := h.imports
  rw [← Array.getElem?_toList] at hi ⊢
  rw [← hrest, List.getElem?_append_left (List.getElem?_eq_some_iff.mp hi).1]
  exact hi

theorem Keeps.atTopLevel (h : s.Keeps s') : s'.frame.atTopLevel = s.frame.atTopLevel := by
  have hscopes : s'.frame.scopes.isEmpty = s.frame.scopes.isEmpty := by
    rw [Bool.eq_iff_iff, List.isEmpty_iff_length_eq_zero, List.isEmpty_iff_length_eq_zero, h.depth]
  rw [Frame.atTopLevel, Frame.atTopLevel, h.entry, hscopes]

end State

/-! ### Steps of binding -/

/-- From a state, binding takes nothing away from the tables, and gives something that has a property in all
    later states without an error. -/
def Yields {α : Type} (s : State) (x : Bind α) (Q : State → α → Prop) : Prop :=
  s.Keeps (x.run s).2 ∧ ∀ last, (x.run s).2.Before last → ¬ last.Blamed → Q last (x.run s).1

section
variable {α β : Type} {s : State} {x y : Bind α} {f : α → Bind β} {P : State → α → Prop} {Q : State → β → Prop}

theorem yields_pure {a : α} (h : ∀ last, s.Before last → ¬ last.Blamed → P last a) : Yields s (pure a) P :=
  ⟨.refl s, h⟩

/-- What was bound first keeps its property in all later states. -/
theorem yields_bind (hx : Yields s x P)
    (hf : ∀ a s', s.Keeps s' → (∀ last, s'.Before last → ¬ last.Blamed → P last a) → Yields s' (f a) Q) :
    Yields s (x >>= f) Q := by
  obtain ⟨keeps, ha⟩ := hx
  obtain ⟨keeps', hb⟩ := hf _ _ keeps ha
  exact ⟨keeps.trans keeps', hb⟩

theorem yields_get {f : State → Bind α} (h : Yields s (f s) P) : Yields s (get >>= f) P := h

theorem yields_modify {g : State → State} {f : Unit → Bind α} (keeps : s.Keeps (g s)) (h : Yields (g s) (f ()) P) :
    Yields s (modify g >>= f) P :=
  ⟨keeps.trans h.1, h.2⟩

theorem yields_ite {c : Prop} [Decidable c] (hx : Yields s x P) (hy : Yields s y P) :
    Yields s (if c then x else y) P := by
  split
  · exact hx
  · exact hy

theorem Yields.imp {R : State → α → Prop} (hx : Yields s x P) (himp : ∀ last a, P last a → R last a) : Yields s x R :=
  ⟨hx.1, fun last hlast clean => himp last _ (hx.2 last hlast clean)⟩

theorem yields_forM {l : List α} {g : α → Bind Unit} (h : ∀ a s, Yields s (g a) fun _ _ => True) :
    Yields s (l.forM g) fun _ _ => True := by
  induction l generalizing s with
  | nil => exact yields_pure fun _ _ _ => trivial
  | cons a l ih => exact yields_bind (h a s) fun _ _ _ _ => ih

end

section
variable {ctx : Context} {s : State}

/-- Where no error is reported, a message is no error. -/
theorem yields_report {notice : Notice} {span : Span} :
    Yields s (report ctx notice span) fun _ _ => notice.severity ≠ .error := by
  refine ⟨⟨⟨.refl _, List.prefix_rfl, ?_⟩, rfl, rfl⟩, fun last hlast clean herror => clean (hlast.blamed ?_)⟩
  · rintro ⟨d, hd, herror⟩
    exact ⟨d, Array.mem_push_of_mem _ hd, herror⟩
  · refine ⟨_, Array.mem_push_self, ?_⟩
    rw [Diagnostic.isError, Diagnostic.severity, Diagnostic.make, herror]
    rfl

/-- A message, and then what would be without it. -/
theorem yields_reported {α : Type} {notice : Notice} {span : Span} {x : Bind α} {P : State → α → Prop}
    (hx : ∀ s', s.Keeps s' → Yields s' x P) : Yields s (report ctx notice span >>= fun _ => x) P :=
  yields_bind yields_report fun _ s' keeps _ => hx s' keeps

/-- After an error nothing is asked. -/
theorem yields_blamed {α : Type} {notice : Notice} {span : Span} {x : Bind α} {P : State → α → Prop}
    (herror : notice.severity = .error) (hx : ∀ s', Yields s' x fun _ _ => True) :
    Yields s (report ctx notice span >>= fun _ => x) P := by
  have reported : Yields s (report ctx notice span) fun _ _ => notice.severity ≠ .error := yields_report
  obtain ⟨keeps, hreport⟩ := reported
  obtain ⟨keeps', -⟩ := hx ((report ctx notice span).run s).2
  exact ⟨keeps.trans keeps', fun last hlast clean =>
    absurd herror (hreport last (keeps'.toBefore.trans hlast) clean)⟩

/-- Closing a scope reports what was not used in it. -/
theorem closeScope_keeps (ctx : Context) (s : State) :
    State.Keeps { s with frame := s.frame.closeScope } ((closeScope ctx).run s).2 := by
  have reports : Yields { s with frame := s.frame.closeScope }
      (s.frame.innermost.forM fun v => if v.used || v.name.startsWith "_" then pure ()
        else report ctx (.unusedVariable v.name) v.span) fun _ _ => True := by
    refine yields_forM fun v s => yields_ite (yields_pure fun _ _ _ => trivial) ?_
    exact yields_report.imp fun _ _ _ => trivial
  exact reports.1

/-- What is bound in a scope of its own is not at the top level. -/
theorem yields_inScope {α : Type} {x : Bind α} {P : State → α → Prop}
    (hx : ∀ s', s'.frame.atTopLevel = false → Yields s' x P) : Yields s (inScope ctx x) P := by
  obtain ⟨keeps, hP⟩ := hx { s with frame := s.frame.openScope } (Bool.and_false _)
  have closed := closeScope_keeps ctx (x.run { s with frame := s.frame.openScope }).2
  have hdepth := closed.depth
  have before := (State.before_frame _ _).trans closed.toBefore
  refine ⟨⟨⟨keeps.symbols.trans before.symbols, keeps.imports.trans before.imports, before.blamed ∘ keeps.blamed⟩,
    closed.entry.trans keeps.entry, ?_⟩, fun last hlast clean => hP last (before.trans hlast) clean⟩
  refine hdepth.trans ?_
  rw [Frame.closeScope, List.length_tail, keeps.depth]
  rfl

/-! ### Names -/

/-- What a name stands for is what it was declared as. -/
def Resolution.Known (ctx : Context) (last : State) : Resolution → Prop
  | .function index arity => ∃ symbol ∈ last.symbols.entries, symbol.kind = .function arity index
  | .slot record index kind => ∃ symbol, ctx.Declares last.symbols record symbol ∧ symbol.slot = index ∧ symbol.kind = kind
  | .imported ref arity => ctx.references.Exports ref arity
  | .variable _ | .intrinsic _ | .ambiguous _ | .unknown => True

theorem ofEarlier_known {name : String} {earlier : List Declared} {res : Resolution} {last : State}
    (h : Resolution.ofEarlier name earlier = some res) (hsub : ∀ d ∈ earlier, d ∈ ctx.earlier) : res.Known ctx last := by
  induction earlier with
  | nil => cases h
  | cons d ds ih =>
    unfold Resolution.ofEarlier at h
    split at h
    · rename_i symbol hlookup
      cases h
      exact ⟨symbol, .inr ⟨d, hsub d (.head _), rfl, Symbols.mem_of_lookup hlookup⟩, rfl, rfl⟩
    · exact ih h fun d hd => hsub d (.tail _ hd)

theorem ofImports_known {name : String} {last : State} : (Resolution.ofImports ctx name).Known ctx last := by
  unfold Resolution.ofImports
  split
  · split
    all_goals trivial
  · rename_i library arity hcandidates
    have hmem : (library, arity) ∈ Resolution.candidates ctx name := hcandidates ▸ .head _
    obtain ⟨library', -, hfound⟩ := List.mem_filterMap.mp hmem
    obtain ⟨l, hl, hfound⟩ := Option.bind_eq_some_iff.mp hfound
    obtain ⟨e, he, hfound⟩ := Option.bind_eq_some_iff.mp hfound
    cases hfound
    exact ⟨l, e, hl, he, rfl⟩
  · trivial

theorem ofName_known (name : String) {last : State} (hlast : s.Before last) :
    (Resolution.ofName ctx s name).Known ctx last := by
  unfold Resolution.ofName
  split
  · trivial
  · split
    · rename_i symbol hsymbol
      have hmem := hlast.symbols.mem (Symbols.mem_of_lookup hsymbol)
      unfold Resolution.ofOwn
      split
      · rename_i arity index hkind
        exact ⟨symbol, hmem, hkind⟩
      · rename_i record hrecord _
        exact ⟨symbol, .inl ⟨hrecord, hmem⟩, rfl, rfl⟩
      · trivial
    · cases hearlier : Resolution.ofEarlier name ctx.earlier with
      | some res => exact ofEarlier_known hearlier fun _ hd => hd
      | none => exact ofImports_known

theorem length_markScopes (name : String) (scopes : List (List Variable)) :
    (Frame.markScopes name scopes).length = scopes.length := by
  induction scopes with
  | nil => rfl
  | cons first rest ih =>
    unfold Frame.markScopes
    split
    · rfl
    · exact congrArg Nat.succ ih

theorem yields_resolveRead {name : String} :
    Yields s (resolveRead ctx name) fun last res => res.Known ctx last := by
  have marked : s.Keeps { s with frame := s.frame.markUsed name } :=
    ⟨s.before_frame _, rfl, length_markScopes name s.frame.scopes⟩
  exact yields_get (yields_modify marked (yields_pure fun last hlast _ => ofName_known name (marked.toBefore.trans hlast)))

theorem yields_resolvePath {library member : Ident} :
    Yields s (resolvePath ctx library member) fun last res => res.Known ctx last := by
  unfold resolvePath
  refine yields_ite ?_ ?_
  · split
    · exact yields_pure fun _ _ _ => trivial
    · exact yields_reported fun _ _ => yields_pure fun _ _ _ => trivial
  · split
    · exact yields_reported fun _ _ => yields_pure fun _ _ _ => trivial
    · rename_i l hl
      split
      · rename_i e he
        exact yields_pure fun _ _ _ => ⟨l, e, hl, he, rfl⟩
      · exact yields_reported fun _ _ => yields_pure fun _ _ _ => trivial

theorem yields_importIndex {ref : ImportRef} :
    Yields s (importIndex ref) fun last i => last.imports[i]? = some ref := by
  refine yields_get ?_
  split
  · rename_i i hfind
    obtain ⟨hlt, hi, -⟩ := Array.findIdx?_eq_some_iff_getElem.mp hfind
    refine yields_pure fun last hlast _ => hlast.import? ?_
    rw [Array.getElem?_eq_getElem hlt, of_decide_eq_true hi]
  · have pushed : s.Keeps { s with imports := s.imports.push ref } := by
      refine ⟨⟨.refl _, ?_, id⟩, rfl, rfl⟩
      rw [Array.toList_push]
      exact List.prefix_append ..
    exact yields_get (yields_modify pushed (yields_pure fun last hlast _ => hlast.import? Array.getElem?_push_size))

/-- A call of what a name stands for has the right number of arguments. -/
def Resolution.Takes (r : Resolution) (given : Nat) : Prop := ∀ arity ∈ r.arity?, arity.accepts given = true

theorem yields_checkArity {callee : String} {r : Resolution} {given : Nat} {span : Span} :
    Yields s (checkArity ctx callee r given span) fun _ _ => r.Takes given := by
  unfold checkArity
  split
  · rename_i arity harity
    by_cases haccepts : arity.accepts given = true
    · rw [if_pos haccepts]
      refine yields_pure fun _ _ _ a ha => ?_
      obtain rfl := Option.some.inj (harity.symm.trans ha)
      exact haccepts
    · rw [if_neg haccepts]
      exact yields_report.imp fun _ _ herror => absurd rfl herror
  · rename_i hnone
    refine yields_pure fun _ _ _ a ha => ?_
    rw [hnone] at ha
    cases ha

/-- The bound form of a name that is called. -/
theorem callable_of_known {last : State} {record index given : Nat} {kind : SymbolKind}
    (known : (Resolution.slot record index kind).Known ctx last) (takes : (Resolution.slot record index kind).Takes given) :
    (last.rules ctx).call (.load (.slot record index)) given := by
  obtain ⟨symbol, declares, hslot, hkind⟩ := known
  refine ⟨symbol, declares, hslot, fun arity i hfunction => ?_⟩
  rw [hfunction] at hkind
  subst hkind
  exact of_decide_eq_true (takes _ rfl)

theorem yields_callee (ident : Ident) {n : Nat} : (res : Resolution) →
    (∀ last, s.Before last → ¬ last.Blamed → res.Known ctx last ∧ res.Takes n) →
    Yields s (nameValue ctx ident res) fun last b => (last.rules ctx).call b n ∧ Obeys.expr (last.rules ctx) b
  | .variable _, _ => yields_pure fun _ _ _ => ⟨trivial, trivial⟩
  | .function index arity, hres => yields_pure fun last hlast clean => by
    obtain ⟨⟨symbol, hmem, hkind⟩, takes⟩ := hres last hlast clean
    have hgiven : arity = n := of_decide_eq_true (takes _ rfl)
    exact ⟨⟨symbol, hmem, hgiven ▸ hkind⟩, trivial⟩
  | .slot _ _ _, hres => yields_pure fun last hlast clean =>
    ⟨callable_of_known (hres last hlast clean).1 (hres last hlast clean).2, trivial⟩
  | .imported ref arity, hres => yields_bind yields_importIndex fun i s' keeps hi => yields_pure fun last hlast clean => by
    obtain ⟨exported, takes⟩ := hres last (keeps.toBefore.trans hlast) clean
    have hgiven : arity = n := of_decide_eq_true (takes _ rfl)
    exact ⟨⟨ref, hi last hlast clean, hgiven ▸ exported⟩, trivial⟩
  | .intrinsic _, _ | .ambiguous _, _ | .unknown, _ =>
    yields_blamed rfl fun _ => yields_pure fun _ _ _ => trivial

/-- A name that is read is no call. -/
theorem yields_nameValue (ident : Ident) : (res : Resolution) →
    Yields s (nameValue ctx ident res) fun last b => Obeys.expr (last.rules ctx) b
  | .variable _ | .function _ _ | .slot _ _ _ => yields_pure fun _ _ _ => trivial
  | .imported _ _ => yields_bind yields_importIndex fun _ _ _ _ => yields_pure fun _ _ _ => trivial
  | .intrinsic _ | .ambiguous _ | .unknown => yields_reported fun _ _ => yields_pure fun _ _ _ => trivial

theorem yields_pathCallee {member : Ident} {n : Nat} (res : Resolution)
    (hres : ∀ last, s.Before last → ¬ last.Blamed → res.Known ctx last ∧ res.Takes n) :
    Yields s (pathValue ctx member res) fun last b => (last.rules ctx).call b n ∧ Obeys.expr (last.rules ctx) b := by
  cases res with
  | imported ref arity => exact yields_callee member (.imported ref arity) hres
  | intrinsic i => exact yields_reported fun _ _ => yields_pure fun _ _ _ => ⟨trivial, trivial⟩
  | _ => exact yields_pure fun _ _ _ => ⟨trivial, trivial⟩

theorem yields_pathValue {member : Ident} (res : Resolution) :
    Yields s (pathValue ctx member res) fun last b => Obeys.expr (last.rules ctx) b := by
  cases res with
  | imported ref arity => exact yields_nameValue member (.imported ref arity)
  | intrinsic i => exact yields_reported fun _ _ => yields_pure fun _ _ _ => trivial
  | _ => exact yields_pure fun _ _ _ => trivial

/-! ### Declarations and assignments -/

theorem yields_declareLocal {name : Ident} {mutable : Bool} :
    Yields s (declareLocal name mutable) fun _ _ => True := by
  have declared : s.Keeps { s with frame := s.frame.declare name.name mutable name.span } := by
    refine ⟨s.before_frame _, rfl, ?_⟩
    rw [Frame.declare]
    split
    · rename_i hscopes
      rw [hscopes]
    · rename_i hscopes
      rw [hscopes]
      rfl
  exact yields_get (yields_modify declared (yields_pure fun _ _ _ => trivial))

theorem keeps_declare (s : State) (name : String) (mutable : Bool) (span : Span) :
    s.Keeps { s with symbols := s.symbols.declare name (.variable mutable) span } :=
  ⟨⟨s.symbols.continues_declare name mutable span, List.prefix_rfl, id⟩, rfl, rfl⟩

theorem yields_declareSymbol {name : Ident} {mutable : Bool} :
    Yields s (declareSymbol name (.variable mutable)) fun last slot =>
      ∃ symbol ∈ last.symbols.entries, symbol.slot = slot ∧ symbol.kind = .variable mutable := by
  refine yields_get (yields_modify (keeps_declare s name.name mutable name.span) (yields_pure fun last hlast _ => ?_))
  exact ⟨_, hlast.symbols.mem Array.mem_push_self, rfl, rfl⟩

theorem yields_bindVariable {name : Ident} {mutable : Bool} {value : Option Expr} {line : Nat}
    (hinner : s.frame.atTopLevel = false)
    (hvalue : ∀ last, s.Before last → ¬ last.Blamed → ∀ e ∈ value, Obeys.expr (last.rules ctx) e) :
    Yields s (bindVariable ctx name mutable value line) fun last b => ∀ st ∈ b, Obeys.stmt (last.rules ctx) st := by
  refine yields_get ?_
  rw [hinner, if_neg Bool.false_ne_true]
  refine yields_bind yields_declareLocal fun index s' keeps _ => yields_pure fun last hlast clean st hst => ?_
  cases hst
  refine ⟨trivial, ?_⟩
  cases value with
  | none => trivial
  | some e => exact hvalue last (keeps.toBefore.trans hlast) clean e rfl

/-- There is no place to assign to, or one that may be assigned. -/
def MayAssign (ctx : Context) (last : State) (p : Option Place) : Prop := ∀ place ∈ p, (last.rules ctx).store place

theorem yields_nowhere : Yields s (pure none) (MayAssign ctx) := yields_pure fun _ _ _ _ hplace => nomatch hplace

theorem yields_assignPlace {target : Ident} : (res : Resolution) →
    (∀ last, s.Before last → res.Known ctx last) → Yields s (assignPlace ctx target res) (MayAssign ctx)
  | .variable v, _ => by
    have local_ (s' : State) : Yields s' (pure (some (.frame v.index))) (MayAssign ctx) :=
      yields_pure fun _ _ _ place hplace => by
        cases hplace
        trivial
    exact yields_ite (yields_reported fun s' _ => local_ s') (local_ s)
  | .slot record index (.variable mutable), hres => by
    cases mutable with
    | false => exact yields_blamed rfl fun _ => yields_pure fun _ _ _ => trivial
    | true =>
      refine yields_pure fun last hlast _ place hplace => ?_
      cases hplace
      exact hres last hlast
  | .slot _ _ (.function ..), _ | .function .., _ | .imported .., _ | .intrinsic _, _ | .ambiguous _, _ =>
    yields_reported fun _ _ => yields_nowhere
  | .unknown, _ => by
    refine yields_get ?_
    split
    · rename_i record _ hrecord
      refine yields_bind yields_declareSymbol fun slot s' _ hslot => yields_reported fun s'' keeps => ?_
      refine yields_pure fun last hlast clean place hplace => ?_
      cases hplace
      obtain ⟨symbol, hmem, hslot, hkind⟩ := hslot last (keeps.toBefore.trans hlast) clean
      exact ⟨symbol, .inl ⟨hrecord, hmem⟩, hslot, hkind⟩
    · exact yields_nowhere
    · exact yields_reported fun _ _ => yields_nowhere

theorem yields_bindAssign {target : Ident} {value : Expr} {line : Nat}
    (hvalue : ∀ last, s.Before last → ¬ last.Blamed → Obeys.expr (last.rules ctx) value) :
    Yields s (bindAssign ctx target value line) fun last b => ∀ st ∈ b, Obeys.stmt (last.rules ctx) st := by
  refine yields_get (yields_bind (yields_assignPlace _ fun last hlast => ofName_known target.name hlast)
    fun place s' keeps hplace => yields_pure fun last hlast clean st hst => ?_)
  obtain ⟨p, rfl, rfl⟩ := Option.map_eq_some_iff.mp hst
  exact ⟨hplace last hlast clean p rfl, hvalue last (keeps.toBefore.trans hlast) clean⟩

theorem yields_checkDivisor {op : BinaryOp} {divisor : Tree.Expr} :
    Yields s (checkDivisor ctx op divisor) fun _ _ => True :=
  yields_ite (yields_report.imp fun _ _ _ => trivial) (yields_pure fun _ _ _ => trivial)

theorem yields_checkReachable {diverged warned : Bool} {st : Tree.Stmt} :
    Yields s (checkReachable ctx diverged warned st) fun _ _ => True := by
  unfold checkReachable
  split
  · exact yields_pure fun _ _ _ => trivial
  · exact yields_ite (yields_reported fun _ _ => yields_pure fun _ _ _ => trivial) (yields_pure fun _ _ _ => trivial)

theorem obeys_binary {rules : Rules} {left right : Expr} (hl : Obeys.expr rules left) (hr : Obeys.expr rules right)
    (op : BinaryOp) : Obeys.expr rules (binary op left right) := by
  cases op
  all_goals exact ⟨hl, hr⟩

end

/-! ### Trees -/

/-- The expression is a name or a qualified name. -/
def isName : Tree.Expr → Bool
  | .name _ | .path .. => true
  | _ => false

/-- The expression is what a name is bound to. -/
def isReference : Expr → Bool
  | .load _ | .function _ | .imported _ => true
  | _ => false

theorem callable_of_other {ctx : Context} {last : State} {b : Expr} (h : isReference b = false) (given : Nat) :
    (last.rules ctx).call b given := by
  cases b with
  | load | function | imported => cases h
  | _ => trivial

/-- A call of something known or unknown, with arguments that follow the rules. -/
theorem obeys_call {ctx : Context} {last : State} {c : Expr} {args : List Expr} {given : Nat}
    (hargs : Obeys.exprs (last.rules ctx) args ∧ args.length = given)
    (hc : (last.rules ctx).call c given ∧ Obeys.expr (last.rules ctx) c) {P : Prop} :
    Obeys.expr (last.rules ctx) (.call c args) ∧ (P → isReference (.call c args) = false) :=
  ⟨⟨hargs.2 ▸ hc.1, hc.2, hargs.1⟩, fun _ => rfl⟩

theorem obeys_intrinsic {ctx : Context} {last : State} {i : Intrinsic} {args : List Expr} {given : Nat}
    (hargs : Obeys.exprs (last.rules ctx) args ∧ args.length = given) (takes : (Resolution.intrinsic i).Takes given)
    {P : Prop} : Obeys.expr (last.rules ctx) (.intrinsic i args) ∧ (P → isReference (.intrinsic i args) = false) :=
  ⟨⟨hargs.2 ▸ takes _ rfl, hargs.1⟩, fun _ => rfl⟩

/-- The statement is a binding. -/
def isBinding : Tree.Stmt → Bool
  | .bind .. => true
  | _ => false

section
variable {ctx : Context}

mutual

/-- Without errors binding gives trees that follow the rules, and references for names only. -/
theorem yields_expr (s : State) (inLoop : Bool) : (e : Tree.Expr) → Yields s (expr ctx inLoop e) fun last b =>
    Obeys.expr (last.rules ctx) b ∧ (isName e = false → isReference b = false)
  | .name _ => yields_bind yields_resolveRead fun res _ _ _ => (yields_nameValue _ res).imp fun _ _ h => ⟨h, nofun⟩
  | .path _ _ _ => yields_bind yields_resolvePath fun res _ _ _ => (yields_pathValue res).imp fun _ _ h => ⟨h, nofun⟩
  | .literal value _ => yields_pure fun _ _ _ => by cases value <;> exact ⟨trivial, fun _ => rfl⟩
  | .binary op left right _ =>
    yields_bind yields_checkDivisor fun _ s₁ _ _ => yields_bind (yields_expr s₁ inLoop left) fun _ s₂ _ hl =>
      yields_bind (yields_expr s₂ inLoop right) fun _ s₃ keeps hr => yields_pure fun last hlast clean => by
        have hl := (hl last (keeps.toBefore.trans hlast) clean).1
        exact ⟨obeys_binary hl (hr last hlast clean).1 op, fun _ => by cases op <;> rfl⟩
  | .unary _ operand _ => yields_bind (yields_expr s inLoop operand) fun _ _ _ h => yields_pure fun last hlast clean =>
      ⟨(h last hlast clean).1, fun _ => rfl⟩
  | .call callee args _ => by
    unfold expr
    split
    · refine yields_bind yields_resolveRead fun res s₁ _ hknown => yields_bind yields_checkArity fun _ s₂ h₂ htakes => ?_
      refine yields_bind (yields_exprs s₂ inLoop args) fun bound s₃ h₃ hargs => ?_
      split
      · exact yields_pure fun last hlast clean =>
          obeys_intrinsic (hargs last hlast clean) (htakes last (h₃.toBefore.trans hlast) clean)
      · refine yields_bind (yields_callee _ (n := args.length) res fun last hlast clean => ?_) fun c s₄ h₄ hc =>
          yields_pure fun last hlast clean => obeys_call (hargs last (h₄.toBefore.trans hlast) clean) (hc last hlast clean)
        exact ⟨hknown last ((h₂.trans h₃).toBefore.trans hlast) clean, htakes last (h₃.toBefore.trans hlast) clean⟩
    · refine yields_bind yields_resolvePath fun res s₁ _ hknown => yields_bind yields_checkArity fun _ s₂ h₂ htakes => ?_
      refine yields_bind (yields_exprs s₂ inLoop args) fun bound s₃ h₃ hargs => ?_
      split
      · exact yields_pure fun last hlast clean =>
          obeys_intrinsic (hargs last hlast clean) (htakes last (h₃.toBefore.trans hlast) clean)
      · refine yields_bind (yields_pathCallee (n := args.length) res fun last hlast clean => ?_) fun c s₄ h₄ hc =>
          yields_pure fun last hlast clean => obeys_call (hargs last (h₄.toBefore.trans hlast) clean) (hc last hlast clean)
        exact ⟨hknown last ((h₂.trans h₃).toBefore.trans hlast) clean, htakes last (h₃.toBefore.trans hlast) clean⟩
    · rename_i hname hpath
      have other : isName callee = false := by
        cases callee with
        | name ident => exact absurd rfl (hname ident)
        | path library member span => exact absurd rfl (hpath library member span)
        | _ => rfl
      exact yields_bind (yields_exprs s inLoop args) fun _ s₁ _ hargs =>
        yields_bind (yields_expr s₁ inLoop callee) fun _ s₂ keeps hcallee => yields_pure fun last hlast clean =>
          obeys_call (hargs last (keeps.toBefore.trans hlast) clean)
            ⟨callable_of_other ((hcallee last hlast clean).2 other) _, (hcallee last hlast clean).1⟩
  | .index base position _ =>
    yields_bind (yields_expr s inLoop base) fun _ s₁ _ hb => yields_bind (yields_expr s₁ inLoop position)
      fun _ s₂ keeps hp => yields_pure fun last hlast clean =>
        ⟨⟨(hb last (keeps.toBefore.trans hlast) clean).1, (hp last hlast clean).1⟩, fun _ => rfl⟩
  | .list items _ => yields_bind (yields_exprs s inLoop items) fun _ _ _ h => yields_pure fun last hlast clean =>
      ⟨(h last hlast clean).1, fun _ => rfl⟩
  | .branch b => (yields_branch s inLoop b).imp fun _ _ h => ⟨h.1, fun _ => h.2⟩
  | .block b => yields_bind (yields_inScope fun s' inner => yields_block s' inner inLoop b) fun _ _ _ h =>
      yields_pure fun last hlast clean => ⟨h last hlast clean, fun _ => rfl⟩

theorem yields_exprs (s : State) (inLoop : Bool) : (es : List Tree.Expr) → Yields s (exprs ctx inLoop es) fun last bs =>
    Obeys.exprs (last.rules ctx) bs ∧ bs.length = es.length
  | [] => yields_pure fun _ _ _ => ⟨trivial, rfl⟩
  | e :: es => yields_bind (yields_expr s inLoop e) fun _ s₁ _ he => yields_bind (yields_exprs s₁ inLoop es)
      fun _ _ keeps hes => yields_pure fun last hlast clean =>
        ⟨⟨(he last (keeps.toBefore.trans hlast) clean).1, (hes last hlast clean).1⟩,
          congrArg Nat.succ (hes last hlast clean).2⟩

theorem yields_branch (s : State) (inLoop : Bool) : (b : Tree.Branch) → Yields s (branch ctx inLoop b) fun last b =>
    Obeys.expr (last.rules ctx) b ∧ isReference b = false
  | .mk condition body other _ =>
    yields_bind (yields_expr s inLoop condition) fun _ _ _ hc =>
      yields_bind (yields_inScope fun s' inner => yields_block s' inner inLoop body) fun _ s₂ h₂ hb =>
        yields_bind (yields_otherwise s₂ inLoop other) fun _ _ h₃ ho => yields_pure fun last hlast clean =>
          ⟨⟨(hc last ((h₂.trans h₃).toBefore.trans hlast) clean).1, hb last (h₃.toBefore.trans hlast) clean,
            ho last hlast clean⟩, rfl⟩

theorem yields_otherwise (s : State) (inLoop : Bool) : (o : Tree.Otherwise) → Yields s (otherwise ctx inLoop o)
    fun last b => Obeys.block (last.rules ctx) b
  | .nothing => yields_pure fun _ _ _ => ⟨trivial, trivial⟩
  | .block b => yields_inScope fun s' inner => yields_block s' inner inLoop b
  | .branch b => yields_bind (yields_branch s inLoop b) fun _ _ _ h => yields_pure fun last hlast clean =>
      ⟨trivial, (h last hlast clean).1⟩

/-- Blocks and their statements stand in a scope; only there a binding is no declaration of the unit. -/
theorem yields_block (s : State) (inner : s.frame.atTopLevel = false) (inLoop : Bool) : (b : Tree.Block) →
    Yields s (block ctx inLoop b) fun last b => Obeys.block (last.rules ctx) b
  | .mk body last _ =>
    yields_bind (yields_stmts s inner inLoop false false body) fun _ s₁ _ hbody => yields_bind (yields_tail s₁ inLoop _ last)
      fun _ _ keeps hlast => yields_pure fun final hfinal clean =>
        ⟨hbody final (keeps.toBefore.trans hfinal) clean, hlast final hfinal clean⟩

theorem yields_stmts (s : State) (inner : s.frame.atTopLevel = false) (inLoop diverged warned : Bool) :
    (ss : List Tree.Stmt) → Yields s (stmts ctx inLoop diverged warned ss) fun last result =>
      Obeys.stmts (last.rules ctx) result.1
  | [] => yields_pure fun _ _ _ => trivial
  | st :: ss =>
    yields_bind yields_checkReachable fun _ s₁ h₁ _ =>
      yields_bind (yields_stmt s₁ inLoop st (.inl (h₁.atTopLevel.trans inner))) fun _ s₂ h₂ hfirst =>
        yields_bind (yields_stmts s₂ ((h₁.trans h₂).atTopLevel.trans inner) inLoop _ _ ss) fun _ _ h₃ hrest =>
          yields_pure fun last hlast clean =>
            Obeys.stmts_append (hfirst last (h₃.toBefore.trans hlast) clean) (hrest last hlast clean)

theorem yields_stmt (s : State) (inLoop : Bool) : (st : Tree.Stmt) → s.frame.atTopLevel = false ∨ isBinding st = false →
    Yields s (stmt ctx inLoop st) fun last b => ∀ st ∈ b, Obeys.stmt (last.rules ctx) st
  | .bind _ _ value _, hplace => yields_bind (yields_optional s inLoop value) fun _ _ keeps h =>
      yields_bindVariable (keeps.atTopLevel.trans (hplace.resolve_right fun h => Bool.noConfusion h)) h
  | .assign _ value _, _ => yields_bind (yields_expr s inLoop value) fun _ _ _ h =>
      yields_bindAssign fun last hlast clean => (h last hlast clean).1
  | .setIndex base position value _, _ =>
    yields_bind (yields_expr s inLoop base) fun _ s₁ _ hb => yields_bind (yields_expr s₁ inLoop position) fun _ s₂ h₂ hp =>
      yields_bind (yields_expr s₂ inLoop value) fun _ s₃ h₃ hv => yields_pure fun last hlast clean st hst => by
        cases hst
        exact ⟨(hb last ((h₂.trans h₃).toBefore.trans hlast) clean).1, (hp last (h₃.toBefore.trans hlast) clean).1,
          (hv last hlast clean).1⟩
  | .func _ _ _ _, _ =>
    yields_get (yields_ite (yields_reported fun _ _ => yields_pure fun _ _ _ _ hst => nomatch hst)
      (yields_pure fun _ _ _ _ hst => nomatch hst))
  | .eval e, _ => yields_bind (yields_expr s inLoop e) fun _ _ _ h => yields_pure fun last hlast clean st hst => by
      cases hst
      exact (h last hlast clean).1
  | .ret value _, _ => yields_bind (yields_optional s inLoop value) fun v _ _ h => yields_pure fun last hlast clean st hst => by
      cases hst
      cases v with
      | none => trivial
      | some e => exact h last hlast clean e rfl
  | .loop condition body _, _ =>
    yields_bind (yields_expr s inLoop condition) fun _ s₁ _ hc =>
      yields_bind (yields_inScope fun s' inner => yields_block s' inner true body) fun _ s₂ keeps hb =>
        yields_pure fun last hlast clean st hst => by
          cases hst
          exact ⟨(hc last (keeps.toBefore.trans hlast) clean).1, hb last hlast clean⟩
  | .leave _, _ | .next _, _ => yields_ite (yields_reported fun _ _ => yields_pure fun _ _ _ st hst => by cases hst; trivial)
      (yields_pure fun _ _ _ st hst => by cases hst; trivial)

theorem yields_optional (s : State) (inLoop : Bool) : (e : Option Tree.Expr) →
    Yields s (optional ctx inLoop e) fun last b => ∀ e ∈ b, Obeys.expr (last.rules ctx) e
  | none => yields_pure fun _ _ _ _ he => nomatch he
  | some e => yields_bind (yields_expr s inLoop e) fun _ _ _ h => yields_pure fun last hlast clean b hb => by
      cases hb
      exact (h last hlast clean).1

theorem yields_tail (s : State) (inLoop unreachable : Bool) : (e : Option Tree.Expr) →
    Yields s (tail ctx inLoop unreachable e) fun last t => Obeys.tail (last.rules ctx) t
  | none => yields_pure fun _ _ _ => trivial
  | some e => by
    have value (s' : State) : Yields s' (expr ctx inLoop e >>= fun b => pure (Tail.value b (lineOf ctx e.span)))
        fun last t => Obeys.tail (last.rules ctx) t :=
      yields_bind (yields_expr s' inLoop e) fun _ _ _ h => yields_pure fun last hlast clean => (h last hlast clean).1
    exact yields_ite (yields_reported fun s' _ => value s') (value s)

end

end

/-! ### The top level -/

section
variable {ctx : Context} {s : State}

/-- A variable of the unit that cannot change. -/
def Context.Fixes (ctx : Context) (own : Symbols) (record slot : Nat) : Prop :=
  ctx.unit.record? = some record ∧ ∃ symbol ∈ own.entries, symbol.slot = slot ∧ symbol.kind = .variable false

/-- A statement of the top level follows the rules, or gives a fixed name its value, whose slot is new. -/
def Declared (ctx : Context) (s s' last : State) (st : Stmt) : Prop :=
  Obeys.stmt (last.rules ctx) st ∨ ∃ record slot value line, st = .store (.slot record slot) value line ∧
    ctx.Fixes last.symbols record slot ∧ s.symbols.size ≤ slot ∧ slot < s'.symbols.size ∧
    Obeys.expr (last.rules ctx) value

theorem topLevel_append {s' last : State} {first : Option Stmt} {rest : List Stmt}
    (hfirst : ∀ st ∈ first, Declared ctx s s' last st) (hle : s.symbols.size ≤ s'.symbols.size)
    (hrest : TopLevel (last.rules ctx) (ctx.Fixes last.symbols) s'.symbols.size rest) :
    TopLevel (last.rules ctx) (ctx.Fixes last.symbols) s.symbols.size (first.toList ++ rest) := by
  cases first with
  | none => exact hrest.mono hle
  | some st =>
    obtain obeys | ⟨record, slot, value, line, rfl, own, fresh, hlt, obeys⟩ := hfirst st rfl
    · exact .plain obeys (hrest.mono hle)
    · exact .declares own fresh obeys (hrest.mono hlt)

/-- A binding of the top level is an error, or declares a variable and gives it the value, if there is one. -/
theorem bindSlot_run (ctx : Context) (s : State) (name : Ident) (mutable : Bool) (value : Option Expr) (line : Nat) :
    (bindSlot ctx name mutable value line).run s =
        (none, ((report ctx (.functionRedeclared name.name) name.span).run s).2) ∨
    ∃ b, (bindSlot ctx name mutable value line).run s =
        (b, { s with symbols := s.symbols.declare name.name (.variable mutable) name.span }) ∧
      ∀ st ∈ b, ∃ record v, ctx.unit.record? = some record ∧ value = some v ∧
        st = .store (.slot record s.symbols.size) v line := by
  unfold bindSlot
  simp only [StateT.run_bind, StateT.run_get, pure_bind]
  split
  · exact .inl rfl
  · refine .inr ?_
    cases hrecord : ctx.unit.record? with
    | none => exact ⟨none, rfl, fun st hst => nomatch hst⟩
    | some record =>
      cases value with
      | none => exact ⟨none, rfl, fun st hst => nomatch hst⟩
      | some v =>
        refine ⟨_, rfl, fun st hst => ?_⟩
        cases hst
        exact ⟨record, v, rfl, rfl, rfl⟩

theorem yields_bindSlot (name : Ident) (mutable : Bool) {value : Option Expr} (line : Nat)
    (hvalue : ∀ last, s.Before last → ¬ last.Blamed → ∀ e ∈ value, Obeys.expr (last.rules ctx) e) :
    Yields s (bindSlot ctx name mutable value line) fun last b => ∀ st ∈ b,
      Declared ctx s ((bindSlot ctx name mutable value line).run s).2 last st := by
  unfold Yields
  obtain hrun | ⟨b, hrun, hb⟩ := bindSlot_run ctx s name mutable value line
  · rw [hrun]
    exact ⟨yields_report.1, fun last _ _ st hst => nomatch hst⟩
  · rw [hrun]
    have keeps := keeps_declare s name.name mutable name.span
    refine ⟨keeps, fun last hlast clean st hst => ?_⟩
    obtain ⟨record, v, hrecord, rfl, rfl⟩ := hb st hst
    have obeys := hvalue last (keeps.toBefore.trans hlast) clean v rfl
    have hmem := hlast.symbols.mem (@Array.mem_push_self _ s.symbols.entries _)
    cases mutable with
    | true => exact .inl ⟨⟨_, .inl ⟨hrecord, hmem⟩, rfl, rfl⟩, obeys⟩
    | false =>
      have hlt : s.symbols.size < (s.symbols.declare name.name (.variable false) name.span).size := by
        rw [Symbols.size_declare]
        exact Nat.lt_succ_self _
      exact .inr ⟨record, _, v, line, rfl, ⟨hrecord, _, hmem, rfl, rfl⟩, Nat.le_refl _, hlt, obeys⟩

/-- Only bindings are declarations at the top level. -/
theorem yields_topStmt (ctx : Context) (htop : s.frame.atTopLevel = true) (inLoop : Bool) (st : Tree.Stmt) :
    Yields s (stmt ctx inLoop st) fun last b => ∀ st' ∈ b, Declared ctx s ((stmt ctx inLoop st).run s).2 last st' := by
  by_cases hbinding : isBinding st = false
  · exact (yields_stmt s inLoop st (.inr hbinding)).imp fun last b h st' hst' => .inl (h st' hst')
  · cases st with
    | bind name mutable value span =>
      have bound : Yields s (optional ctx inLoop value) fun last b => ∀ e ∈ b, Obeys.expr (last.rules ctx) e :=
        yields_optional s inLoop value
      obtain ⟨keeps, hvalue⟩ := bound
      have slot := yields_bindSlot name mutable (lineOf ctx span) hvalue
      have hrun : (stmt ctx inLoop (.bind name mutable value span)).run s =
          (bindSlot ctx name mutable ((optional ctx inLoop value).run s).1 (lineOf ctx span)).run
            ((optional ctx inLoop value).run s).2 := by
        have htop' := keeps.atTopLevel.trans htop
        unfold stmt bindVariable
        simp only [StateT.run_bind, StateT.run_get, pure_bind]
        exact congrArg (StateT.run · _) (if_pos htop')
      unfold Yields
      rw [hrun]
      refine ⟨keeps.trans slot.1, fun last hlast clean st' hst' => ?_⟩
      obtain obeys | ⟨record, slot, v, line, rfl, own, fresh, hlt, obeys⟩ := slot.2 last hlast clean st' hst'
      · exact .inl obeys
      · exact .inr ⟨record, slot, v, line, rfl, own, Nat.le_trans keeps.symbols.size fresh, hlt, obeys⟩
    | _ => exact absurd rfl hbinding

theorem yields_topStmts (s : State) (htop : s.frame.atTopLevel = true) (inLoop diverged warned : Bool)
    (ss : List Tree.Stmt) : Yields s (stmts ctx inLoop diverged warned ss) fun last result =>
      TopLevel (last.rules ctx) (ctx.Fixes last.symbols) s.symbols.size result.1 := by
  induction ss generalizing s diverged warned with
  | nil => exact yields_pure fun last hlast _ => .nil _
  | cons st ss ih =>
    refine yields_bind yields_checkReachable fun warned' s₁ h₁ _ => ?_
    have htop₁ := h₁.atTopLevel.trans htop
    obtain ⟨h₂, hfirst⟩ := yields_topStmt ctx htop₁ inLoop st
    obtain ⟨h₃, hrest⟩ := ih ((stmt ctx inLoop st).run s₁).2 (h₂.atTopLevel.trans htop₁) (diverged || st.diverges) warned'
    refine ⟨h₂.trans h₃, fun last hlast clean => ?_⟩
    have htail := hrest last hlast clean
    have hhead := topLevel_append (hfirst last (h₃.toBefore.trans hlast) clean) h₂.symbols.size htail
    exact hhead.mono h₁.symbols.size

end

/-! ### Functions -/

/-- Binding whole functions takes nothing away from the tables, and gives something that has a property in all
    later states without an error. -/
def Adds {α : Type} (s : State) (x : Bind α) (Q : State → α → Prop) : Prop :=
  s.Before (x.run s).2 ∧ ∀ last, (x.run s).2.Before last → ¬ last.Blamed → Q last (x.run s).1

section
variable {ctx : Context} {s : State}

theorem yields_params (ps : List Ident) : Yields s (params ctx ps) fun _ _ => True := by
  induction ps generalizing s with
  | nil => exact yields_pure fun _ _ _ => trivial
  | cons p ps ih =>
    have rest (s' : State) : Yields s' (declareLocal p false >>= fun _ => params ctx ps) fun _ _ => True :=
      yields_bind yields_declareLocal fun _ _ _ _ => ih
    exact yields_get (yields_ite (yields_reported fun s' _ => rest s') (rest s))

/-- Whatever is known of the body of a function, if it is bound in a scope. -/
theorem adds_functionBody (ctx : Context) (s : State) (d : Declaration) {P : State → Block → Prop}
    (hbody : ∀ s', s'.frame.atTopLevel = false → Yields s' (block ctx false d.body) P) :
    Adds s (function ctx d) fun last f => f.arity = d.params.length ∧ P last f.body := by
  have bound : Yields { s with frame := Frame.function } (params ctx d.params >>= fun _ => block ctx false d.body) P :=
    yields_bind (yields_params d.params) fun _ s₁ keeps _ => hbody s₁ keeps.atTopLevel
  obtain ⟨keeps, hP⟩ := bound
  have closed := closeScope_keeps ctx
    ((params ctx d.params >>= fun _ => block ctx false d.body).run { s with frame := Frame.function }).2
  have before := (State.before_frame _ _).trans closed.toBefore
  refine ⟨((s.before_frame Frame.function).trans keeps.toBefore).trans before, fun last hlast clean => ⟨rfl, ?_⟩⟩
  exact hP last (before.trans hlast) clean

theorem adds_function (ctx : Context) (s : State) (d : Declaration) : Adds s (function ctx d) fun last f =>
    f.arity = d.params.length ∧ Obeys.block (last.rules ctx) f.body :=
  adds_functionBody ctx s d fun s' inner => yields_block s' inner false d.body

/-- Whatever is known of each function. -/
theorem adds_functions {R : State → Declaration → Func → Prop}
    (hfunction : ∀ s d, Adds s (function ctx d) fun last f => R last d f) (s : State) (ds : List Declaration) :
    Adds s (functions ctx ds) fun last fs => List.Forall₂ (R last) ds fs := by
  induction ds generalizing s with
  | nil => exact ⟨.refl s, fun _ _ _ => .nil⟩
  | cons d ds ih =>
    obtain ⟨before, first⟩ := hfunction s d
    obtain ⟨before', rest⟩ := ih ((function ctx d).run s).2
    exact ⟨before.trans before', fun last hlast clean =>
      .cons (first last (before'.trans hlast) clean) (rest last hlast clean)⟩

/-- The body of an entry routine: statements of the top level, and a value that follows the rules. -/
def IsEntry (ctx : Context) (least : Nat) (last : State) (main : Func) : Prop :=
  ∃ ss t, main.body = .mk ss t ∧ TopLevel (last.rules ctx) (ctx.Fixes last.symbols) least ss ∧
    Obeys.tail (last.rules ctx) t

theorem adds_entry (ctx : Context) (s : State) (f : Tree.Fragment) (name : String) : Adds s (entry ctx f name) fun last main =>
    IsEntry ctx s.symbols.size last main := by
  have bound : Yields { s with frame := Frame.entry } (block ctx false (.mk f.stmts f.tail f.span)) fun last body =>
      ∃ ss t, body = .mk ss t ∧ TopLevel (last.rules ctx) (ctx.Fixes last.symbols) s.symbols.size ss ∧
        Obeys.tail (last.rules ctx) t :=
    yields_bind (yields_topStmts { s with frame := Frame.entry } rfl false false false f.stmts) fun _ s₁ _ hbody =>
      yields_bind (yields_tail s₁ false _ f.tail) fun _ _ keeps htail => yields_pure fun last hlast clean =>
        ⟨_, _, rfl, hbody last (keeps.toBefore.trans hlast) clean, htail last hlast clean⟩
  exact ⟨(s.before_frame Frame.entry).trans bound.1.toBefore, bound.2⟩

/-- The functions of a script: those that were declared, and the entry routine. -/
theorem adds_unitFunctions {f : Tree.Fragment} {M : State → Func → Prop} {R : State → Declaration → Func → Prop}
    (hentry : Adds s (entry ctx f (ctx.unit.qualified "<Main>")) M)
    (hfunction : ∀ s d, Adds s (function ctx d) fun last g => R last d g) (declared : List Declaration)
    (hscript : ctx.unit.isScript = true) : Adds s (unitFunctions ctx f declared) fun last fs => ∃ first main,
      fs = first ++ [main] ∧ List.Forall₂ (R last) declared first ∧ M last main := by
  have hname : ctx.unit.entryName? = some (ctx.unit.qualified "<Main>") := if_pos hscript
  obtain ⟨before, hmain⟩ := hentry
  obtain ⟨before', hrest⟩ := adds_functions hfunction ((entry ctx f (ctx.unit.qualified "<Main>")).run s).2 declared
  unfold Adds unitFunctions
  simp only [hname]
  exact ⟨before.trans before', fun last hlast clean =>
    ⟨_, _, rfl, hrest last hlast clean, hmain last (before'.trans hlast) clean⟩⟩

/-! ### Units -/

/-- What declared functions are known as, the first one with the position `index`. -/
def functionKinds : List Declaration → Nat → List SymbolKind
  | [], _ => []
  | d :: ds, index => .function d.params.length index :: functionKinds ds (index + 1)

theorem functionKinds_getElem? (ds : List Declaration) (index i : Nat) :
    (functionKinds ds index)[i]? = ds[i]?.map fun d => .function d.params.length (index + i) := by
  induction ds generalizing index i with
  | nil => rfl
  | cons d ds ih =>
    cases i with
    | zero => rfl
    | succ i =>
      rw [functionKinds, List.getElem?_cons_succ, List.getElem?_cons_succ, ih, Nat.add_right_comm]
      rfl

theorem length_functionKinds (ds : List Declaration) (index : Nat) : (functionKinds ds index).length = ds.length := by
  induction ds generalizing index with
  | nil => rfl
  | cons d ds ih => exact congrArg Nat.succ (ih (index + 1))

theorem hoist_kinds (ss : List Tree.Stmt) (index : Nat) (s : State) :
    ((hoist ctx ss index).run s).2.symbols.kinds =
      s.symbols.kinds ++ functionKinds ((hoist ctx ss index).run s).1 index := by
  induction ss generalizing s index with
  | nil => exact (List.append_nil _).symm
  | cons st ss ih =>
    cases st with
    | func name params body span =>
      unfold hoist
      simp only [StateT.run_bind, StateT.run_get, pure_bind]
      split
      · exact ih index _
      · refine (ih (index + 1) _).trans ?_
        have hdeclare := s.symbols.kinds_declare name.name (.function params.length index) name.span
        exact (congrArg (· ++ _) hdeclare).trans (List.append_assoc ..)
    | _ => exact ih index s

/-- A script without errors: every function follows the rules, and the entry routine gives every fixed name its
    value once. The first symbols are the functions, each at its own position, and all others are variables. -/
structure Lawful (ctx : Context) (o : Output) (first : List Func) (main : Func) : Prop where
  functions : o.program.functions = first ++ [main]
  position : o.program.entry = some first.length
  record : o.program.record = ctx.unit.record?
  bodies : ∀ g ∈ first, Obeys.block (ctx.rules o.symbols o.program.imports) g.body
  entry : ∃ ss t, main.body = .mk ss t ∧
    TopLevel (ctx.rules o.symbols o.program.imports) (ctx.Fixes o.symbols) first.length ss ∧
    Obeys.tail (ctx.rules o.symbols o.program.imports) t
  functionSlots : o.program.functionSlots = (List.range first.length).map fun i => ⟨i, i⟩
  kinds : ∃ added, o.symbols.kinds = first.mapIdx (fun i g => .function g.arity i) ++ added ∧
    ∀ kind ∈ added, ∃ mutable, kind = .variable mutable
  within : ∀ g ∈ o.program.functions, g.Scoped { o.scope ctx with functions := first.length }

/-- The functions of a lawful script refer to nothing but what is there, and none of them to the entry routine. -/
theorem Lawful.inScope {o : Output} {first : List Func} {main : Func} (h : Lawful ctx o first main) :
    o.program.Scoped { o.scope ctx with functions := first.length } := by
  refine ⟨h.record.symm, h.within, fun s hs => ?_⟩
  rw [h.functionSlots] at hs
  obtain ⟨i, hi, rfl⟩ := List.mem_map.mp hs
  have hlt := List.mem_range.mp hi
  obtain ⟨added, hkinds, -⟩ := h.kinds
  have hsize : o.symbols.size = first.length + added.length := by
    have := congrArg List.length hkinds
    rwa [Symbols.kinds, List.length_map, Array.length_toList, List.length_append, List.length_mapIdx] at this
  have hslot : i < o.symbols.size := by omega
  exact ⟨hlt, hslot⟩

/-- Calls follow the rules everywhere in a lawful script. -/
theorem Lawful.lax {o : Output} {first : List Func} {main : Func} (h : Lawful ctx o first main) {g : Func}
    (hg : g ∈ o.program.functions) : Obeys.block (ctx.rules o.symbols o.program.imports).lax g.body := by
  rw [h.functions] at hg
  rcases List.mem_append.mp hg with hg | hg
  · exact Obeys.block_lax g.body (h.bodies g hg)
  · obtain ⟨ss, t, hbody, top, obeys⟩ := h.entry
    rw [List.mem_singleton.mp hg, hbody]
    exact ⟨top.lax, Obeys.tail_lax t obeys⟩

/-- A symbol of a function stands for the function at its position, and is in the slot with that number. -/
theorem Lawful.function {o : Output} {first : List Func} {main : Func} (h : Lawful ctx o first main) {slot arity index : Nat}
    {symbol : Symbol} (hsymbol : o.symbols.entries[slot]? = some symbol) (hkind : symbol.kind = .function arity index) :
    index = slot ∧ ∃ g, first[index]? = some g ∧ g.arity = arity := by
  obtain ⟨added, heq, hadded⟩ := h.kinds
  have hslot := Symbols.kinds_getElem? hsymbol
  rw [heq, hkind] at hslot
  rcases Nat.lt_or_ge slot (first.mapIdx fun i g => SymbolKind.function g.arity i).length with hlt | hge
  · rw [List.getElem?_append_left hlt, List.getElem?_mapIdx] at hslot
    obtain ⟨g, hg, hkind⟩ := Option.map_eq_some_iff.mp hslot
    cases hkind
    exact ⟨rfl, g, hg, rfl⟩
  · rw [List.getElem?_append_right hge] at hslot
    obtain ⟨mutable, hvariable⟩ := hadded _ (List.mem_of_getElem? hslot)
    cases hvariable

theorem functionKinds_eq {first : List Func} {ds : List Declaration}
    (h : first.map (·.arity) = ds.map (·.params.length)) :
    functionKinds ds 0 = first.mapIdx fun i g => .function g.arity i := by
  refine List.ext_getElem? fun i => ?_
  have hi : (first.map (·.arity))[i]? = (ds.map (·.params.length))[i]? := congrArg (·[i]?) h
  rw [List.getElem?_map, List.getElem?_map] at hi
  rw [functionKinds_getElem?, List.getElem?_mapIdx, Nat.zero_add]
  cases hd : ds[i]? with
  | none =>
    rw [hd] at hi
    rw [Option.map_eq_none_iff.mp hi]
    rfl
  | some d =>
    rw [hd] at hi
    obtain ⟨g, hg, harity⟩ := Option.map_eq_some_iff.mp hi
    rw [hg, Option.map_some, Option.map_some, harity]

/-- If binding a fragment reports no error, then none was reported when its functions were bound. -/
theorem unitFunctions_unblamed {f : Tree.Fragment} (clean : ∀ d ∈ (bind ctx f).diagnostics, d.isError = false) :
    ¬ ((unitFunctions ctx f (declarations ctx f).1).run (declarations ctx f).2).2.Blamed := by
  rintro ⟨d, hd, herror⟩
  have hfalse := clean d (List.mem_mergeSort.mpr (Array.mem_toList_iff.mpr hd))
  exact Bool.noConfusion (hfalse.symm.trans herror)

theorem bind_lawful {ctx : Context} {f : Tree.Fragment} (hscript : ctx.unit.isScript = true)
    (clean : ∀ d ∈ (bind ctx f).diagnostics, d.isError = false) : ∃ first main, Lawful ctx (bind ctx f) first main := by
  let declared := (declarations ctx f).1
  let s₁ := (declarations ctx f).2
  let s₂ := ((unitFunctions ctx f declared).run s₁).2
  have unblamed : ¬ s₂.Blamed := unitFunctions_unblamed clean
  obtain ⟨before, made⟩ := adds_unitFunctions (adds_entry ctx s₁ f _) (adds_function ctx) declared hscript
  obtain ⟨first, main, hfunctions, each, hmain⟩ := made s₂ (.refl s₂) unblamed
  have turned : List.Forall₂ (fun g d => Obeys.block (s₂.rules ctx) g.body ∧ g.arity = d.params.length) first declared :=
    (each.imp fun _ _ h => h.symm).flip
  obtain ⟨hfirst, harities⟩ := (List.forall₂_and_left ..).mp turned
  have harities : first.map (·.arity) = declared.map (·.params.length) := by
    rwa [← List.forall₂_eq_eq_eq, List.forall₂_map_left_iff, List.forall₂_map_right_iff]
  have hlength : first.length = declared.length := by
    have := congrArg List.length harities
    rwa [List.length_map, List.length_map] at this
  have hkinds : s₁.symbols.kinds = functionKinds declared 0 := hoist_kinds f.stmts 0 _
  have hsize : s₁.symbols.size = first.length := by
    have := congrArg List.length hkinds
    rw [length_functionKinds, ← hlength, Symbols.kinds, List.length_map, Array.length_toList] at this
    exact this
  refine ⟨first, main, hfunctions, ?_, rfl, hfirst, ?_, ?_, ?_, fun g hg => ?_⟩
  · rw [hlength]
    exact if_pos hscript
  · rw [← hsize]
    exact hmain
  · rw [hlength]
    exact if_pos hscript
  · obtain ⟨added, heq, hadded⟩ := before.symbols.kinds
    refine ⟨added, heq.trans ?_, hadded⟩
    rw [hkinds, functionKinds_eq harities]
  · obtain ⟨-, -, within⟩ := makes_unitFunctions (declarations_fits ctx f) f declared
    have covered : s₂.Covered ctx declared.length { (bind ctx f).scope ctx with functions := first.length } := by
      refine ⟨rfl, rfl, Nat.le_of_eq hlength.symm, Nat.le_refl _, Nat.le_refl _, fun h => absurd h unblamed⟩
    exact (within _ covered).2.2 g hg

end

end Binder
end ScriptEngine
