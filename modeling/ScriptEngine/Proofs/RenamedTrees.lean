import ScriptEngine.Tree

/-! Renaming one local in a syntax tree. `Fragment.Renames` renames one parameter or one binding inside of a block, and
    with it the names that stand for it: those in its scope, up to where the same name is bound again. `Fragment.Alike`
    is what is left of this seen from inside, where a name is read with what it stands for: a name is the same on both
    sides, or it stands for a renamed local. -/

namespace ScriptEngine.Tree

/-! ### Names that do not occur -/

mutual

/-- No identifier in an expression is this name, whatever the identifier stands for. -/
def Expr.Lacks (name : String) : Expr → Prop
  | .name ident => ident.name ≠ name
  | .path library member _ => library.name ≠ name ∧ member.name ≠ name
  | .literal .. => True
  | .binary _ left right _ => left.Lacks name ∧ right.Lacks name
  | .unary _ operand _ => operand.Lacks name
  | .call callee args _ => callee.Lacks name ∧ ExprsLack name args
  | .index base position _ => base.Lacks name ∧ position.Lacks name
  | .list items _ => ExprsLack name items
  | .branch b => b.Lacks name
  | .block b => b.Lacks name

def ExprsLack (name : String) : List Expr → Prop
  | [] => True
  | e :: es => e.Lacks name ∧ ExprsLack name es

def Branch.Lacks (name : String) : Branch → Prop
  | .mk condition body other _ => condition.Lacks name ∧ body.Lacks name ∧ other.Lacks name

def Otherwise.Lacks (name : String) : Otherwise → Prop
  | .nothing => True
  | .block b => b.Lacks name
  | .branch b => b.Lacks name

def Stmt.Lacks (name : String) : Stmt → Prop
  | .bind ident _ value _ => ident.name ≠ name ∧ OptionLacks name value
  | .assign target value _ => target.name ≠ name ∧ value.Lacks name
  | .setIndex base position value _ => base.Lacks name ∧ position.Lacks name ∧ value.Lacks name
  | .func ident params body _ => ident.name ≠ name ∧ (∀ p ∈ params, p.name ≠ name) ∧ body.Lacks name
  | .eval e => e.Lacks name
  | .ret value _ => OptionLacks name value
  | .loop condition body _ => condition.Lacks name ∧ body.Lacks name
  | .leave _ | .next _ => True

def StmtsLack (name : String) : List Stmt → Prop
  | [] => True
  | s :: ss => s.Lacks name ∧ StmtsLack name ss

def OptionLacks (name : String) : Option Expr → Prop
  | none => True
  | some e => e.Lacks name

def Block.Lacks (name : String) : Block → Prop
  | .mk body last _ => StmtsLack name body ∧ OptionLacks name last

end

def Fragment.Lacks (name : String) (f : Fragment) : Prop := StmtsLack name f.stmts ∧ OptionLacks name f.tail

theorem stmtsLack_append {name : String} {ss tt : List Stmt} (h : StmtsLack name (ss ++ tt)) :
    StmtsLack name ss ∧ StmtsLack name tt := by
  induction ss with
  | nil => exact ⟨trivial, h⟩
  | cons s ss ih => exact ⟨⟨h.1, (ih h.2).1⟩, (ih h.2).2⟩

/-! ### What a name stands for -/

def Stmt.declares (name : String) : Stmt → Bool
  | .bind ident _ _ _ => ident.name = name
  | _ => false

def renameIdent (old new : String) (i : Ident) : Ident := if i.name = old then { i with name := new } else i

mutual

/-- Rename what stands for the nearest local `old` around an expression. Where `old` is bound again it stands for
    something else from there on; a function inside of a block has no part in its scopes. -/
def Expr.rename (old new : String) : Expr → Expr
  | .name ident => .name (renameIdent old new ident)
  | .path library member span => .path library member span
  | .literal value span => .literal value span
  | .binary op left right span => .binary op (left.rename old new) (right.rename old new) span
  | .unary op operand span => .unary op (operand.rename old new) span
  | .call callee args span => .call (callee.rename old new) (exprsRename old new args) span
  | .index base position span => .index (base.rename old new) (position.rename old new) span
  | .list items span => .list (exprsRename old new items) span
  | .branch b => .branch (b.rename old new)
  | .block b => .block (b.rename old new)

def exprsRename (old new : String) : List Expr → List Expr
  | [] => []
  | e :: es => e.rename old new :: exprsRename old new es

def Branch.rename (old new : String) : Branch → Branch
  | .mk condition body other span =>
    .mk (condition.rename old new) (body.rename old new) (other.rename old new) span

def Otherwise.rename (old new : String) : Otherwise → Otherwise
  | .nothing => .nothing
  | .block b => .block (b.rename old new)
  | .branch b => .branch (b.rename old new)

def Stmt.rename (old new : String) : Stmt → Stmt
  | .bind name mutable value span => .bind name mutable (optionRename old new value) span
  | .assign target value span => .assign (renameIdent old new target) (value.rename old new) span
  | .setIndex base position value span =>
    .setIndex (base.rename old new) (position.rename old new) (value.rename old new) span
  | .func name params body span => .func name params body span
  | .eval e => .eval (e.rename old new)
  | .ret value span => .ret (optionRename old new value) span
  | .loop condition body span => .loop (condition.rename old new) (body.rename old new) span
  | .leave span => .leave span
  | .next span => .next span

def stmtsRename (old new : String) : List Stmt → List Stmt
  | [] => []
  | s :: ss => s.rename old new :: if s.declares old then ss else stmtsRename old new ss

def optionRename (old new : String) : Option Expr → Option Expr
  | none => none
  | some e => some (e.rename old new)

def Block.rename (old new : String) : Block → Block
  | .mk body last span =>
    .mk (stmtsRename old new body) (if body.any (Stmt.declares old) then last else optionRename old new last) span

end

/-! ### Renaming a declaration -/

mutual

/-- One binding or parameter somewhere in an expression is renamed from `old` to `new`. -/
inductive Expr.Renames (old new : String) : Expr → Expr → Prop where
  | left {op l l' r span} (h : Expr.Renames old new l l') :
      Expr.Renames old new (.binary op l r span) (.binary op l' r span)
  | right {op l r r' span} (h : Expr.Renames old new r r') :
      Expr.Renames old new (.binary op l r span) (.binary op l r' span)
  | operand {op e e' span} (h : Expr.Renames old new e e') : Expr.Renames old new (.unary op e span) (.unary op e' span)
  | callee {e e' args span} (h : Expr.Renames old new e e') : Expr.Renames old new (.call e args span) (.call e' args span)
  | args {e es es' span} (h : ExprsRenames old new es es') : Expr.Renames old new (.call e es span) (.call e es' span)
  | base {b b' p span} (h : Expr.Renames old new b b') : Expr.Renames old new (.index b p span) (.index b' p span)
  | position {b p p' span} (h : Expr.Renames old new p p') : Expr.Renames old new (.index b p span) (.index b p' span)
  | items {es es' span} (h : ExprsRenames old new es es') : Expr.Renames old new (.list es span) (.list es' span)
  | branch {b b'} (h : Branch.Renames old new b b') : Expr.Renames old new (.branch b) (.branch b')
  | block {b b'} (h : Block.Renames old new b b') : Expr.Renames old new (.block b) (.block b')

inductive ExprsRenames (old new : String) : List Expr → List Expr → Prop where
  | head {e e' es} (h : Expr.Renames old new e e') : ExprsRenames old new (e :: es) (e' :: es)
  | tail {e es es'} (h : ExprsRenames old new es es') : ExprsRenames old new (e :: es) (e :: es')

inductive Branch.Renames (old new : String) : Branch → Branch → Prop where
  | condition {c c' b o span} (h : Expr.Renames old new c c') : Branch.Renames old new (.mk c b o span) (.mk c' b o span)
  | body {c b b' o span} (h : Block.Renames old new b b') : Branch.Renames old new (.mk c b o span) (.mk c b' o span)
  | other {c b o o' span} (h : Otherwise.Renames old new o o') : Branch.Renames old new (.mk c b o span) (.mk c b o' span)

inductive Otherwise.Renames (old new : String) : Otherwise → Otherwise → Prop where
  | block {b b'} (h : Block.Renames old new b b') : Otherwise.Renames old new (.block b) (.block b')
  | branch {b b'} (h : Branch.Renames old new b b') : Otherwise.Renames old new (.branch b) (.branch b')

inductive Stmt.Renames (old new : String) : Stmt → Stmt → Prop where
  | bind {name mutable e e' span} (h : Expr.Renames old new e e') :
      Stmt.Renames old new (.bind name mutable (some e) span) (.bind name mutable (some e') span)
  | assign {target e e' span} (h : Expr.Renames old new e e') :
      Stmt.Renames old new (.assign target e span) (.assign target e' span)
  | base {b b' p v span} (h : Expr.Renames old new b b') :
      Stmt.Renames old new (.setIndex b p v span) (.setIndex b' p v span)
  | position {b p p' v span} (h : Expr.Renames old new p p') :
      Stmt.Renames old new (.setIndex b p v span) (.setIndex b p' v span)
  | value {b p v v' span} (h : Expr.Renames old new v v') :
      Stmt.Renames old new (.setIndex b p v span) (.setIndex b p v' span)
  /-- A parameter is renamed. Its scope is the body, unless a later parameter has the same name. -/
  | param {name before after body span place} : Stmt.Renames old new (.func name (before ++ ⟨old, place⟩ :: after) body span)
      (.func name (before ++ ⟨new, place⟩ :: after) (if after.any (·.name = old) then body else body.rename old new) span)
  | func {name params b b' span} (h : Block.Renames old new b b') :
      Stmt.Renames old new (.func name params b span) (.func name params b' span)
  | eval {e e'} (h : Expr.Renames old new e e') : Stmt.Renames old new (.eval e) (.eval e')
  | ret {e e' span} (h : Expr.Renames old new e e') : Stmt.Renames old new (.ret (some e) span) (.ret (some e') span)
  | condition {c c' b span} (h : Expr.Renames old new c c') : Stmt.Renames old new (.loop c b span) (.loop c' b span)
  | loop {c b b' span} (h : Block.Renames old new b b') : Stmt.Renames old new (.loop c b span) (.loop c b' span)

inductive StmtsRenames (old new : String) : List Stmt → List Stmt → Prop where
  | head {s s' ss} (h : Stmt.Renames old new s s') : StmtsRenames old new (s :: ss) (s' :: ss)
  | tail {s ss ss'} (h : StmtsRenames old new ss ss') : StmtsRenames old new (s :: ss) (s :: ss')

inductive Block.Renames (old new : String) : Block → Block → Prop where
  /-- A binding of the block is renamed. Its scope is the rest of the block, up to where the same name is bound again. -/
  | bind {before after mutable value last span here place} :
      Block.Renames old new (.mk (before ++ .bind ⟨old, place⟩ mutable value here :: after) last span)
        (.mk (before ++ .bind ⟨new, place⟩ mutable value here :: stmtsRename old new after)
          (if after.any (Stmt.declares old) then last else optionRename old new last) span)
  | stmts {ss ss' last span} (h : StmtsRenames old new ss ss') : Block.Renames old new (.mk ss last span) (.mk ss' last span)
  | tail {ss e e' span} (h : Expr.Renames old new e e') :
      Block.Renames old new (.mk ss (some e) span) (.mk ss (some e') span)

end

/-- One parameter, or one binding inside of a block, is renamed somewhere in a fragment. What is bound at the top level
    of a fragment is no local. -/
inductive Fragment.Renames (old new : String) : Fragment → Fragment → Prop where
  | stmts {ss ss' last span} (h : StmtsRenames old new ss ss') : Fragment.Renames old new ⟨ss, last, span⟩ ⟨ss', last, span⟩
  | tail {ss e e' span} (h : Expr.Renames old new e e') : Fragment.Renames old new ⟨ss, some e, span⟩ ⟨ss, some e', span⟩

/-! ### Trees that are alike -/

/-- A name on both sides: the same name, or the renamed local, if this is what `old` stands for. -/
inductive Refers (old new : String) : (renamed : Bool) → String → String → Prop where
  | same {renamed name} (fresh : name ≠ new) (other : renamed = true → name ≠ old) : Refers old new renamed name name
  | changed : Refers old new true old new

/-- A declaration on both sides, and what `old` stands for before it and behind it. -/
inductive Declares (old new : String) : (before : Bool) → String → String → (behind : Bool) → Prop where
  | same {before name} (fresh : name ≠ new) : Declares old new before name name (before && !decide (name = old))
  | changed {before} : Declares old new before old new true

theorem Refers.cases {old new : String} {r : Bool} {name name' : String} (h : Refers old new r name name') :
    (name' = name ∧ name ≠ new ∧ (r = true → name ≠ old)) ∨ r = true ∧ name = old ∧ name' = new := by
  cases h with
  | same fresh other => exact .inl ⟨rfl, fresh, other⟩
  | changed => exact .inr ⟨rfl, rfl, rfl⟩

/-- Parameters on both sides. -/
inductive ParamsAlike (old new : String) : Bool → List Ident → List Ident → Bool → Prop where
  | nil {before} : ParamsAlike old new before [] [] before
  | cons {before mid behind p name ps ps'} (h : Declares old new before p.name name mid)
      (more : ParamsAlike old new mid ps ps' behind) :
      ParamsAlike old new before (p :: ps) ({ p with name := name } :: ps') behind

mutual

/-- Two expressions are alike: where they differ, one says `old` and the other `new`, and both mean one local. The flag
    says whether this is what `old` stands for around them. -/
inductive Expr.Alike (old new : String) : Bool → Expr → Expr → Prop where
  | name {r ident name} (h : Refers old new r ident.name name) :
      Expr.Alike old new r (.name ident) (.name { ident with name := name })
  | path {r library member span} : Expr.Alike old new r (.path library member span) (.path library member span)
  | literal {r value span} : Expr.Alike old new r (.literal value span) (.literal value span)
  | binary {r op a a' b b' span} (left : Expr.Alike old new r a a') (right : Expr.Alike old new r b b') :
      Expr.Alike old new r (.binary op a b span) (.binary op a' b' span)
  | unary {r op e e' span} (operand : Expr.Alike old new r e e') :
      Expr.Alike old new r (.unary op e span) (.unary op e' span)
  | call {r e e' es es' span} (callee : Expr.Alike old new r e e') (args : ExprsAlike old new r es es') :
      Expr.Alike old new r (.call e es span) (.call e' es' span)
  | index {r a a' b b' span} (base : Expr.Alike old new r a a') (position : Expr.Alike old new r b b') :
      Expr.Alike old new r (.index a b span) (.index a' b' span)
  | list {r es es' span} (items : ExprsAlike old new r es es') : Expr.Alike old new r (.list es span) (.list es' span)
  | branch {r b b'} (h : Branch.Alike old new r b b') : Expr.Alike old new r (.branch b) (.branch b')
  | block {r b b'} (h : Block.Alike old new r b b') : Expr.Alike old new r (.block b) (.block b')

inductive ExprsAlike (old new : String) : Bool → List Expr → List Expr → Prop where
  | nil {r} : ExprsAlike old new r [] []
  | cons {r e e' es es'} (first : Expr.Alike old new r e e') (rest : ExprsAlike old new r es es') :
      ExprsAlike old new r (e :: es) (e' :: es')

inductive Branch.Alike (old new : String) : Bool → Branch → Branch → Prop where
  | mk {r c c' b b' o o' span} (condition : Expr.Alike old new r c c') (body : Block.Alike old new r b b')
      (other : Otherwise.Alike old new r o o') : Branch.Alike old new r (.mk c b o span) (.mk c' b' o' span)

inductive Otherwise.Alike (old new : String) : Bool → Otherwise → Otherwise → Prop where
  | nothing {r} : Otherwise.Alike old new r .nothing .nothing
  | block {r b b'} (h : Block.Alike old new r b b') : Otherwise.Alike old new r (.block b) (.block b')
  | branch {r b b'} (h : Branch.Alike old new r b b') : Otherwise.Alike old new r (.branch b) (.branch b')

/-- Two statements are alike. Behind them `old` may stand for something else. -/
inductive Stmt.Alike (old new : String) : Bool → Stmt → Stmt → Bool → Prop where
  | bind {r behind ident name mutable v v' span} (value : OptionAlike old new r v v')
      (h : Declares old new r ident.name name behind) :
      Stmt.Alike old new r (.bind ident mutable v span) (.bind { ident with name := name } mutable v' span) behind
  | assign {r target name v v' span} (value : Expr.Alike old new r v v') (h : Refers old new r target.name name) :
      Stmt.Alike old new r (.assign target v span) (.assign { target with name := name } v' span) r
  | setIndex {r a a' b b' v v' span} (base : Expr.Alike old new r a a') (position : Expr.Alike old new r b b')
      (value : Expr.Alike old new r v v') : Stmt.Alike old new r (.setIndex a b v span) (.setIndex a' b' v' span) r
  | func {r inner name ps ps' b b' span} (fresh : name.name ≠ new) (params : ParamsAlike old new false ps ps' inner)
      (body : Block.Alike old new inner b b') : Stmt.Alike old new r (.func name ps b span) (.func name ps' b' span) r
  | eval {r e e'} (h : Expr.Alike old new r e e') : Stmt.Alike old new r (.eval e) (.eval e') r
  | ret {r v v' span} (value : OptionAlike old new r v v') : Stmt.Alike old new r (.ret v span) (.ret v' span) r
  | loop {r c c' b b' span} (condition : Expr.Alike old new r c c') (body : Block.Alike old new r b b') :
      Stmt.Alike old new r (.loop c b span) (.loop c' b' span) r
  | leave {r span} : Stmt.Alike old new r (.leave span) (.leave span) r
  | next {r span} : Stmt.Alike old new r (.next span) (.next span) r

inductive StmtsAlike (old new : String) : Bool → List Stmt → List Stmt → Bool → Prop where
  | nil {r} : StmtsAlike old new r [] [] r
  | cons {r mid behind s s' ss ss'} (first : Stmt.Alike old new r s s' mid) (rest : StmtsAlike old new mid ss ss' behind) :
      StmtsAlike old new r (s :: ss) (s' :: ss') behind

inductive OptionAlike (old new : String) : Bool → Option Expr → Option Expr → Prop where
  | none {r} : OptionAlike old new r none none
  | some {r e e'} (h : Expr.Alike old new r e e') : OptionAlike old new r (some e) (some e')

inductive Block.Alike (old new : String) : Bool → Block → Block → Prop where
  | mk {r behind ss ss' t t' span} (stmts : StmtsAlike old new r ss ss' behind) (tail : OptionAlike old new behind t t') :
      Block.Alike old new r (.mk ss t span) (.mk ss' t' span)

end

/-- The statements of a top level, where no local is bound. -/
inductive TopAlike (old new : String) : List Stmt → List Stmt → Prop where
  | nil : TopAlike old new [] []
  | cons {s s' ss ss'} (first : Stmt.Alike old new false s s' false) (rest : TopAlike old new ss ss') :
      TopAlike old new (s :: ss) (s' :: ss')

/-- Two fragments are alike. -/
structure Fragment.Alike (old new : String) (f f' : Fragment) : Prop where
  stmts : TopAlike old new f.stmts f'.stmts
  tail : OptionAlike old new false f.tail f'.tail
  span : f'.span = f.span

section
variable {old new : String}

theorem paramsAlike_refl : (ps : List Ident) → (∀ p ∈ ps, p.name ≠ new) → ParamsAlike old new false ps ps false
  | [], _ => .nil
  | _ :: ps, fresh =>
    have ⟨first, rest⟩ := List.forall_mem_cons.mp fresh
    .cons (.same first) (paramsAlike_refl ps rest)

mutual

/-- Without a renamed local around it, a tree is like itself. -/
theorem Expr.alike_refl : (e : Expr) → e.Lacks new → Expr.Alike old new false e e
  | .name _, fresh => .name (.same fresh nofun)
  | .path .., _ => .path
  | .literal .., _ => .literal
  | .binary _ left right _, fresh => .binary (left.alike_refl fresh.1) (right.alike_refl fresh.2)
  | .unary _ operand _, fresh => .unary (operand.alike_refl fresh)
  | .call callee args _, fresh => .call (callee.alike_refl fresh.1) (exprsAlike_refl args fresh.2)
  | .index base position _, fresh => .index (base.alike_refl fresh.1) (position.alike_refl fresh.2)
  | .list items _, fresh => .list (exprsAlike_refl items fresh)
  | .branch b, fresh => .branch (b.alike_refl fresh)
  | .block b, fresh => .block (b.alike_refl fresh)

theorem exprsAlike_refl : (es : List Expr) → ExprsLack new es → ExprsAlike old new false es es
  | [], _ => .nil
  | e :: es, fresh => .cons (e.alike_refl fresh.1) (exprsAlike_refl es fresh.2)

theorem Branch.alike_refl : (b : Branch) → b.Lacks new → Branch.Alike old new false b b
  | .mk condition body other _, fresh =>
    .mk (condition.alike_refl fresh.1) (body.alike_refl fresh.2.1) (other.alike_refl fresh.2.2)

theorem Otherwise.alike_refl : (o : Otherwise) → o.Lacks new → Otherwise.Alike old new false o o
  | .nothing, _ => .nothing
  | .block b, fresh => .block (b.alike_refl fresh)
  | .branch b, fresh => .branch (b.alike_refl fresh)

theorem Stmt.alike_refl : (s : Stmt) → s.Lacks new → Stmt.Alike old new false s s false
  | .bind _ _ value _, fresh => .bind (optionAlike_refl value fresh.2) (.same fresh.1)
  | .assign _ value _, fresh => .assign (value.alike_refl fresh.2) (.same fresh.1 nofun)
  | .setIndex base position value _, fresh =>
    .setIndex (base.alike_refl fresh.1) (position.alike_refl fresh.2.1) (value.alike_refl fresh.2.2)
  | .func _ params body _, fresh => .func fresh.1 (paramsAlike_refl params fresh.2.1) (body.alike_refl fresh.2.2)
  | .eval e, fresh => .eval (e.alike_refl fresh)
  | .ret value _, fresh => .ret (optionAlike_refl value fresh)
  | .loop condition body _, fresh => .loop (condition.alike_refl fresh.1) (body.alike_refl fresh.2)
  | .leave _, _ => .leave
  | .next _, _ => .next

theorem stmtsAlike_refl : (ss : List Stmt) → StmtsLack new ss → StmtsAlike old new false ss ss false
  | [], _ => .nil
  | s :: ss, fresh => .cons (s.alike_refl fresh.1) (stmtsAlike_refl ss fresh.2)

theorem optionAlike_refl : (e : Option Expr) → OptionLacks new e → OptionAlike old new false e e
  | none, _ => .none
  | some e, fresh => .some (e.alike_refl fresh)

theorem Block.alike_refl : (b : Block) → b.Lacks new → Block.Alike old new false b b
  | .mk body last _, fresh => .mk (stmtsAlike_refl body fresh.1) (optionAlike_refl last fresh.2)

end

theorem refers_rename (old : String) {ident : Ident} (fresh : ident.name ≠ new) :
    ∃ name, renameIdent old new ident = { ident with name := name } ∧ Refers old new true ident.name name := by
  unfold renameIdent
  split
  · rename_i h
    exact ⟨new, rfl, h ▸ .changed⟩
  · rename_i h
    exact ⟨ident.name, rfl, .same fresh fun _ => h⟩

mutual

/-- With the renamed local around it, a tree is like the tree in which its names are renamed. -/
theorem Expr.alike_rename : (e : Expr) → e.Lacks new → Expr.Alike old new true e (e.rename old new)
  | .name _, fresh => by
    obtain ⟨name, same, h⟩ := refers_rename old fresh
    rw [Expr.rename, same]
    exact .name h
  | .path .., _ => .path
  | .literal .., _ => .literal
  | .binary _ left right _, fresh => .binary (left.alike_rename fresh.1) (right.alike_rename fresh.2)
  | .unary _ operand _, fresh => .unary (operand.alike_rename fresh)
  | .call callee args _, fresh => .call (callee.alike_rename fresh.1) (exprsAlike_rename args fresh.2)
  | .index base position _, fresh => .index (base.alike_rename fresh.1) (position.alike_rename fresh.2)
  | .list items _, fresh => .list (exprsAlike_rename items fresh)
  | .branch b, fresh => .branch (b.alike_rename fresh)
  | .block b, fresh => .block (b.alike_rename fresh)

theorem exprsAlike_rename : (es : List Expr) → ExprsLack new es → ExprsAlike old new true es (exprsRename old new es)
  | [], _ => .nil
  | e :: es, fresh => .cons (e.alike_rename fresh.1) (exprsAlike_rename es fresh.2)

theorem Branch.alike_rename : (b : Branch) → b.Lacks new → Branch.Alike old new true b (b.rename old new)
  | .mk condition body other _, fresh =>
    .mk (condition.alike_rename fresh.1) (body.alike_rename fresh.2.1) (other.alike_rename fresh.2.2)

theorem Otherwise.alike_rename : (o : Otherwise) → o.Lacks new → Otherwise.Alike old new true o (o.rename old new)
  | .nothing, _ => .nothing
  | .block b, fresh => .block (b.alike_rename fresh)
  | .branch b, fresh => .branch (b.alike_rename fresh)

theorem Stmt.alike_rename : (s : Stmt) → s.Lacks new →
    Stmt.Alike old new true s (s.rename old new) !s.declares old
  | .bind _ _ value _, fresh => .bind (optionAlike_rename value fresh.2) (.same fresh.1)
  | .assign _ value _, fresh => by
    obtain ⟨name, same, h⟩ := refers_rename old fresh.1
    rw [Stmt.rename, same]
    exact .assign (value.alike_rename fresh.2) h
  | .setIndex base position value _, fresh =>
    .setIndex (base.alike_rename fresh.1) (position.alike_rename fresh.2.1) (value.alike_rename fresh.2.2)
  | .func _ params body _, fresh => .func fresh.1 (paramsAlike_refl params fresh.2.1) (body.alike_refl fresh.2.2)
  | .eval e, fresh => .eval (e.alike_rename fresh)
  | .ret value _, fresh => .ret (optionAlike_rename value fresh)
  | .loop condition body _, fresh => .loop (condition.alike_rename fresh.1) (body.alike_rename fresh.2)
  | .leave _, _ => .leave
  | .next _, _ => .next

theorem stmtsAlike_rename : (ss : List Stmt) → StmtsLack new ss →
    StmtsAlike old new true ss (stmtsRename old new ss) !ss.any (Stmt.declares old)
  | [], _ => .nil
  | s :: ss, fresh => by
    have first := s.alike_rename fresh.1
    rw [stmtsRename, List.any_cons]
    cases hs : s.declares old with
    | true =>
      rw [hs] at first
      exact .cons first (stmtsAlike_refl ss fresh.2)
    | false =>
      rw [hs] at first
      exact .cons first (stmtsAlike_rename ss fresh.2)

theorem optionAlike_rename : (e : Option Expr) → OptionLacks new e → OptionAlike old new true e (optionRename old new e)
  | none, _ => .none
  | some e, fresh => .some (e.alike_rename fresh)

theorem Block.alike_rename : (b : Block) → b.Lacks new → Block.Alike old new true b (b.rename old new)
  | .mk body last _, fresh => by
    have stmts := stmtsAlike_rename body fresh.1
    cases hbody : body.any (Stmt.declares old) with
    | true =>
      rw [hbody] at stmts
      rw [Block.rename, if_pos hbody]
      exact .mk stmts (optionAlike_refl last fresh.2)
    | false =>
      rw [hbody] at stmts
      rw [Block.rename, if_neg (Bool.eq_false_iff.mp hbody)]
      exact .mk stmts (optionAlike_rename last fresh.2)

end

theorem StmtsAlike.append {r mid behind : Bool} {ss ss' tt tt' : List Stmt} (h : StmtsAlike old new r ss ss' mid)
    (more : StmtsAlike old new mid tt tt' behind) : StmtsAlike old new r (ss ++ tt) (ss' ++ tt') behind :=
  match h with
  | .nil => more
  | .cons first rest => .cons first (rest.append more)

/-- Parameters behind a renamed one, which they may hide. -/
theorem paramsAlike_hide (r : Bool) : (ps : List Ident) → (∀ p ∈ ps, p.name ≠ new) →
    ParamsAlike old new r ps ps (r && !ps.any (·.name = old))
  | [], _ => by
    rw [List.any_nil, Bool.not_false, Bool.and_true]
    exact .nil
  | p :: ps, fresh => by
    obtain ⟨first, rest⟩ := List.forall_mem_cons.mp fresh
    rw [List.any_cons, Bool.not_or, ← Bool.and_assoc]
    exact .cons (.same first) (paramsAlike_hide _ ps rest)

/-- The parameters of a function, one of which is renamed. -/
theorem paramsAlike_rename (before : List Ident) {after : List Ident} {place : Span}
    (fresh : ∀ p ∈ before ++ ⟨old, place⟩ :: after, p.name ≠ new) :
    ParamsAlike old new false (before ++ ⟨old, place⟩ :: after) (before ++ ⟨new, place⟩ :: after)
      !after.any (·.name = old) := by
  induction before with
  | nil =>
    obtain ⟨-, rest⟩ := List.forall_mem_cons.mp fresh
    exact .cons .changed (paramsAlike_hide true after rest)
  | cons p before ih =>
    obtain ⟨first, rest⟩ := List.forall_mem_cons.mp fresh
    exact .cons (.same first) (ih rest)

theorem topAlike_refl : (ss : List Stmt) → StmtsLack new ss → TopAlike old new ss ss
  | [], _ => .nil
  | s :: ss, fresh => .cons (s.alike_refl fresh.1) (topAlike_refl ss fresh.2)

mutual

/-- What a renaming makes of a tree is like the tree. -/
theorem Expr.Renames.alike {e e' : Expr} : Expr.Renames old new e e' → e.Lacks new → Expr.Alike old new false e e'
  | .left h, fresh => .binary (h.alike fresh.1) (Expr.alike_refl _ fresh.2)
  | .right h, fresh => .binary (Expr.alike_refl _ fresh.1) (h.alike fresh.2)
  | .operand h, fresh => .unary (h.alike fresh)
  | .callee h, fresh => .call (h.alike fresh.1) (exprsAlike_refl _ fresh.2)
  | .args h, fresh => .call (Expr.alike_refl _ fresh.1) (h.alike fresh.2)
  | .base h, fresh => .index (h.alike fresh.1) (Expr.alike_refl _ fresh.2)
  | .position h, fresh => .index (Expr.alike_refl _ fresh.1) (h.alike fresh.2)
  | .items h, fresh => .list (h.alike fresh)
  | .branch h, fresh => .branch (h.alike fresh)
  | .block h, fresh => .block (h.alike fresh)

theorem ExprsRenames.alike {es es' : List Expr} : ExprsRenames old new es es' → ExprsLack new es →
    ExprsAlike old new false es es'
  | .head h, fresh => .cons (h.alike fresh.1) (exprsAlike_refl _ fresh.2)
  | .tail h, fresh => .cons (Expr.alike_refl _ fresh.1) (h.alike fresh.2)

theorem Branch.Renames.alike {b b' : Branch} : Branch.Renames old new b b' → b.Lacks new → Branch.Alike old new false b b'
  | .condition h, fresh => .mk (h.alike fresh.1) (Block.alike_refl _ fresh.2.1) (Otherwise.alike_refl _ fresh.2.2)
  | .body h, fresh => .mk (Expr.alike_refl _ fresh.1) (h.alike fresh.2.1) (Otherwise.alike_refl _ fresh.2.2)
  | .other h, fresh => .mk (Expr.alike_refl _ fresh.1) (Block.alike_refl _ fresh.2.1) (h.alike fresh.2.2)

theorem Otherwise.Renames.alike {o o' : Otherwise} : Otherwise.Renames old new o o' → o.Lacks new →
    Otherwise.Alike old new false o o'
  | .block h, fresh => .block (h.alike fresh)
  | .branch h, fresh => .branch (h.alike fresh)

theorem Stmt.Renames.alike {s s' : Stmt} : Stmt.Renames old new s s' → s.Lacks new → Stmt.Alike old new false s s' false
  | .bind h, fresh => .bind (.some (h.alike fresh.2)) (.same fresh.1)
  | .assign h, fresh => .assign (h.alike fresh.2) (.same fresh.1 nofun)
  | .base h, fresh => .setIndex (h.alike fresh.1) (Expr.alike_refl _ fresh.2.1) (Expr.alike_refl _ fresh.2.2)
  | .position h, fresh => .setIndex (Expr.alike_refl _ fresh.1) (h.alike fresh.2.1) (Expr.alike_refl _ fresh.2.2)
  | .value h, fresh => .setIndex (Expr.alike_refl _ fresh.1) (Expr.alike_refl _ fresh.2.1) (h.alike fresh.2.2)
  | @Stmt.Renames.param _ _ name before after body span place, fresh => by
    have params := paramsAlike_rename before fresh.2.1
    -- The new name stands for the parameter in the body, unless a later parameter is called as it was.
    cases hafter : after.any (·.name = old) with
    | true =>
      rw [hafter] at params
      exact .func fresh.1 params (body.alike_refl fresh.2.2)
    | false =>
      rw [hafter] at params
      exact .func fresh.1 params (body.alike_rename fresh.2.2)
  | .func h, fresh => .func fresh.1 (paramsAlike_refl _ fresh.2.1) (h.alike fresh.2.2)
  | .eval h, fresh => .eval (h.alike fresh)
  | .ret h, fresh => .ret (.some (h.alike fresh))
  | .condition h, fresh => .loop (h.alike fresh.1) (Block.alike_refl _ fresh.2)
  | .loop h, fresh => .loop (Expr.alike_refl _ fresh.1) (h.alike fresh.2)

theorem StmtsRenames.alike {ss ss' : List Stmt} : StmtsRenames old new ss ss' → StmtsLack new ss →
    StmtsAlike old new false ss ss' false
  | .head h, fresh => .cons (h.alike fresh.1) (stmtsAlike_refl _ fresh.2)
  | .tail h, fresh => .cons (Stmt.alike_refl _ fresh.1) (h.alike fresh.2)

theorem Block.Renames.alike {b b' : Block} : Block.Renames old new b b' → b.Lacks new → Block.Alike old new false b b'
  | @Block.Renames.bind _ _ before after mutable value last span here place, fresh => by
    obtain ⟨hstmts, hlast⟩ := fresh
    obtain ⟨hbefore, ⟨-, hvalue⟩, hafter⟩ := stmtsLack_append hstmts
    have declared : Stmt.Alike old new false (.bind ⟨old, place⟩ mutable value here) (.bind ⟨new, place⟩ mutable value here)
        true := .bind (optionAlike_refl value hvalue) .changed
    have stmts := (stmtsAlike_refl before hbefore).append (.cons declared (stmtsAlike_rename after hafter))
    refine .mk stmts ?_
    -- The tail is in the scope, unless the name is bound again before it.
    cases hafter : after.any (Stmt.declares old) with
    | true => exact optionAlike_refl last hlast
    | false => exact optionAlike_rename last hlast
  | .stmts h, fresh => .mk (h.alike fresh.1) (optionAlike_refl _ fresh.2)
  | .tail h, fresh => .mk (stmtsAlike_refl _ fresh.1) (.some (h.alike fresh.2))

end

theorem StmtsRenames.topAlike {ss ss' : List Stmt} : StmtsRenames old new ss ss' → StmtsLack new ss →
    TopAlike old new ss ss'
  | .head h, fresh => .cons (h.alike fresh.1) (topAlike_refl _ fresh.2)
  | .tail h, fresh => .cons (Stmt.alike_refl _ fresh.1) (h.topAlike fresh.2)

/-- What a renaming makes of a fragment is like the fragment. -/
theorem Fragment.Renames.alike {f f' : Fragment} (h : Fragment.Renames old new f f') (fresh : f.Lacks new) :
    Fragment.Alike old new f f' := by
  cases h with
  | stmts h => exact ⟨h.topAlike fresh.1, optionAlike_refl _ fresh.2, rfl⟩
  | tail h => exact ⟨topAlike_refl _ fresh.1, .some (h.alike fresh.2), rfl⟩

end

end ScriptEngine.Tree
