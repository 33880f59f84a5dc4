import ScriptEngine.Proofs.ReaderOutcomes
import ScriptEngine.Proofs.Sequencing

/-! The height of syntax trees. A reader counts levels in the peak of its cursor: a construct that nests is counted when it
    is entered, and a chain of operators, calls or indices when its next link is put around it. What is counted is at
    least the height of what was read (`Level.Counts`), so no tree is higher than the limit (`Fragment.parse_height`). -/

namespace ScriptEngine.Tree

/-! ### Heights -/

mutual

/-- An expression is one level higher than the highest of its parts. -/
def Expr.height : Expr → Nat
  | .name _ | .path .. | .literal .. => 1
  | .binary _ left right _ => max left.height right.height + 1
  | .unary _ operand _ => operand.height + 1
  | .call callee args _ => max callee.height (Expr.heightAll args) + 1
  | .index base position _ => max base.height position.height + 1
  | .list items _ => Expr.heightAll items + 1
  | .branch b => b.height + 1
  | .block b => b.height + 1

def Expr.heightAll : List Expr → Nat
  | [] => 0
  | e :: es => max e.height (Expr.heightAll es)

def Expr.heightIfAny : Option Expr → Nat
  | none => 0
  | some e => e.height

/-- A conditional is a level of its own, and so is one that stands behind `else`. -/
def Branch.height : Branch → Nat
  | .mk condition body otherwise _ => max condition.height (max body.height otherwise.height) + 1

def Otherwise.height : Otherwise → Nat
  | .nothing => 0
  | .block b => b.height
  | .branch b => b.height

/-- A statement is as high as the highest of its parts. -/
def Stmt.height : Stmt → Nat
  | .bind _ _ value _ | .ret value _ => Expr.heightIfAny value
  | .assign _ value _ => value.height
  | .setIndex base position value _ => max base.height (max position.height value.height)
  | .func _ _ body _ => body.height
  | .eval e => e.height
  | .loop condition body _ => max condition.height body.height
  | .leave _ | .next _ => 0

def Stmt.heightAll : List Stmt → Nat
  | [] => 0
  | s :: rest => max s.height (Stmt.heightAll rest)

def Block.height : Block → Nat
  | .mk stmts tail _ => max (Stmt.heightAll stmts) (Expr.heightIfAny tail) + 1

end

attribute [simp] Expr.height Expr.heightAll Expr.heightIfAny Branch.height Otherwise.height Stmt.height Stmt.heightAll
  Block.height

def Level.Item.height : Item → Nat
  | .stmt s => s.height
  | .tail e => e.height

/-- A minus that becomes part of an integer adds no level. -/
theorem Level.height_applyUnary (op : UnaryOp) (start : Nat) (e : Expr) :
    (applyUnary op start e).height ≤ e.height + 1 := by
  unfold applyUnary
  split
  · rw [Expr.height, Expr.height]
    exact Nat.le_succ 1
  · exact Nat.le_refl _

/-! ### Peaks -/

/-- From one place to another the peak does not fall, and then it is at least so high; it stays within the limit. -/
structure Cursor.Rises (c : Cursor) (level : Nat) (c' : Cursor) : Prop where
  peak : c.peak ≤ c'.peak
  level : level ≤ c'.peak
  bounded : c.peak ≤ maxNesting → c'.peak ≤ maxNesting

namespace Cursor

variable {c c' c'' : Cursor} {n k : Nat}

theorem rises_refl (h : n ≤ c.peak) : c.Rises n c := ⟨Nat.le_refl _, h, id⟩

theorem rises_advance (h : n ≤ c.peak) : c.Rises n c.advance := by
  have same := c.advance_peak
  exact ⟨Nat.le_of_eq same.symm, same ▸ h, fun bounded => same ▸ bounded⟩

theorem Rises.mono (h : c.Rises n c') (hle : k ≤ n) : c.Rises k c' := ⟨h.peak, Nat.le_trans hle h.level, h.bounded⟩

theorem Rises.trans (h : c.Rises n c') (h' : c'.Rises k c'') : c.Rises (max n k) c'' where
  peak := Nat.le_trans h.peak h'.peak
  level := Nat.max_le.mpr ⟨Nat.le_trans h.level h'.peak, h'.level⟩
  bounded := h'.bounded ∘ h.bounded

/-- What comes before adds no level. -/
theorem Rises.after (h : c.Rises n c') (h' : c'.Rises k c'') : c.Rises k c'' := (h.trans h').mono (Nat.le_max_right ..)

theorem Rises.advance (h : c.Rises n c') : c.Rises n c'.advance :=
  (h.trans (rises_advance (Nat.zero_le _))).mono (Nat.le_max_left ..)

/-- A chain is measured from its own level on, and what surrounds it is then at least as high. -/
theorem Rises.chain {depth : Nat} (h : ({ c with peak := depth } : Cursor).Rises n c') (hdepth : depth ≤ maxNesting) :
    c.Rises n { c' with peak := max c'.peak c.peak } where
  peak := Nat.le_max_right ..
  level := Nat.le_trans h.level (Nat.le_max_left ..)
  bounded hc := Nat.max_le.mpr ⟨h.bounded hdepth, hc⟩

theorem Rises.deepen (h : c.Rises n c') (room : c'.peak + 1 ≤ maxNesting) :
    c.Rises (n + 1) { c' with peak := c'.peak + 1 } where
  peak := Nat.le_succ_of_le h.peak
  level := Nat.succ_le_succ h.level
  bounded _ := room

theorem Rises.enter {depth : Nat} (h : ({ c with peak := max c.peak depth } : Cursor).Rises n c')
    (hdepth : depth ≤ maxNesting) : c.Rises n c' where
  peak := Nat.le_trans (Nat.le_max_left ..) h.peak
  level := h.level
  bounded hc := h.bounded (Nat.max_le.mpr ⟨hc, hdepth⟩)

end Cursor

/-! ### Levels -/

open ScriptEngine.Tree.Parser

/-- What the readers of a level read is counted in levels below that one. -/
structure Level.Counts (l : Level) : Prop where
  depth : l.depth ≤ maxNesting
  unary (braces : Bool) (c : Cursor) : Gets (l.unary braces) c fun e c' => c.Rises (l.depth + e.height) c'
  block (braces : Bool) (c : Cursor) : Gets (l.block braces) c fun b c' => c.Rises (l.depth + b.height) c'
  branch (braces : Bool) (c : Cursor) : Gets (l.branch braces) c fun b c' => c.Rises (l.depth + b.height) c'

namespace Level

section
variable {l : Level} {braces : Bool} {c : Cursor}

theorem counts_climb (hl : l.Counts) (fuel least : Nat) {left : Expr} (hleft : l.depth + left.height ≤ c.peak) :
    Gets (l.climb braces fuel least left) c fun e c' => c.Rises (l.depth + e.height) c' := by
  induction fuel generalizing least left c with
  | zero => exact Cursor.rises_refl hleft
  | succ fuel ih =>
    refine comes_get ?_
    split
    · exact Cursor.rises_refl hleft
    · rename_i op _
      refine comes_ite (fun _ => Cursor.rises_refl hleft) fun _ => ?_
      refine comes_next (comes_openChain ?_)
      refine comes_bind (hl.unary braces _) fun first c₁ hfirst => ?_
      refine comes_bind (ih _ hfirst.level) fun right c₂ hright => ?_
      refine comes_closeChain (comes_deepen (fun room => ?_) trivial)
      -- The left operand was counted before the chain of the right one was opened.
      have both := ((Cursor.rises_advance hleft).trans ((hfirst.after hright).chain hl.depth)).deepen room
      have node := both.mono (k := l.depth + (Expr.binary op left right (left.span.cover right.span)).height)
        (by rw [Expr.height]; omega)
      exact (ih _ node.level).imp (fun e c' he => node.after he) fun _ _ => id

theorem counts_expression (hl : l.Counts) :
    Gets (l.expression braces) c fun e c' => c.Rises (l.depth + e.height) c' := by
  refine comes_openChain (comes_bind (hl.unary braces _) fun first c₁ hfirst => comes_get ?_)
  refine comes_bind (counts_climb hl _ _ hfirst.level) fun e c₂ he => ?_
  exact comes_closeChain ((hfirst.after he).chain hl.depth)

theorem counts_items (hl : l.Counts) (close : Mark) (fuel : Nat) (hc : l.depth ≤ c.peak) :
    Gets (l.items close fuel) c fun es c' => c.Rises (l.depth + Expr.heightAll es) c' := by
  induction fuel generalizing c with
  | zero => exact Cursor.rises_refl hc
  | succ fuel ih =>
    refine comes_get (comes_ite (fun _ => Cursor.rises_refl hc) fun _ => ?_)
    refine comes_bind (counts_expression hl) fun e c₁ he => comes_takeMark (fun _ => ?_) ?_
    · have before := he.advance
      refine comes_bind (ih (Nat.le_trans (Nat.le_add_right ..) before.level)) fun es c₂ hes => ?_
      exact (before.trans hes).mono (by rw [Expr.heightAll]; omega)
    · exact he.mono (by rw [Expr.heightAll, Expr.heightAll]; omega)

theorem counts_closedItems (hl : l.Counts) (close : Mark) (hc : l.depth ≤ c.peak) :
    Gets (l.closedItems close) c fun r c' => c.Rises (l.depth + Expr.heightAll r.1) c' :=
  comes_get (comes_bind (counts_items hl close _ hc) fun _ _ hes => comes_expect (fun _ => hes.advance) trivial)

/-- A name, with or without a library, is one level. -/
theorem counts_nameOrPath (hc : l.depth ≤ c.peak) :
    Gets nameOrPath c fun e c' => c.Rises (l.depth + (e.height - 1)) c' := by
  refine comes_ident (fun _ _ => comes_takeMark (fun _ => comes_ident (fun _ _ => ?_) trivial) ?_) trivial
  · exact (Cursor.rises_advance hc).advance.advance
  · exact Cursor.rises_advance hc

theorem counts_primary (hl : l.Counts) (hc : l.depth ≤ c.peak) :
    Gets (l.primary braces) c fun e c' => c.Rises (l.depth + (e.height - 1)) c' := by
  have literal {value : Literal} : Gets (next >>= fun span => pure (Expr.literal value span)) c fun e c' =>
      c.Rises (l.depth + (e.height - 1)) c' :=
    comes_next (Cursor.rises_advance hc)
  refine comes_takeKeyword (fun _ => ?_) ?_
  · refine comes_bind (hl.branch braces _) fun b c₁ hb => ?_
    exact (Cursor.rises_advance hc).after hb
  refine comes_get (comes_ite (fun _ => comes_bind (hl.block braces c) fun b c₁ hb => hb) fun _ => comes_get ?_)
  split
  · exact counts_nameOrPath hc
  · exact literal
  · exact literal
  · exact literal
  · exact literal
  · exact literal
  · refine comes_next (comes_bind (counts_expression hl) fun e c₁ he => comes_expect (fun _ => ?_) trivial)
    exact (((Cursor.rises_advance hc).after he).mono (by omega)).advance
  · refine comes_next (comes_bind (counts_closedItems hl _ ?_) fun r c₁ hr => ?_)
    · exact (Cursor.rises_advance hc).level
    · exact (Cursor.rises_advance hc).after hr
  · exact trivial

theorem counts_suffixes (hl : l.Counts) (fuel : Nat) {e : Expr} (he : l.depth + (e.height - 1) ≤ c.peak) :
    Gets (l.suffixes braces fuel e) c fun e' c' => c.Rises (l.depth + (e'.height - 1)) c' := by
  induction fuel generalizing e c with
  | zero => exact Cursor.rises_refl he
  | succ fuel ih =>
    have opened := Cursor.rises_advance he
    refine comes_takeMark (fun _ => ?_) (comes_takeMark (fun _ => ?_) (Cursor.rises_refl he))
    · have hdepth := Nat.le_trans (Nat.le_add_right ..) opened.level
      refine comes_bind (counts_closedItems hl _ hdepth) fun r c₁ hr => comes_deepen (fun room => ?_) trivial
      have node := ((opened.trans hr).deepen room).mono (k := l.depth + ((Expr.call e r.1 ⟨e.span.start, r.2⟩).height - 1))
        (by rw [Expr.height]; omega)
      exact (ih node.level).imp (fun e' c' he' => node.after he') fun _ _ => id
    · refine comes_bind (counts_expression hl) fun position c₁ hposition => comes_expect (fun _ => ?_) trivial
      refine comes_deepen (fun room => ?_) trivial
      have node := ((opened.trans hposition).advance.deepen room).mono
        (k := l.depth + ((Expr.index e position ⟨e.span.start, c₁.advance.previous.stop⟩).height - 1))
        (by rw [Expr.height]; omega)
      exact (ih node.level).imp (fun e' c' he' => node.after he') fun _ _ => id

theorem counts_operand (hl : l.Counts) :
    Gets (l.operand braces) c fun e c' => c.Rises (l.depth + (e.height - 1)) c' := by
  refine comes_openChain (comes_bind (counts_primary hl (Nat.le_refl _)) fun first c₁ hfirst => comes_get ?_)
  refine comes_bind (counts_suffixes hl _ hfirst.level) fun e c₂ he => ?_
  exact comes_closeChain ((hfirst.after he).chain hl.depth)

theorem counts_unaryBody (hl : l.Counts) :
    Gets (l.unaryBody braces) c fun e c' => c.Rises (l.depth + (e.height - 1)) c' := by
  refine comes_get ?_
  split
  · rename_i op _
    refine comes_next (comes_bind (hl.unary braces _) fun e c₁ he => ?_)
    have hle := height_applyUnary op c.advance.previous.start e
    exact ((Cursor.rises_advance (Nat.zero_le _)).after he).mono (by omega)
  · exact counts_operand hl

theorem counts_otherwise (hl : l.Counts) (hc : l.depth ≤ c.peak) :
    Gets (l.otherwise braces) c fun o c' => c.Rises (l.depth + o.height) c' := by
  have first := Cursor.rises_advance hc
  refine comes_takeKeyword (fun _ => ?_) (Cursor.rises_refl hc)
  refine comes_takeKeyword (fun _ => ?_) ?_
  · exact comes_bind (hl.branch braces _) fun b c₁ hb => first.advance.after hb
  · exact comes_bind (hl.block braces _) fun b c₁ hb => first.after hb

theorem counts_branchBody (hl : l.Counts) :
    Gets (l.branchBody braces) c fun b c' => c.Rises (l.depth + (b.height - 1)) c' := by
  refine comes_get (comes_bind (counts_expression hl) fun condition c₁ hcondition => ?_)
  refine comes_bind (hl.block braces _) fun body c₂ hbody => ?_
  refine comes_bind (counts_otherwise hl (Nat.le_trans (Nat.le_add_right ..) hbody.level)) fun o c₃ ho => ?_
  exact ((hcondition.trans hbody).trans ho).mono (by rw [Branch.height]; omega)

/-! ### Statements -/

theorem counts_bindStmt (hl : l.Counts) {start : Nat} (hc : l.depth ≤ c.peak) :
    Gets (l.bindStmt braces start) c fun s c' => c.Rises (l.depth + s.height) c' := by
  have named {mutable : Bool} {c' : Cursor} (h : c.Rises l.depth c') : Gets (do
      let name ← ident .expectedBindingName
      if ← takeMark .eq then
        let value ← l.expression braces
        let _ ← expect .semicolon
        return Stmt.bind name mutable (some value) ⟨start, value.span.stop⟩
      else
        let _ ← expect .semicolon
        return Stmt.bind name mutable none ⟨start, name.span.stop⟩) c' fun s c' => c.Rises (l.depth + s.height) c' := by
    refine comes_ident (fun _ _ => comes_takeMark (fun _ => ?_) ?_) trivial
    · refine comes_bind (counts_expression hl) fun value c₁ hvalue => comes_expect (fun _ => ?_) trivial
      exact (h.advance.advance.after hvalue).advance
    · exact comes_expect (fun _ => h.advance.advance) trivial
  exact comes_takeKeyword (fun _ => named (Cursor.rises_advance hc)) (named (Cursor.rises_refl hc))

theorem counts_params (fuel : Nat) {n : Nat} (hc : n ≤ c.peak) : Gets (params fuel) c fun _ c' => c.Rises n c' := by
  induction fuel generalizing c with
  | zero => exact Cursor.rises_refl hc
  | succ fuel ih =>
    refine comes_ident (fun _ _ => comes_takeMark (fun _ => ?_) (Cursor.rises_advance hc)) trivial
    have before := (Cursor.rises_advance hc).advance
    refine comes_get (comes_ite (fun _ => before) fun _ => ?_)
    exact comes_bind (ih before.level) fun _ _ hrest => before.after hrest

theorem counts_funcStmt (hl : l.Counts) {start : Nat} :
    Gets (l.funcStmt braces start) c fun s c' => c.Rises (l.depth + s.height) c' := by
  have body {name : Ident} {names : List Ident} {c' : Cursor} (h : c.Rises 0 c') : Gets (do
      let _ ← expect .closeParen
      let body ← l.block braces
      return Stmt.func name names body ⟨start, body.span.stop⟩) c' fun s c' => c.Rises (l.depth + s.height) c' :=
    comes_expect (fun _ => comes_bind (hl.block braces _) fun _ _ hbody => h.advance.after hbody) trivial
  refine comes_ident (fun _ _ => comes_expect (fun _ => comes_get ?_) trivial) trivial
  have before := (Cursor.rises_advance (Nat.zero_le c.peak)).advance
  refine comes_ite (fun _ => body before) fun _ => ?_
  exact comes_get (comes_bind (counts_params _ before.level) fun _ _ hnames => body (before.after hnames))

theorem counts_retStmt (hl : l.Counts) {start : Nat} (hc : l.depth ≤ c.peak) :
    Gets (l.retStmt braces start) c fun s c' => c.Rises (l.depth + s.height) c' := by
  refine comes_get (comes_ite (fun _ => comes_next (Cursor.rises_advance hc)) fun _ => ?_)
  exact comes_bind (counts_expression hl) fun _ _ hvalue => comes_expect (fun _ => hvalue.advance) trivial

theorem counts_loopStmt (hl : l.Counts) {start : Nat} :
    Gets (l.loopStmt braces start) c fun s c' => c.Rises (l.depth + s.height) c' := by
  refine comes_bind (counts_expression hl) fun condition c₁ hcondition => ?_
  refine comes_bind (hl.block braces _) fun body c₂ hbody => ?_
  exact (hcondition.trans hbody).mono (by rw [Stmt.height]; omega)

theorem counts_assignStmt (hl : l.Counts) {target : Expr} (htarget : l.depth + target.height ≤ c.peak) :
    Gets (l.assignStmt braces target) c fun s c' => c.Rises (l.depth + s.height) c' := by
  unfold assignStmt
  split
  · exact comes_bind (counts_expression hl) fun _ _ hvalue => comes_expect (fun _ => hvalue.advance) trivial
  · refine comes_bind (counts_expression hl) fun value c₁ hvalue => comes_expect (fun _ => ?_) trivial
    refine ((Cursor.rises_refl htarget).trans hvalue).advance.mono ?_
    rw [Stmt.height, Expr.height]
    omega
  · exact trivial

theorem counts_exprItem (hl : l.Counts) :
    Gets (l.exprItem braces) c fun item c' => c.Rises (l.depth + item.height) c' := by
  refine comes_bind (counts_expression hl) fun e c₁ he => comes_takeMark (fun _ => ?_) (comes_takeMark (fun _ => ?_) ?_)
  · exact comes_bind (counts_assignStmt hl he.advance.level) fun s c₂ hs => he.advance.after hs
  · exact he.advance
  · exact comes_get (comes_ite (fun _ => he) fun _ => he)

theorem counts_item (hl : l.Counts) (hc : l.depth ≤ c.peak) :
    Gets (l.item braces) c fun item c' => c.Rises (l.depth + item.height) c' := by
  have begun := Cursor.rises_advance hc
  have stmt {p : Parser Stmt} (hp : Gets p c.advance fun s c' => c.advance.Rises (l.depth + s.height) c') :
      Gets (p >>= fun s => pure (Item.stmt s)) c.advance fun item c' => c.Rises (l.depth + item.height) c' :=
    comes_bind hp fun _ _ hs => begun.after hs
  have control {s : Span → Stmt} (hs : ∀ span, (s span).height = 0) :
      Gets (next >>= fun span => expect .semicolon >>= fun _ => pure (Item.stmt (s span))) c fun item c' =>
        c.Rises (l.depth + item.height) c' :=
    comes_next (comes_expect (fun _ => begun.advance.mono (by rw [Item.height, hs]; exact Nat.le_refl _)) trivial)
  refine comes_get ?_
  split
  · exact comes_next (stmt (counts_bindStmt hl begun.level))
  · exact comes_next (stmt (counts_funcStmt hl))
  · exact comes_next (stmt (counts_retStmt hl begun.level))
  · exact comes_next (stmt (counts_loopStmt hl))
  · exact control fun _ => by rw [Stmt.height]
  · exact control fun _ => by rw [Stmt.height]
  · exact counts_exprItem hl

theorem counts_blockItems (hl : l.Counts) (fuel : Nat) (hc : l.depth ≤ c.peak) : Gets (l.blockItems braces fuel) c
    fun r c' => c.Rises (l.depth + max (Stmt.heightAll r.1) (Expr.heightIfAny r.2)) c' := by
  induction fuel generalizing c with
  | zero => exact Cursor.rises_refl hc
  | succ fuel ih =>
    refine comes_get (comes_ite (fun _ => Cursor.rises_refl hc) fun _ => comes_takeMark (fun _ => ?_) ?_)
    · have begun := Cursor.rises_advance hc
      exact (ih begun.level).imp (fun _ _ hr => begun.after hr) fun _ _ => id
    · refine comes_bind (counts_item hl hc) fun item c₁ hitem => ?_
      cases item with
      | tail e => exact hitem.mono (by rw [Stmt.heightAll, Expr.heightIfAny, Item.height]; omega)
      | stmt s =>
        refine comes_bind (ih (Nat.le_trans (Nat.le_add_right ..) hitem.level)) fun r c₂ hr => ?_
        refine (hitem.trans hr).mono ?_
        show l.depth + max (Stmt.heightAll (s :: r.1)) (Expr.heightIfAny r.2) ≤ _
        rw [Stmt.heightAll, Item.height]
        omega

theorem counts_blockBody (hl : l.Counts) (hc : l.depth ≤ c.peak) :
    Gets (l.blockBody braces) c fun b c' => c.Rises (l.depth + (b.height - 1)) c' := by
  have begun := Cursor.rises_advance hc
  refine comes_expect (fun _ => comes_get ?_) trivial
  refine comes_bind (counts_blockItems hl _ begun.level) fun r c₁ hr => comes_expect (fun _ => ?_) trivial
  exact (begun.after hr).advance

/-! ### All levels -/

theorem counts_floor : floor.Counts where
  depth := Nat.le_refl _
  unary _ _ := trivial
  block _ _ := trivial
  branch _ _ := trivial

theorem depth_around : l.around.depth = l.depth - 1 := rfl

/-- A construct that nests is one level above what the level inside counts. -/
theorem counts_around (hl : l.Counts) (hdepth : 0 < l.depth) : l.around.Counts := by
  have entered {n : Nat} {c c' : Cursor}
      (h : ({ c with peak := max c.peak l.depth } : Cursor).Rises (l.depth + (n - 1)) c') :
      c.Rises (l.around.depth + n) c' :=
    (h.enter hl.depth).mono (by rw [depth_around]; omega)
  refine ⟨Nat.le_trans (Nat.sub_le ..) hl.depth, fun braces c => ?_, fun braces c => ?_, fun braces c => ?_⟩
  · exact comes_enter ((counts_unaryBody hl).imp (fun _ _ => entered) fun _ _ => id)
  · exact comes_enter ((counts_blockBody hl (Nat.le_max_right ..)).imp (fun _ _ => entered) fun _ _ => id)
  · exact comes_enter ((counts_branchBody hl).imp (fun _ _ => entered) fun _ _ => id)

theorem depth_withRoom (room : Nat) : (withRoom room).depth = maxNesting - room := by
  induction room with
  | zero => rfl
  | succ room ih =>
    rw [withRoom, depth_around, ih]
    omega

theorem counts_withRoom {room : Nat} (hroom : room ≤ maxNesting) : (withRoom room).Counts := by
  induction room with
  | zero => exact counts_floor
  | succ room ih => exact counts_around (ih (Nat.le_of_succ_le hroom)) (by rw [depth_withRoom]; omega)

end
end Level

/-! ### Fragments -/

/-- Nothing that a reading gives is higher than the limit. -/
theorem Reading.ofCursor_height (fuel : Nat) (c : Cursor) :
    (∀ s ∈ (ofCursor fuel c).stmts, s.height ≤ maxNesting) ∧ ∀ e ∈ (ofCursor fuel c).tail, e.height ≤ maxNesting := by
  have nothing : (∀ s ∈ ([] : List Stmt), s.height ≤ maxNesting) ∧ ∀ e ∈ (none : Option Expr), e.height ≤ maxNesting :=
    ⟨fun _ h => (nomatch h), fun _ h => (nomatch h)⟩
  induction fuel generalizing c with
  | zero => exact nothing
  | succ fuel ih =>
    unfold ofCursor
    split
    · exact nothing
    split
    · exact ih _
    have hitem : Gets (Level.top.item true) { c with peak := 0 } fun item after =>
        ({ c with peak := 0 } : Cursor).Rises (Level.top.depth + item.height) after :=
      Level.counts_item (Level.counts_withRoom (Nat.le_refl _)) (Nat.le_of_eq (Level.depth_withRoom maxNesting))
    have within {n : Nat} {after : Cursor}
        (h : ({ c with peak := 0 } : Cursor).Rises (Level.top.depth + n) after) : n ≤ maxNesting :=
      Nat.le_trans (Nat.le_trans (Nat.le_add_left ..) h.level) (h.bounded (Nat.zero_le _))
    split
    · rename_i s after hrun
      exact ⟨List.forall_mem_cons.mpr ⟨within (hitem.ok hrun), (ih _).1⟩, (ih _).2⟩
    · rename_i e after hrun
      split
      · exact ⟨(ih _).1, fun _ he => Option.some.inj he ▸ within (hitem.ok hrun)⟩
      · exact ih _
    · exact ih _

/-- No statement and no tail of a fragment that can be read is higher than the limit. -/
theorem Fragment.parse_height {source : List Char} {f : Fragment} (h : parse source = .ok f) :
    (∀ s ∈ f.stmts, s.height ≤ maxNesting) ∧ ∀ e ∈ f.tail, e.height ≤ maxNesting := by
  unfold parse at h
  split at h
  · rename_i tokens _
    simp only [ofTokens] at h
    split at h
    · cases h
      exact Reading.ofCursor_height tokens.length ⟨tokens, ⟨0, 0⟩, 0⟩
    · cases h
  · cases h

/-- A sum of so many ones. -/
def sumOfOnes (count : Nat) : List Char := ['+'].intercalate (List.replicate count ['1'])

/-- A sum of 200 ones can be read, and it is as high as the limit. -/
theorem Fragment.parse_height_sum : ∃ f e, parse (sumOfOnes 200) = .ok f ∧ f.tail = some e ∧ e.height = maxNesting ∧
    (∀ s ∈ f.stmts, s.height ≤ maxNesting) ∧ ∀ e ∈ f.tail, e.height ≤ maxNesting := by
  have computes : ((parse (sumOfOnes 200)).toOption.any fun f => f.tail.any fun e => e.height = maxNesting) = true := by
    decide +kernel
  obtain ⟨f, hf, htail⟩ := (Option.any_eq_true ..).mp computes
  obtain ⟨e, he, hheight⟩ := (Option.any_eq_true ..).mp htail
  have hf := except_toOption_eq_some.mp hf
  exact ⟨f, e, hf, he, of_decide_eq_true hheight, Fragment.parse_height hf⟩

end ScriptEngine.Tree
