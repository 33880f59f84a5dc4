import ScriptEngine.Proofs.Evaluator
import ScriptEngine.Proofs.IntegerArithmetic
import ScriptEngine.Proofs.OrderOperators

/-! What single operations of the evaluator come to, where their operands are known: operators on integers, lengths and
    elements of texts and lists, joining of texts, and a number that is put at the end of a list. A length is counted in
    64 bits, so it is right as long as it fits. -/

namespace ScriptEngine

/-- A local of the running function. -/
def Bound.var (index : Nat) : Bound.Expr := .load (.frame index)

namespace Evaluator

/-! ### Operators on integers -/

section
variable {sc : Scope} {s : Store} {a b n : Int64}

theorem operate_lt : sc.operate .lt (.int a) (.int b) s = .done (.bool (decide (a.toInt < b.toInt))) s := by
  have order : (compare a b == .lt) = decide (a.toInt < b.toInt) := by
    rw [Bool.eq_iff_iff, beq_iff_eq, decide_eq_true_iff, Std.compare_eq_lt, Int64.lt_iff_toInt_lt]
  simp only [Scope.operate, Value.operate, Value.order, Except.map, order]
  rfl

theorem operate_gt : sc.operate .gt (.int a) (.int b) s = .done (.bool (decide (b.toInt < a.toInt))) s := by
  have order : (compare a b == .gt) = decide (b.toInt < a.toInt) := by
    rw [Bool.eq_iff_iff, beq_iff_eq, decide_eq_true_iff, Std.compare_eq_gt, Int64.lt_iff_toInt_lt]
  simp only [Scope.operate, Value.operate, Value.order, Except.map, order]
  rfl

theorem operate_ne : sc.operate .ne (.int a) (.int b) s = .done (.bool (decide (a ≠ b))) s := by
  have equal : (Value.int a).equals s.heap (.int b) = decide (a = b) := by
    rw [Value.equals_eq (.ints a b), Value.order?, Value.decide_eq_beq]
    rfl
  simp only [Scope.operate, Value.operate, World.view, equal, decide_not]
  rfl

theorem operate_add (h : n.toInt = a.toInt + b.toInt) : sc.operate .add (.int a) (.int b) s = .done (.int n) s := by
  simp only [Scope.operate, Value.operate, Value.arithmetic, Value.integer, Value.fitted_eq_ok.mpr h]
  rfl

theorem operate_sub (h : n.toInt = a.toInt - b.toInt) : sc.operate .sub (.int a) (.int b) s = .done (.int n) s := by
  simp only [Scope.operate, Value.operate, Value.arithmetic, Value.integer, Value.fitted_eq_ok.mpr h]
  rfl

theorem operate_mul (h : n.toInt = a.toInt * b.toInt) : sc.operate .mul (.int a) (.int b) s = .done (.int n) s := by
  simp only [Scope.operate, Value.operate, Value.arithmetic, Value.integer, Value.fitted_eq_ok.mpr h]
  rfl

theorem operate_mul_overflow (large : ∀ n : Int64, n.toInt ≠ a.toInt * b.toInt) :
    sc.operate .mul (.int a) (.int b) s = .fault (.overflow .mul) s := by
  simp only [Scope.operate, Value.operate, Value.arithmetic, Value.integer, Value.fitted_eq_error.mpr ⟨rfl, large⟩]
  rfl

theorem operate_rem (hb : 0 < b.toInt) : sc.operate .rem (.int a) (.int b) s = .done (.int (a % b)) s := by
  have nonzero : b ≠ 0 := by
    rintro rfl
    exact absurd hb (by decide)
  have least : ¬(a = Int64.minValue ∧ b = -1) := by
    rintro ⟨-, rfl⟩
    exact absurd hb (by decide)
  simp only [Scope.operate, Value.operate, Value.arithmetic, Value.integer_rem nonzero, if_neg least]
  rfl

end

/-! ### Counting -/

/-- A number between two that fit does. -/
theorem exists_toInt (low high : Int64) {n : Int} (hlow : low.toInt ≤ n) (hhigh : n ≤ high.toInt) : ∃ i : Int64, i.toInt = n := by
  have least := low.le_toInt
  have greatest := high.toInt_lt
  exact ⟨Int64.ofInt n, Int64.toInt_ofInt_of_le (by omega) (by omega)⟩

/-! ### Texts and lists -/

section
variable {sc : Scope} {s : Store}

theorem operate_add_text (a b : String) : sc.operate .add (.text a) (.text b) s = .done (.text (a ++ b)) s := by
  have shown : (Value.text b).display (sc.world.view s.heap) = b := String.empty_append
  have joined : (Value.text a).operate (sc.world.view s.heap) .add (.text b) =
      .ok (.value (.text (a ++ (Value.text b).display (sc.world.view s.heap)))) := rfl
  rw [Scope.operate, joined, shown]
  rfl

/-- An index that is a position of a sequence names it. -/
theorem position_int {i : Int64} {k length : Nat} (hi : i.toInt = k) (hk : k < length) :
    (Value.int i).position length = .ok k := by
  have htoNat : i.toInt.toNat = k := by omega
  rw [Value.position, if_pos (by omega), htoNat]

theorem element_text {h : Heap} {t : String} {i : Int64} {k : Nat} (hi : i.toInt = k) (hk : k < t.toList.length) :
    Value.element h (.text t) (.int i) = .ok (.text (String.ofList [t.toList[k]])) := by
  have found : Value.charAt? t k = some t.toList[k] := by rw [Value.charAt?_eq, List.getElem?_eq_getElem hk]
  rw [Value.element, position_int hi (String.length_toList ▸ hk)]
  simp only [Except.map, found]
  rfl

theorem element_list {h : Heap} {id : Nat} {i : Int64} {k : Nat} (hi : i.toInt = k) (hk : k < (h.items id).size) :
    Value.element h (.list id) (.int i) = .ok (h.items id)[k] := by
  rw [Value.element, position_int hi hk]
  simp only [Except.map, Array.getD, dif_pos hk]
  rfl

end
end Evaluator

/-- What is put at the end of a new list is found there. -/
theorem Heap.append_alloc (h : Heap) (items : Array Value) (v : Value) :
    (h.alloc items).1.append h.size v = (h.alloc (items.push v)).1 := by
  refine congrArg Heap.mk (Array.ext_getElem? fun i => ?_)
  simp only [alloc, size, Array.getElem?_modify, Array.getElem?_push]
  by_cases last : i = h.lists.size
  · rw [if_pos last, if_pos last.symm, if_pos last]
    rfl
  · rw [if_neg last, if_neg (Ne.symm last), if_neg last]

end ScriptEngine
