import ScriptEngine.Value

/-! Structural equality of values: lists are equal if they are the same list or have equal elements.

    Pairs still to be compared wait on a list, each with the number of levels that may still be
    entered below it. No chain of nested lists is longer than the heap, so on a heap without cycles
    the levels never run out. The last elements of two lists are compared first. -/

namespace ScriptEngine.Value

structure Pair where
  levels : Nat
  left : Value
  right : Value

/-- The elements of two lists of the same length, side by side. -/
def pairUp (levels : Nat) (xs ys : Array Value) : List Pair :=
  List.zipWith (fun x y => ⟨levels, x, y⟩) xs.toList ys.toList

/-- The elements of two lists of the same length, side by side, from the last to the first. -/
def pairDown (levels : Nat) (xs ys : Array Value) : List Pair := (pairUp levels xs ys).reverse

def longest : List (Array Value) → Nat
  | [] => 0
  | xs :: rest => max xs.size (longest rest)

/-- A bound on the work that a pair can still cause. -/
def Pair.weight (h : Heap) (p : Pair) : Nat := Nat.pow (longest h.lists.toList + 1) p.levels

def totalWeight (h : Heap) : List Pair → Nat
  | [] => 0
  | p :: ps => p.weight h + totalWeight h ps

theorem size_le_longest {lists : List (Array Value)} {xs : Array Value} (member : xs ∈ lists) :
    xs.size ≤ longest lists := by
  induction lists with
  | nil => simp at member
  | cons head rest ih =>
    simp only [longest]
    rcases List.mem_cons.mp member with rfl | member
    · omega
    · have := ih member
      omega

theorem items_size_le (h : Heap) (id : Nat) : (h.items id).size ≤ longest h.lists.toList := by
  unfold Heap.items
  by_cases bound : id < h.lists.size
  · have member : h.lists[id] ∈ h.lists.toList := by simp
    simpa [Array.getD, bound] using size_le_longest member
  · simp [Array.getD, bound]

theorem totalWeight_append (h : Heap) (ps qs : List Pair) :
    totalWeight h (ps ++ qs) = totalWeight h ps + totalWeight h qs := by
  induction ps with
  | nil => simp [totalWeight]
  | cons p ps ih =>
    simp only [List.cons_append, totalWeight, ih]
    omega

theorem totalWeight_reverse (h : Heap) (ps : List Pair) : totalWeight h ps.reverse = totalWeight h ps := by
  induction ps with
  | nil => rfl
  | cons p ps ih =>
    rw [List.reverse_cons, totalWeight_append, ih]
    simp only [totalWeight]
    omega

theorem weight_pos (h : Heap) (p : Pair) : 0 < p.weight h := Nat.pow_pos (Nat.succ_pos _)

theorem totalWeight_rest_lt (h : Heap) (p : Pair) (ps : List Pair) : totalWeight h ps < totalWeight h (p :: ps) := by
  have := weight_pos h p
  simp only [totalWeight]
  omega

/-- Pairs of equal level weigh as much as their number says. -/
theorem totalWeight_pairUp_le (h : Heap) (levels : Nat) (xs ys : Array Value) :
    totalWeight h (pairUp levels xs ys) ≤ xs.size * Nat.pow (longest h.lists.toList + 1) levels := by
  obtain ⟨xs⟩ := xs
  obtain ⟨ys⟩ := ys
  simp only [pairUp, List.size_toArray]
  induction xs generalizing ys with
  | nil => simp [totalWeight]
  | cons x xs ih =>
    cases ys with
    | nil => simp [totalWeight]
    | cons y ys =>
      have rest := ih ys
      simp only [totalWeight, List.zipWith_cons_cons, List.length_cons, Nat.succ_mul, Pair.weight]
      omega

/-- Opening a pair of lists leaves less work: there are fewer than a whole level of elements. -/
theorem totalWeight_open_lt (h : Heap) (levels i : Nat) (a b : Value) (ys : Array Value) (ps : List Pair) :
    totalWeight h (pairDown levels (h.items i) ys ++ ps) < totalWeight h (⟨levels + 1, a, b⟩ :: ps) := by
  have inner := totalWeight_pairUp_le h levels (h.items i) ys
  have size := items_size_le h i
  have opened : Pair.weight h ⟨levels + 1, a, b⟩ =
      Nat.pow (longest h.lists.toList + 1) levels * (longest h.lists.toList + 1) := rfl
  have positive : 0 < Nat.pow (longest h.lists.toList + 1) levels := Nat.pow_pos (Nat.succ_pos _)
  have strict : (h.items i).size * Nat.pow (longest h.lists.toList + 1) levels <
      Nat.pow (longest h.lists.toList + 1) levels * (longest h.lists.toList + 1) := by
    rw [Nat.mul_comm]
    exact Nat.mul_lt_mul_of_pos_left (by omega) positive
  rw [totalWeight_append, pairDown, totalWeight_reverse]
  simp only [totalWeight, opened]
  omega

/-- All waiting pairs are equal. -/
def allEqual (h : Heap) (pending : List Pair) : Bool :=
  match pending with
  | [] => true
  | ⟨levels, .list i, .list j⟩ :: rest =>
    if i = j then allEqual h rest
    else
      match levels with
      | 0 => false
      | levels + 1 =>
        if (h.items i).size ≠ (h.items j).size then false
        else allEqual h (pairDown levels (h.items i) (h.items j) ++ rest)
  | ⟨_, a, b⟩ :: rest => if a.sameScalar b then allEqual h rest else false
termination_by totalWeight h pending
decreasing_by
  · exact totalWeight_rest_lt ..
  · exact totalWeight_open_lt ..
  · exact totalWeight_rest_lt ..

/-- Structural equality. -/
def equals (h : Heap) (a b : Value) : Bool := allEqual h [⟨h.size + 1, a, b⟩]

end ScriptEngine.Value
