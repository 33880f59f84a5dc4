import Mathlib.Algebra.Order.Ring.Int
import Mathlib.Data.Int.Range
import ScriptEngine.Library.Bundled
import ScriptEngine.Proofs.FunctionRuns
import ScriptEngine.Proofs.OperatorValues

/-! What functions of the bundled libraries for texts and lists come to, as the evaluator runs them. The loop of `reverse` has in
    hand what it went past from the end, turned around (`reverse_rounds`). The loop of `range` puts one integer after the other at
    the end of a new list, up to the bound, so that its count never goes beyond 64 bits (`range_rounds`). The loop of
    `contains` goes on as long as no element is equal, and otherwise returns (`contains_rounds`). -/

namespace ScriptEngine.Library
open ScriptEngine.Bound ScriptEngine.Evaluator

/-! ### Texts -/

namespace TextFunctions

/-- Before the loop of `reverse`: no text, and all characters before it. -/
def reverseStart : List Stmt := [.store (.frame 1) (.text "") 27, .store (.frame 2) (.intrinsic .len [var 0]) 28]

def reverseCondition : Expr := .operate .gt (var 2) (.int 0)

def reverseRound : Block :=
  .mk [.store (.frame 2) (.operate .sub (var 2) (.int 1)) 30,
    .store (.frame 1) (.operate .add (var 1) (.index (var 0) (var 2))) 31] .nothing

/-- The functions of the library, as they are bound. -/
def functions : List Func := [
  ⟨"text.repeat", 2, 4, .mk [.store (.frame 2) (.text "") 4, .store (.frame 3) (.int 0) 5,
    .loop (.operate .lt (var 3) (var 1)) (.mk [.store (.frame 2) (.operate .add (var 2) (var 0)) 7,
      .store (.frame 3) (.operate .add (var 3) (.int 1)) 8] .nothing) 6] (.value (var 2) 10), 3⟩,
  ⟨"text.join", 2, 4, .mk [.store (.frame 2) (.text "") 14, .store (.frame 3) (.int 0) 15,
    .loop (.operate .lt (var 3) (.intrinsic .len [var 0]))
      (.mk [.eval (.branch (.operate .gt (var 3) (.int 0))
          (.mk [.store (.frame 2) (.operate .add (var 2) (var 1)) 18] .nothing) .empty) 17,
        .store (.frame 2) (.operate .add (var 2) (.intrinsic .str [.index (var 0) (var 3)])) 20,
        .store (.frame 3) (.operate .add (var 3) (.int 1)) 21] .nothing) 16] (.value (var 2) 23), 13⟩,
  ⟨"text.reverse", 1, 3, .mk (reverseStart ++ [.loop reverseCondition reverseRound 29]) (.value (var 1) 33), 26⟩]

section
variable (sc : Evaluator.Scope) (s : Store) (t out : String) {i i' : Int64} {k : Nat}

/-- The state of `reverse`: its argument, the text in hand and how many characters it did not go past. -/
def reverseStore (s : Store) (t : String) (out i : Value) : Store := { s with locals := #[.text t, out, i] }

theorem reverse_condition (i : Int64) : expr sc reverseCondition (reverseStore s t (.text out) (.int i)) =
    .done (.bool (decide (0 < i.toInt))) (reverseStore s t (.text out) (.int i)) :=
  @operate_gt sc (reverseStore s t (.text out) (.int i)) i 0

theorem reverse_round (hi : i.toInt = k + 1) (hi' : i'.toInt = k) (hk : k < t.toList.length) :
    block sc reverseRound (reverseStore s t (.text out) (.int i)) =
      .done .unit (reverseStore s t (.text (out ++ String.ofList [t.toList[k]])) (.int i')) := by
  have one : (1 : Int64).toInt = 1 := rfl
  have count : expr sc (.operate .sub (var 2) (.int 1)) (reverseStore s t (.text out) (.int i)) =
      .done (.int i') (reverseStore s t (.text out) (.int i)) := operate_sub (by omega)
  have char : expr sc (.index (var 0) (var 2)) (reverseStore s t (.text out) (.int i')) =
      .done (.text (String.ofList [t.toList[k]])) (reverseStore s t (.text out) (.int i')) := by
    change Outcome.ofExcept (Value.element s.heap (.text t) (.int i')) _ = _
    rw [element_text hi' hk]
    rfl
  have joined : expr sc (.operate .add (var 1) (.index (var 0) (var 2))) (reverseStore s t (.text out) (.int i')) =
      .done (.text (out ++ String.ofList [t.toList[k]])) (reverseStore s t (.text out) (.int i')) := by
    change (expr sc (.index (var 0) (var 2)) (reverseStore s t (.text out) (.int i'))).bind _ = _
    rw [char]
    exact operate_add_text ..
  exact block_pair (stmt_store count rfl) (stmt_store joined rfl)

end

/-- The text in hand has the characters that the loop went past, the last one first. -/
theorem reverse_rounds (sc : Evaluator.Scope) (s : Store) (t : String) {i : Int64} {k : Nat} (hi : i.toInt = k)
    (hk : k ≤ t.toList.length) :
    whileTrue (expr sc reverseCondition) (block sc reverseRound) (k + 1)
        (reverseStore s t (.text (String.ofList (t.toList.drop k).reverse)) (.int i)) =
      .done () (reverseStore s t (.text (String.ofList t.toList.reverse)) (.int 0)) := by
  induction k generalizing i with
  | zero =>
    obtain rfl : i = 0 := Int64.toInt_inj.mp hi
    exact whileTrue_stops (reverse_condition ..) rfl
  | succ k ih =>
    obtain ⟨i', hi'⟩ : ∃ i' : Int64, i'.toInt = k := exists_toInt 0 i (Int.natCast_nonneg k) (by omega)
    have goes : 0 < i.toInt := by omega
    rw [whileTrue_goes (reverse_condition ..) (decide_eq_true goes) (reverse_round sc s t _ (by omega) hi' hk),
      ← String.ofList_append, ← List.reverse_cons, ← List.drop_eq_getElem_cons]
    exact ih hi' (by omega)

/-- `reverse` comes to the characters of a text in reverse order. -/
theorem reverse_evaluates (sc : Evaluator.Scope) (s : Store) {t : String} (fits : t.length < 2 ^ 63) :
    (looped sc reverseStart reverseCondition reverseRound (.value (var 1) 33) (t.length + 1)
      (reverseStore s t .unit .unit)).restoring s.locals = .done (.text (String.ofList t.toList.reverse)) s := by
  have rounds := reverse_rounds sc s t (Int64.toInt_ofNat_of_lt fits) (le_of_eq String.length_toList.symm)
  rw [List.drop_of_length_le (le_of_eq String.length_toList)] at rounds
  have start : stmts sc reverseStart (reverseStore s t .unit .unit) =
      .done () (reverseStore s t (.text "") (.int (Int64.ofNat t.length))) := rfl
  rw [looped, start]
  simp only [Outcome.bind]
  rw [show "" = String.ofList [].reverse from rfl, rounds]
  rfl

end TextFunctions

/-! ### Lists -/

namespace ListFunctions

/-- Before the loop of `range`: a new list, and the first integer. -/
def rangeStart : List Stmt := [.store (.frame 2) (.list []) 14, .store (.frame 3) (var 0) 15]

def rangeCondition : Expr := .operate .lt (var 3) (var 1)

def rangeRound : Block :=
  .mk [.eval (.intrinsic .push [var 2, var 3]) 17, .store (.frame 3) (.operate .add (var 3) (.int 1)) 18] .nothing

def containsStart : List Stmt := [.store (.frame 2) (.int 0) 46]

def containsCondition : Expr := .operate .lt (var 2) (.intrinsic .len [var 0])

/-- An element that is equal is enough. -/
def containsTest : Expr :=
  .branch (.operate .eq (.index (var 0) (var 2)) (var 1)) (.mk [.ret (.bool true) 49] .nothing) .empty

def containsRound : Block :=
  .mk [.eval containsTest 48, .store (.frame 2) (.operate .add (var 2) (.int 1)) 51] .nothing

/-- The functions of the library, as they are bound. -/
def functions : List Func := [
  ⟨"list.sum", 1, 3, .mk [.store (.frame 1) (.int 0) 4, .store (.frame 2) (.int 0) 5,
    .loop (.operate .lt (var 2) (.intrinsic .len [var 0]))
      (.mk [.store (.frame 1) (.operate .add (var 1) (.index (var 0) (var 2))) 7,
        .store (.frame 2) (.operate .add (var 2) (.int 1)) 8] .nothing) 6] (.value (var 1) 10), 3⟩,
  ⟨"list.range", 2, 4, .mk (rangeStart ++ [.loop rangeCondition rangeRound 16]) (.value (var 2) 20), 13⟩,
  ⟨"list.map", 2, 4, .mk [.store (.frame 2) (.list []) 24, .store (.frame 3) (.int 0) 25,
    .loop (.operate .lt (var 3) (.intrinsic .len [var 0]))
      (.mk [.eval (.intrinsic .push [var 2, .call (var 1) [.index (var 0) (var 3)]]) 27,
        .store (.frame 3) (.operate .add (var 3) (.int 1)) 28] .nothing) 26] (.value (var 2) 30), 23⟩,
  ⟨"list.filter", 2, 4, .mk [.store (.frame 2) (.list []) 34, .store (.frame 3) (.int 0) 35,
    .loop (.operate .lt (var 3) (.intrinsic .len [var 0]))
      (.mk [.eval (.branch (.call (var 1) [.index (var 0) (var 3)])
          (.mk [.eval (.intrinsic .push [var 2, .index (var 0) (var 3)]) 38] .nothing) .empty) 37,
        .store (.frame 3) (.operate .add (var 3) (.int 1)) 40] .nothing) 36] (.value (var 2) 42), 33⟩,
  ⟨"list.contains", 2, 3, .mk (containsStart ++ [.loop containsCondition containsRound 47]) (.value (.bool false) 53), 45⟩]

/-! #### Ranges -/

theorem range_eq_nil {m n : Int} (h : n ≤ m) : Int.range m n = [] := by
  rw [Int.range, Int.toNat_of_nonpos (by omega)]
  rfl

theorem range_eq_cons {m n : Int} (h : m < n) : Int.range m n = m :: Int.range (m + 1) n := by
  have length : (n - m).toNat = (n - (m + 1)).toNat + 1 := by omega
  rw [Int.range, length, List.range_succ_eq_map, List.map_cons, List.map_map, Int.range]
  congr 1
  · exact Int.add_zero m
  · refine List.map_congr_left fun r _ => ?_
    simp only [Function.comp_apply, Nat.succ_eq_add_one, Int.natCast_add, Int.natCast_one]
    omega

section
variable (sc : Evaluator.Scope) (s : Store) (a b : Int64)

/-- The state of `range`: its arguments, a list with the integers so far, and the next integer. -/
def rangeStore (s : Store) (a b : Int64) (ns : List Int64) (i : Int64) : Store :=
  { s with
    locals := #[.int a, .int b, .list s.heap.size, .int i]
    heap := (s.heap.alloc (ns.map .int).toArray).1 }

theorem range_condition (ns : List Int64) (i : Int64) : expr sc rangeCondition (rangeStore s a b ns i) =
    .done (.bool (decide (i.toInt < b.toInt))) (rangeStore s a b ns i) :=
  @operate_lt sc (rangeStore s a b ns i) i b

theorem range_round (ns : List Int64) {i i' : Int64} (hi' : i'.toInt = i.toInt + 1) :
    block sc rangeRound (rangeStore s a b ns i) = .done .unit (rangeStore s a b (ns ++ [i]) i') := by
  have first : stmt sc (.eval (.intrinsic .push [var 2, var 3]) 17) (rangeStore s a b ns i) =
      .done () (rangeStore s a b (ns ++ [i]) i) := by
    have appended : stmt sc (.eval (.intrinsic .push [var 2, var 3]) 17) (rangeStore s a b ns i) = .done ()
        { rangeStore s a b ns i with heap := (s.heap.alloc (ns.map .int).toArray).1.append s.heap.size (.int i) } := rfl
    rw [appended, Heap.append_alloc, List.push_toArray, ← List.map_singleton (f := Value.int), ← List.map_append]
    rfl
  have count : expr sc (.operate .add (var 3) (.int 1)) (rangeStore s a b (ns ++ [i]) i) =
      .done (.int i') (rangeStore s a b (ns ++ [i]) i) := operate_add hi'
  exact block_pair first (stmt_store count rfl)

/-- From any integer on the loop adds all integers up to the bound. -/
theorem range_rounds (ns : List Int64) (i : Int64) : ∃ more i', more.map Int64.toInt = Int.range i.toInt b.toInt ∧
    whileTrue (expr sc rangeCondition) (block sc rangeRound) ((b.toInt - i.toInt).toNat + 1) (rangeStore s a b ns i) =
      .done () (rangeStore s a b (ns ++ more) i') := by
  induction h : (b.toInt - i.toInt).toNat generalizing ns i with
  | zero =>
    have reached : ¬ i.toInt < b.toInt := by omega
    refine ⟨[], i, (range_eq_nil (by omega)).symm, ?_⟩
    rw [whileTrue_stops (range_condition ..) (decide_eq_false reached), List.append_nil]
  | succ d ih =>
    have below : i.toInt < b.toInt := by omega
    -- The next integer is at most the bound, so it fits.
    obtain ⟨i', hi'⟩ : ∃ i' : Int64, i'.toInt = i.toInt + 1 := exists_toInt i b (le_of_lt (Int.lt_succ _)) below
    obtain ⟨more, last, hmore, rounds⟩ := ih (ns ++ [i]) i' (by omega)
    refine ⟨i :: more, last, ?_, ?_⟩
    · rw [List.map_cons, hmore, hi', range_eq_cons below]
    · rw [whileTrue_goes (range_condition ..) (decide_eq_true below) (range_round sc s a b ns hi'), rounds,
        List.append_assoc, List.singleton_append]

/-- `range` comes to a new list of the integers from the first argument up to the second one. -/
theorem range_evaluates : ∃ ns : List Int64, ns.map Int64.toInt = Int.range a.toInt b.toInt ∧
    (looped sc rangeStart rangeCondition rangeRound (.value (var 2) 20) ((b.toInt - a.toInt).toNat + 1)
        { s with locals := #[.int a, .int b, .unit, .unit] }).restoring s.locals =
      .done (.list s.heap.size) { s with heap := (s.heap.alloc (ns.map .int).toArray).1 } := by
  obtain ⟨ns, last, hns, rounds⟩ := range_rounds sc s a b [] a
  have start : stmts sc rangeStart { s with locals := #[.int a, .int b, .unit, .unit] } =
      .done () (rangeStore s a b [] a) := rfl
  refine ⟨ns, hns, ?_⟩
  rw [looped, start]
  simp only [Outcome.bind, rounds]
  rfl

end

/-! #### Elements -/

section
variable (sc : Evaluator.Scope) (s : Store) (id : Nat) (v : Value) {i i' : Int64} {k d : Nat}

/-- The state of `contains`: its arguments, and how many elements it went past. -/
def containsStore (s : Store) (id : Nat) (v : Value) (i : Int64) : Store := { s with locals := #[.list id, v, .int i] }

theorem contains_condition (fits : (s.heap.items id).size < 2 ^ 63) (i : Int64) :
    expr sc containsCondition (containsStore s id v i) =
      .done (.bool (decide (i.toInt < (s.heap.items id).size))) (containsStore s id v i) := by
  rw [← Int64.toInt_ofNat_of_lt fits]
  exact @operate_lt sc (containsStore s id v i) i (Int64.ofNat (s.heap.items id).size)

/-- An element that is equal makes the function return. -/
theorem contains_test (hi : i.toInt = k) (hk : k < (s.heap.items id).size) :
    expr sc containsTest (containsStore s id v i) =
      if (s.heap.items id)[k].equals s.heap v then .ret (.bool true) (containsStore s id v i)
      else .done .unit (containsStore s id v i) := by
  have element : expr sc (.index (var 0) (var 2)) (containsStore s id v i) =
      .done (s.heap.items id)[k] (containsStore s id v i) := by
    change Outcome.ofExcept (Value.element s.heap (.list id) (.int i)) _ = _
    rw [element_list hi hk]
    rfl
  have test : expr sc (.operate .eq (.index (var 0) (var 2)) (var 1)) (containsStore s id v i) =
      .done (.bool ((s.heap.items id)[k].equals s.heap v)) (containsStore s id v i) := by
    rw [expr, element]
    rfl
  rw [containsTest, expr, test]
  rfl

theorem contains_round (hi : i.toInt = k) (hi' : i'.toInt = k + 1) (hk : k < (s.heap.items id).size) :
    block sc containsRound (containsStore s id v i) =
      if (s.heap.items id)[k].equals s.heap v then .ret (.bool true) (containsStore s id v i)
      else .done .unit (containsStore s id v i') := by
  have count : expr sc (.operate .add (var 2) (.int 1)) (containsStore s id v i) =
      .done (.int i') (containsStore s id v i) := operate_add (hi ▸ hi')
  have test := contains_test sc s id v hi hk
  by_cases equal : (s.heap.items id)[k].equals s.heap v = true
  · rw [if_pos equal] at test ⊢
    simp only [containsRound, block, stmts, stmt, test, Outcome.bind]
  · rw [if_neg equal] at test ⊢
    exact block_pair (stmt_eval test) (stmt_store count rfl)

/-- From any position on the loop looks for an element that is equal. -/
theorem contains_rounds (fits : (s.heap.items id).size < 2 ^ 63) (hi : i.toInt = k) (hd : k + d = (s.heap.items id).size) :
    ∃ i', whileTrue (expr sc containsCondition) (block sc containsRound) (d + 1) (containsStore s id v i) =
      if ((s.heap.items id).toList.drop k).any (·.equals s.heap v) then .ret (.bool true) (containsStore s id v i')
      else .done () (containsStore s id v i') := by
  induction d generalizing i k with
  | zero =>
    have reached : ¬ i.toInt < (s.heap.items id).size := by omega
    refine ⟨i, ?_⟩
    rw [whileTrue_stops (contains_condition sc s id v fits i) (decide_eq_false reached),
      List.drop_of_length_le (by rw [Array.length_toList]; omega)]
    rfl
  | succ d ih =>
    have hk : k < (s.heap.items id).size := by omega
    have below : i.toInt < (s.heap.items id).size := by omega
    have condition := contains_condition sc s id v fits i
    obtain ⟨i', hi'⟩ : ∃ i' : Int64, i'.toInt = k + 1 :=
      exists_toInt 0 (Int64.ofNat (s.heap.items id).size) (by rw [Int64.toInt_zero]; omega)
        (by rw [Int64.toInt_ofNat_of_lt fits]; omega)
    have round := contains_round sc s id v hi hi' hk
    rw [List.drop_eq_getElem_cons (Array.length_toList ▸ hk), List.any_cons, Array.getElem_toList]
    by_cases equal : (s.heap.items id)[k].equals s.heap v = true
    · rw [if_pos equal] at round
      refine ⟨i, ?_⟩
      rw [whileTrue_returns condition (decide_eq_true below) round, equal]
      rfl
    · rw [if_neg equal] at round
      obtain ⟨last, rounds⟩ := ih (i := i') (k := k + 1) (by omega) (by omega)
      refine ⟨last, ?_⟩
      rw [whileTrue_goes condition (decide_eq_true below) round, rounds, Bool.eq_false_of_not_eq_true equal, Bool.false_or]

/-- `contains` comes to whether some element is equal. -/
theorem contains_evaluates (fits : (s.heap.items id).size < 2 ^ 63) :
    (looped sc containsStart containsCondition containsRound (.value (.bool false) 53) ((s.heap.items id).size + 1)
        { s with locals := #[.list id, v, .unit] }).restoring s.locals =
      .done (.bool ((s.heap.items id).toList.any (·.equals s.heap v))) s := by
  obtain ⟨last, rounds⟩ := contains_rounds sc s id v fits (i := 0) (k := 0) rfl (Nat.zero_add _)
  have start : stmts sc containsStart { s with locals := #[.list id, v, .unit] } = .done () (containsStore s id v 0) := rfl
  rw [List.drop_zero] at rounds
  rw [looped, start]
  simp only [Outcome.bind, rounds]
  cases (s.heap.items id).toList.any (·.equals s.heap v) with
  | true => rfl
  | false => rfl

end
end ListFunctions
end ScriptEngine.Library
