import Mathlib.Algebra.Order.Ring.Int
import ScriptEngine.Library.Bundled
import ScriptEngine.Proofs.FunctionRuns
import ScriptEngine.Proofs.OperatorValues

/-! What the functions of the bundled library for numbers come to, as the evaluator runs them. The loop of `gcd` keeps the
    greatest common divisor of two numbers that are not negative while the second one becomes smaller (`gcd_rounds`). The
    loop of `pow` has a power in hand. All smaller powers fit if the last one fits, so it comes to the power if that fits
    (`pow_rounds`) and otherwise fails at the first product that does not (`pow_rounds_overflow`). -/

namespace ScriptEngine.Library.Math
open ScriptEngine.Bound ScriptEngine.Evaluator

/-! ### The functions -/

/-- What `abs` does. -/
def absBody : Block :=
  .mk [] (.value (.branch (.operate .lt (var 0) (.int 0)) (.mk [] (.value (.unary .neg (var 0)) 4))
    (.mk [] (.value (var 0) 4))) 4)

/-- Before the loop of `pow`: an empty product, and no rounds counted. -/
def powStart : List Stmt := [.store (.frame 2) (.int 1) 20, .store (.frame 3) (.int 0) 21]

def powCondition : Expr := .operate .lt (var 3) (var 1)

def powRound : Block :=
  .mk [.store (.frame 2) (.operate .mul (var 2) (var 0)) 23, .store (.frame 3) (.operate .add (var 3) (.int 1)) 24] .nothing

/-- Before the loop of `gcd`: the absolute values of the arguments. -/
def gcdStart : List Stmt :=
  [.store (.frame 2) (.call (.function 0) [var 0]) 30, .store (.frame 3) (.call (.function 0) [var 1]) 31]

def gcdCondition : Expr := .operate .ne (var 3) (.int 0)

def gcdRound : Block :=
  .mk [.store (.frame 4) (.operate .rem (var 2) (var 3)) 33, .store (.frame 2) (var 3) 34, .store (.frame 3) (var 4) 35]
    .nothing

/-- The functions of the library, as they are bound. -/
def functions : List Func := [
  ⟨"math.abs", 1, 1, absBody, 3⟩,
  ⟨"math.min", 2, 2, .mk [] (.value (.branch (.operate .lt (var 0) (var 1)) (.mk [] (.value (var 0) 8))
    (.mk [] (.value (var 1) 8))) 8), 7⟩,
  ⟨"math.max", 2, 2, .mk [] (.value (.branch (.operate .gt (var 0) (var 1)) (.mk [] (.value (var 0) 12))
    (.mk [] (.value (var 1) 12))) 12), 11⟩,
  ⟨"math.clamp", 3, 3, .mk [] (.value (.call (.function 1) [.call (.function 2) [var 0, var 1], var 2]) 16), 15⟩,
  ⟨"math.pow", 2, 4, .mk (powStart ++ [.loop powCondition powRound 22]) (.value (var 2) 26), 19⟩,
  ⟨"math.gcd", 2, 5, .mk (gcdStart ++ [.loop gcdCondition gcdRound 32]) (.value (var 2) 37), 29⟩,
  ⟨"math.sign", 1, 1, .mk [] (.value (.branch (.operate .lt (var 0) (.int 0)) (.mk [] (.value (.int (-1)) 41))
    (.mk [] (.value (.branch (.operate .gt (var 0) (.int 0)) (.mk [] (.value (.int 1) 41))
      (.mk [] (.value (.int 0) 41))) 41))) 41), 40⟩]

/-! ### Absolute values -/

/-- The absolute value, if it fits. -/
def magnitude (n : Int64) : Int64 := if n.toInt < 0 then -n else n

theorem toInt_magnitude {n : Int64} (hn : n ≠ Int64.minValue) : (magnitude n).toInt = |n.toInt| := by
  unfold magnitude
  split
  · rename_i hneg
    rw [Value.toInt_neg hn, abs_of_neg hneg]
  · rename_i hpos
    rw [abs_of_nonneg (Int.not_lt.mp hpos)]

theorem abs_evaluates (sc : Evaluator.Scope) {s : Store} {n : Int64} (hn : n ≠ Int64.minValue) :
    block sc absBody { s with locals := #[.int n] } = .done (.int (magnitude n)) { s with locals := #[.int n] } := by
  have test : expr sc (.operate .lt (var 0) (.int 0)) { s with locals := #[.int n] } =
      .done (.bool (decide (n.toInt < 0))) { s with locals := #[.int n] } :=
    @operate_lt sc { s with locals := #[.int n] } n 0
  have negated : expr sc (.unary .neg (var 0)) { s with locals := #[.int n] } =
      .done (.int (-n)) { s with locals := #[.int n] } := by
    change Outcome.ofExcept (Value.int n).negate _ = _
    rw [Value.negate_int hn]
    rfl
  rw [absBody, block, stmts, Outcome.bind, tail, expr, test, magnitude]
  by_cases hneg : n.toInt < 0
  · simp only [Outcome.bind, Value.isTrue, decide_eq_true hneg, if_pos hneg, if_true, block, stmts, tail, negated]
  · simp only [Outcome.bind, Value.isTrue, decide_eq_false hneg, if_neg hneg]
    rfl

/-! ### Greatest common divisors -/

section
variable (sc : Evaluator.Scope) (s : Store) (p q x y t : Value)

/-- The state of `gcd`: its arguments, the two numbers, and the last remainder. -/
def gcdStore (s : Store) (p q x y t : Value) : Store := { s with locals := #[p, q, x, y, t] }

theorem gcd_condition (x y : Int64) : expr sc gcdCondition (gcdStore s p q (.int x) (.int y) t) =
    .done (.bool (decide (y ≠ 0))) (gcdStore s p q (.int x) (.int y) t) := operate_ne

theorem gcd_round {x y : Int64} (hy : 0 < y.toInt) : block sc gcdRound (gcdStore s p q (.int x) (.int y) t) =
    .done .unit (gcdStore s p q (.int y) (.int (x % y)) (.int (x % y))) := by
  have rem : expr sc (.operate .rem (var 2) (var 3)) (gcdStore s p q (.int x) (.int y) t) =
      .done (.int (x % y)) (gcdStore s p q (.int x) (.int y) t) := operate_rem hy
  simp only [gcdRound, block, stmts, stmt, rem]
  rfl

end

section
variable {sc : Evaluator.Scope} {s : Store} {p q : Value}

/-- Euclid's algorithm: the loop ends, because the second number becomes smaller, and their greatest common divisor
    stays the same. -/
theorem gcd_rounds {x y : Int64} (hx : 0 ≤ x.toInt) (hy : 0 ≤ y.toInt) (t : Value) : ∃ n g t',
    g.toInt = (Int.gcd x.toInt y.toInt : Int) ∧
    whileTrue (expr sc gcdCondition) (block sc gcdRound) n (gcdStore s p q (.int x) (.int y) t) =
      .done () (gcdStore s p q (.int g) (.int 0) t') := by
  induction h : y.toInt.toNat using Nat.strongRecOn generalizing x y t with
  | ind k ih =>
    subst h
    by_cases hzero : y = 0
    · subst hzero
      refine ⟨1, x, t, ?_, ?_⟩
      · rw [Int64.toInt_zero, Int.gcd_zero, Int.natAbs_of_nonneg hx]
      · rw [whileTrue, gcd_condition]
        rfl
    · have nonzero : y.toInt ≠ 0 := fun h => hzero (Int64.toInt_inj.mp h)
      have positive : 0 < y.toInt := by omega
      have remainder : (x % y).toInt = x.toInt % y.toInt := by rw [Int64.toInt_mod, Int.tmod_eq_emod_of_nonneg hx]
      have nonneg := Int.emod_nonneg x.toInt nonzero
      have smaller := Int.emod_lt_of_pos x.toInt positive
      rw [← remainder] at nonneg smaller
      obtain ⟨n, g, t', hg, rounds⟩ := ih (x % y).toInt.toNat (by omega) hy nonneg (.int (x % y)) rfl
      refine ⟨n + 1, g, t', ?_, ?_⟩
      · rw [hg, remainder, Int.gcd_comm, Int.gcd_emod]
      · rw [whileTrue, gcd_condition]
        simp only [Outcome.bind, Value.isTrue, decide_eq_true hzero, if_true, gcd_round _ _ _ _ _ positive]
        exact rounds

/-- `gcd` takes the absolute values of its arguments first. -/
theorem gcd_start {a b : Int64} (ha : a ≠ Int64.minValue) (hb : b ≠ Int64.minValue) (hfunctions : 0 < sc.unit.functions.length)
    (hcall : ∀ n s, n ≠ Int64.minValue → sc.call (.function ⟨sc.home, 0⟩) [.int n] s = .done (.int (magnitude n)) s) :
    stmts sc gcdStart (gcdStore s (.int a) (.int b) .unit .unit .unit) =
      .done () (gcdStore s (.int a) (.int b) (.int (magnitude a)) (.int (magnitude b)) .unit) := by
  have absolute (s : Store) : sc.function 0 s = .done (.function ⟨sc.home, 0⟩) s := if_pos hfunctions
  have first : stmt sc (.store (.frame 2) (.call (.function 0) [var 0]) 30) (gcdStore s (.int a) (.int b) .unit .unit .unit) =
      .done () (gcdStore s (.int a) (.int b) (.int (magnitude a)) .unit .unit) := by
    rw [stmt, expr, expr, absolute]
    change ((sc.call _ [.int a] _).bind _ : Outcome Unit) = _
    rw [hcall a _ ha]
    rfl
  have second : stmt sc (.store (.frame 3) (.call (.function 0) [var 1]) 31)
      (gcdStore s (.int a) (.int b) (.int (magnitude a)) .unit .unit) =
      .done () (gcdStore s (.int a) (.int b) (.int (magnitude a)) (.int (magnitude b)) .unit) := by
    rw [stmt, expr, expr, absolute]
    change ((sc.call _ [.int b] _).bind _ : Outcome Unit) = _
    rw [hcall b _ hb]
    rfl
  simp only [gcdStart, stmts, first, Outcome.bind, second]

/-- `gcd` comes to the greatest common divisor of the absolute values. -/
theorem gcd_evaluates {a b : Int64} (ha : a ≠ Int64.minValue) (hb : b ≠ Int64.minValue)
    (hfunctions : 0 < sc.unit.functions.length)
    (hcall : ∀ n s, n ≠ Int64.minValue → sc.call (.function ⟨sc.home, 0⟩) [.int n] s = .done (.int (magnitude n)) s) :
    ∃ n g locals, g.toInt = (Int.gcd a.toInt b.toInt : Int) ∧
      looped sc gcdStart gcdCondition gcdRound (.value (var 2) 37) n (gcdStore s (.int a) (.int b) .unit .unit .unit) =
        .done (.int g) { s with locals := locals } := by
  obtain ⟨n, g, t, hg, rounds⟩ := @gcd_rounds sc s (.int a) (.int b) (magnitude a) (magnitude b)
    (by rw [toInt_magnitude ha]; exact abs_nonneg _) (by rw [toInt_magnitude hb]; exact abs_nonneg _) .unit
  refine ⟨n, g, #[.int a, .int b, .int g, .int 0, t], ?_, ?_⟩
  · rw [hg, toInt_magnitude ha, toInt_magnitude hb, Int.gcd, Int.natAbs_abs, Int.natAbs_abs, Int.gcd]
  · rw [looped, gcd_start ha hb hfunctions hcall]
    simp only [Outcome.bind, rounds]
    rfl

end

/-! ### Powers -/

section
variable {b : Int} {k n : Nat}

theorem fits_iff_between {n : Int} : Value.fits n = true ↔ -2 ^ 63 ≤ n ∧ n < 2 ^ 63 := by
  simp only [Value.fits, Bool.and_eq_true, decide_eq_true_eq]
  omega

/-- A factor of a product that fits does, if the other one is not -1, 0 or 1. -/
theorem fits_of_fits_mul {m : Int} (hb : 2 ≤ b.natAbs) (h : Value.fits (m * b) = true) : Value.fits m = true := by
  rw [fits_iff_between] at *
  have double : m.natAbs * 2 ≤ (m * b).natAbs := by
    rw [Int.natAbs_mul]
    exact Nat.mul_le_mul_left _ hb
  omega

/-- If a power fits, the one before it does. -/
theorem fits_pow_of_succ (h : Value.fits (b ^ (k + 1)) = true) : Value.fits (b ^ k) = true := by
  rw [pow_succ b k] at h
  obtain hb | rfl | rfl | rfl : 2 ≤ b.natAbs ∨ b = -1 ∨ b = 0 ∨ b = 1 := by omega
  · exact fits_of_fits_mul hb h
  · rcases neg_one_pow_eq_or Int k with hone | hone <;> rw [hone] <;> rfl
  · rcases Nat.eq_zero_or_pos k with rfl | hk
    · rfl
    · rw [zero_pow hk.ne']
      rfl
  · rw [one_pow]
    rfl

/-- If a power fits, all smaller ones do. -/
theorem fits_pow_of_le (hle : k ≤ n) (h : Value.fits (b ^ n) = true) : Value.fits (b ^ k) = true := by
  induction hle with
  | refl => exact h
  | step _ ih => exact ih (fits_pow_of_succ h)

end

section
variable (sc : Evaluator.Scope) (s : Store) (base exp r i : Int64)

/-- The state of `pow`: its arguments, the power in hand and the number of its factors. -/
def powStore (s : Store) (base exp r i : Int64) : Store := { s with locals := #[.int base, .int exp, .int r, .int i] }

theorem pow_condition : expr sc powCondition (powStore s base exp r i) =
    .done (.bool (decide (i.toInt < exp.toInt))) (powStore s base exp r i) :=
  @operate_lt sc (powStore s base exp r i) i exp

theorem pow_round {r' i' : Int64} (hr : r'.toInt = r.toInt * base.toInt) (hi : i'.toInt = i.toInt + 1) :
    block sc powRound (powStore s base exp r i) = .done .unit (powStore s base exp r' i') := by
  have product : expr sc (.operate .mul (var 2) (var 0)) (powStore s base exp r i) =
      .done (.int r') (powStore s base exp r i) := operate_mul hr
  have count : expr sc (.operate .add (var 3) (.int 1)) (powStore s base exp r' i) =
      .done (.int i') (powStore s base exp r' i) := operate_add hi
  have first : stmt sc (.store (.frame 2) (.operate .mul (var 2) (var 0)) 23) (powStore s base exp r i) =
      .done () (powStore s base exp r' i) := by
    rw [stmt, product]
    rfl
  have second : stmt sc (.store (.frame 3) (.operate .add (var 3) (.int 1)) 24) (powStore s base exp r' i) =
      .done () (powStore s base exp r' i') := by
    rw [stmt, count]
    rfl
  simp only [powRound, block, stmts, first, Outcome.bind, second]
  rfl

theorem pow_round_overflow (large : ∀ r' : Int64, r'.toInt ≠ r.toInt * base.toInt) :
    block sc powRound (powStore s base exp r i) = .fault (.overflow .mul) (powStore s base exp r i) := by
  have product : expr sc (.operate .mul (var 2) (var 0)) (powStore s base exp r i) =
      .fault (.overflow .mul) (powStore s base exp r i) := operate_mul_overflow large
  simp only [powRound, block, stmts, stmt, product]
  rfl

end

section
variable {sc : Evaluator.Scope} {s : Store} {base exp r i : Int64} {k d : Nat}

/-- A power that fits is computed: no smaller one is too large, and the count stays below the exponent. -/
theorem pow_rounds {p : Int64} (hp : p.toInt = base.toInt ^ (k + d)) (hexp : exp.toInt = k + d) (hr : r.toInt = base.toInt ^ k)
    (hi : i.toInt = k) : whileTrue (expr sc powCondition) (block sc powRound) (d + 1) (powStore s base exp r i) =
      .done () (powStore s base exp p exp) := by
  induction d generalizing r i k with
  | zero =>
    obtain rfl : p = r := Int64.toInt_inj.mp (hp.trans hr.symm)
    obtain rfl : exp = i := Int64.toInt_inj.mp (hexp.trans hi.symm)
    rw [whileTrue, pow_condition]
    simp [Outcome.bind, Value.isTrue]
  | succ d ih =>
    have below : i.toInt < exp.toInt := by omega
    obtain ⟨i', hi'⟩ : ∃ i' : Int64, i'.toInt = i.toInt + 1 := exists_toInt i exp (le_of_lt (Int.lt_succ _)) below
    obtain ⟨r', hr'⟩ : ∃ r' : Int64, r'.toInt = base.toInt ^ (k + 1) :=
      Value.fits_iff.mp (fits_pow_of_le (by omega) (hp ▸ Value.fits_toInt p))
    have round := pow_round sc s base exp r i (hr ▸ hr'.trans (pow_succ ..)) hi'
    have rest := ih (r := r') (i := i') (k := k + 1) (by rw [hp]; congr 1; omega) (by omega) hr' (by omega)
    rw [whileTrue, pow_condition]
    simp only [Outcome.bind, Value.isTrue, decide_eq_true below, if_true, round]
    exact rest

/-- A power that does not fit is not computed: one of the products fails. -/
theorem pow_rounds_overflow (large : ∀ p : Int64, p.toInt ≠ base.toInt ^ (k + d)) (hexp : exp.toInt = k + d)
    (hr : r.toInt = base.toInt ^ k) (hi : i.toInt = k) :
    ∃ r' i', whileTrue (expr sc powCondition) (block sc powRound) (d + 1) (powStore s base exp r i) =
      .fault (.overflow .mul) (powStore s base exp r' i') := by
  induction d generalizing r i k with
  | zero => exact absurd hr (large r)
  | succ d ih =>
    have below : i.toInt < exp.toInt := by omega
    rw [whileTrue, pow_condition]
    simp only [Outcome.bind, Value.isTrue, decide_eq_true below, if_true]
    by_cases hfits : Value.fits (base.toInt ^ (k + 1))
    · obtain ⟨r', hr'⟩ := Value.fits_iff.mp hfits
      obtain ⟨i', hi'⟩ : ∃ i' : Int64, i'.toInt = i.toInt + 1 := exists_toInt i exp (le_of_lt (Int.lt_succ _)) below
      have later : ∀ p : Int64, p.toInt ≠ base.toInt ^ (k + 1 + d) := by
        rwa [Nat.add_right_comm]
      rw [pow_round sc s base exp r i (hr ▸ hr'.trans (pow_succ ..)) hi']
      exact ih (r := r') (i := i') (k := k + 1) later (by omega) hr' (by omega)
    · have product : ∀ r' : Int64, r'.toInt ≠ r.toInt * base.toInt := by
        intro r' hr'
        exact hfits (Value.fits_iff.mpr ⟨r', by rw [hr', hr, pow_succ]⟩)
      rw [pow_round_overflow sc s base exp r i product]
      exact ⟨r, i, rfl⟩

end

section
variable {sc : Evaluator.Scope} {s : Store} {base exp : Int64}

/-- The locals of `pow` when it is entered. -/
def powEntry (s : Store) (base exp : Int64) : Store := { s with locals := #[.int base, .int exp, .unit, .unit] }

/-- `pow` comes to the power, if that fits. -/
theorem pow_evaluates (hexp : 0 ≤ exp.toInt) {p : Int64} (hp : p.toInt = base.toInt ^ exp.toInt.toNat) : ∃ n locals,
    looped sc powStart powCondition powRound (.value (var 2) 26) n (powEntry s base exp) =
      .done (.int p) { s with locals := locals } := by
  have rounds := @pow_rounds sc s base exp 1 0 0 exp.toInt.toNat p (by rw [hp, Nat.zero_add]) (by omega)
    (by rw [pow_zero]; rfl) rfl
  refine ⟨exp.toInt.toNat + 1, #[.int base, .int exp, .int p, .int exp], ?_⟩
  change (whileTrue (expr sc powCondition) (block sc powRound) _ (powStore s base exp 1 0)).bind _ = _
  rw [rounds]
  rfl

/-- `pow` fails with an overflow, if the power does not fit. -/
theorem pow_evaluates_overflow (hexp : 0 ≤ exp.toInt) (large : ∀ p : Int64, p.toInt ≠ base.toInt ^ exp.toInt.toNat) :
    ∃ n t, looped sc powStart powCondition powRound (.value (var 2) 26) n (powEntry s base exp) =
      .fault (.overflow .mul) t := by
  obtain ⟨r, i, rounds⟩ := @pow_rounds_overflow sc s base exp 1 0 0 exp.toInt.toNat (by rwa [Nat.zero_add]) (by omega)
    (by rw [pow_zero]; rfl) rfl
  refine ⟨exp.toInt.toNat + 1, powStore s base exp r i, ?_⟩
  change (whileTrue (expr sc powCondition) (block sc powRound) _ (powStore s base exp 1 0)).bind _ = _
  rw [rounds]
  rfl

end
end ScriptEngine.Library.Math
