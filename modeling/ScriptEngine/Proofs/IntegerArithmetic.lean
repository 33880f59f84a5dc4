import ScriptEngine.Proofs.MachineSteps

/-! Arithmetic on integers is exact or it fails (`Machine.calculates_exactly`). A `Calculation` is an operator with its
    operands, `ideal?` its result among all integers. The machine pushes that number if it is one of 64 bits and fails
    otherwise, but for one calculation: the remainder of the least integer by -1 is zero, and still it fails, because the
    quotient is no number of 64 bits. -/

namespace ScriptEngine

namespace Value

section
variable {op : Operator} {n : Int} {r : Int64} {e : RuntimeError}

theorem fits_iff : fits n = true ↔ ∃ r : Int64, r.toInt = n := by
  simp only [fits, Bool.and_eq_true, decide_eq_true_eq]
  constructor
  · rintro ⟨low, high⟩
    exact ⟨.ofInt n, Int64.toInt_ofInt_of_le low (by omega)⟩
  · rintro ⟨r, rfl⟩
    have high := r.toInt_lt
    exact ⟨r.le_toInt, by omega⟩

theorem fits_toInt (r : Int64) : fits r.toInt = true := fits_iff.mpr ⟨r, rfl⟩

theorem fitted_eq_ok : fitted op n = .ok r ↔ r.toInt = n := by
  constructor
  · intro h
    unfold fitted at h
    split at h
    · rename_i hfits
      obtain ⟨r', rfl⟩ := fits_iff.mp hfits
      cases h
      rw [Int64.ofInt_toInt]
    · cases h
  · rintro rfl
    rw [fitted, if_pos (fits_toInt r), Int64.ofInt_toInt]

theorem fitted_toInt (op : Operator) (r : Int64) : fitted op r.toInt = .ok r := fitted_eq_ok.mpr rfl

theorem fitted_eq_error : fitted op n = .error e ↔ e = .overflow op ∧ ∀ r : Int64, r.toInt ≠ n := by
  rw [← not_exists, ← fits_iff]
  unfold fitted
  split
  · rename_i hfits
    exact ⟨nofun, fun h => absurd hfits h.2⟩
  · rename_i hfits
    exact ⟨fun h => ⟨(Except.error.inj h).symm, hfits⟩, fun h => by rw [h.1]⟩

end

/-! ### Quotients and remainders -/

section
variable {a b : Int64}

/-- The one quotient that is too large: that of the least integer by -1. -/
theorem quotient_fits (hb : b ≠ 0) : (∃ q : Int64, q.toInt = a.toInt.tdiv b.toInt) ↔ ¬(a = Int64.minValue ∧ b = -1) := by
  constructor
  · rintro ⟨q, hq⟩ ⟨rfl, rfl⟩
    have high := q.toInt_lt
    rw [hq] at high
    exact absurd high (by decide)
  · intro h
    refine ⟨a / b, ?_⟩
    by_cases ha : a = Int64.minValue
    · exact Int64.toInt_div_of_ne_right a b fun hb' => h ⟨ha, hb'⟩
    · exact Int64.toInt_div_of_ne_left a b ha

/-- A remainder is always a number of 64 bits. -/
theorem remainder_fits (a b : Int64) : (a % b).toInt = a.toInt.tmod b.toInt := Int64.toInt_mod a b

/-- A remainder is exact if its quotient fits, and fails as the quotient does otherwise. -/
theorem integer_rem (hb : b ≠ 0) : integer .rem a b =
    if a = Int64.minValue ∧ b = -1 then .error (.overflow .rem) else .ok (a % b) := by
  simp only [integer, if_neg hb]
  split
  · rename_i least
    have large : ∀ q : Int64, q.toInt ≠ a.toInt.tdiv b.toInt := fun q hq => (quotient_fits hb).mp ⟨q, hq⟩ least
    rw [fitted_eq_error.mpr ⟨rfl, large⟩, Except.map]
  · rename_i h
    obtain ⟨q, hq⟩ := (quotient_fits hb).mpr h
    rw [← hq, fitted_toInt, Except.map, ← remainder_fits, Int64.ofInt_toInt]

/-- Only the least integer has no negation. -/
theorem toInt_neg (ha : a ≠ Int64.minValue) : (-a).toInt = -a.toInt := by
  have low := a.le_toInt
  have high := a.toInt_lt
  have least : a.toInt ≠ -2 ^ 63 := fun h => ha (Int64.toInt_inj.mp (h.trans Int64.toInt_minValue.symm))
  have ofInt : -a = .ofInt (-a.toInt) := by rw [Int64.ofInt_neg, Int64.ofInt_toInt]
  rw [ofInt, Int64.toInt_ofInt_of_le (by omega) (by omega)]

theorem negate_int (ha : a ≠ Int64.minValue) : negate (int a) = .ok (int (-a)) := by
  rw [negate, ← toInt_neg ha, if_pos (fits_toInt _)]

end
end Value

/-! ### Calculations -/

/-- An arithmetic operator with the integers it is applied to. -/
inductive Calculation where
  | add (a b : Int64)
  | sub (a b : Int64)
  | mul (a b : Int64)
  | div (a b : Int64)
  | rem (a b : Int64)
  | neg (a : Int64)
  deriving Repr, DecidableEq

namespace Calculation

def instr : Calculation → Instr
  | add .. => .binary .add
  | sub .. => .binary .sub
  | mul .. => .binary .mul
  | div .. => .binary .div
  | rem .. => .binary .rem
  | neg _ => .neg

/-- The operands as they lie on the stack, the last one on top. -/
def operands : Calculation → List Value
  | add a b | sub a b | mul a b | div a b | rem a b => [.int b, .int a]
  | neg a => [.int a]

/-- The result among all integers, if the divisor is not zero. Quotients are cut toward zero, and a remainder has the sign
    of the dividend. -/
def ideal? : Calculation → Option Int
  | add a b => some (a.toInt + b.toInt)
  | sub a b => some (a.toInt - b.toInt)
  | mul a b => some (a.toInt * b.toInt)
  | div a b => if b = 0 then none else some (a.toInt.tdiv b.toInt)
  | rem a b => if b = 0 then none else some (a.toInt.tmod b.toInt)
  | neg a => some (-a.toInt)

def overflow : Calculation → RuntimeError
  | add .. => .overflow .add
  | sub .. => .overflow .sub
  | mul .. => .overflow .mul
  | div .. => .overflow .div
  | rem .. => .overflow .rem
  | neg _ => .negationOverflow

/-- The remainder whose quotient is no number of 64 bits. -/
def leastRemainder : Calculation := .rem Int64.minValue (-1)

/-- The exact result is a number that does not fit in 64 bits. -/
def Large (c : Calculation) : Prop := ∃ r, c.ideal? = some r ∧ ∀ n : Int64, n.toInt ≠ r

/-- What the machine makes of a calculation. -/
def result : Calculation → Except RuntimeError Int64
  | add a b => Value.integer .add a b
  | sub a b => Value.integer .sub a b
  | mul a b => Value.integer .mul a b
  | div a b => Value.integer .div a b
  | rem a b => Value.integer .rem a b
  | neg a => if Value.fits (-a.toInt) then .ok (-a) else .error .negationOverflow

section
variable {c : Calculation} {n : Int64}

theorem overflow_ne (c : Calculation) : c.overflow ≠ .divisionByZero := by
  cases c <;> nofun

theorem ideal?_leastRemainder : leastRemainder.ideal? = some (0 : Int64).toInt := by decide

theorem result_leastRemainder : leastRemainder.result = .error leastRemainder.overflow := by
  have hb : (-1 : Int64) ≠ 0 := by decide
  rw [leastRemainder, result, Value.integer_rem hb, if_pos ⟨rfl, rfl⟩, overflow]

/-- All other calculations are decided by the exact result alone. -/
theorem result_eq (hc : c ≠ leastRemainder) : c.result =
    match c.ideal? with
    | none => .error .divisionByZero
    | some r => if Value.fits r then .ok (.ofInt r) else .error c.overflow := by
  cases c with
  | add a b | sub a b | mul a b => rfl
  | neg a =>
    have hneg : -a = .ofInt (-a.toInt) := by rw [Int64.ofInt_neg, Int64.ofInt_toInt]
    rw [result, hneg, ideal?, overflow]
  | div a b =>
    by_cases hb : b = 0
    · rw [result, ideal?, if_pos hb, Value.integer, if_pos hb]
    · rw [result, ideal?, if_neg hb, Value.integer, if_neg hb, Value.fitted, overflow]
  | rem a b =>
    by_cases hb : b = 0
    · simp only [result, ideal?, Value.integer, if_pos hb]
    · have least : ¬(a = Int64.minValue ∧ b = -1) := fun h => hc (by rw [h.1, h.2, leastRemainder])
      rw [result, ideal?, if_neg hb, Value.integer_rem hb, if_neg least]
      simp only [← Value.remainder_fits, Value.fits_toInt, if_true, Int64.ofInt_toInt]

theorem result_of_none (h : c.ideal? = none) : c.result = .error .divisionByZero := by
  have hc : c ≠ leastRemainder := by
    rintro rfl
    cases h
  rw [result_eq hc, h]

theorem result_of_exact (h : c.ideal? = some n.toInt) (hc : c ≠ leastRemainder) : c.result = .ok n := by
  simp only [result_eq hc, h, Value.fits_toInt, if_true, Int64.ofInt_toInt]

theorem result_of_large (h : c.Large) : c.result = .error c.overflow := by
  obtain ⟨r, hr, large⟩ := h
  have hc : c ≠ leastRemainder := by
    rintro rfl
    exact large 0 (Option.some.inj (ideal?_leastRemainder.symm.trans hr))
  simp only [result_eq hc, hr, if_neg fun hfits => (Value.fits_iff.mp hfits).elim large]

/-- There is no exact result, or it is a number of 64 bits, or it is too large for one. -/
theorem ideal?_cases (c : Calculation) : c.ideal? = none ∨ (∃ n : Int64, c.ideal? = some n.toInt) ∨ c.Large := by
  cases h : c.ideal? with
  | none => exact .inl rfl
  | some r =>
    by_cases hr : ∃ n : Int64, n.toInt = r
    · obtain ⟨n, rfl⟩ := hr
      exact .inr (.inl ⟨n, rfl⟩)
    · exact .inr (.inr ⟨r, h, not_exists.mp hr⟩)

theorem result_eq_divisionByZero : c.result = .error .divisionByZero ↔ c.ideal? = none := by
  refine ⟨fun h => ?_, result_of_none⟩
  by_cases hc : c = leastRemainder
  · rw [hc, result_leastRemainder] at h
    cases h
  obtain hnone | ⟨n, hn⟩ | large := c.ideal?_cases
  · exact hnone
  · rw [result_of_exact hn hc] at h
    cases h
  · rw [result_of_large large] at h
    exact absurd (Except.error.inj h) c.overflow_ne

theorem result_eq_ok : c.result = .ok n ↔ c.ideal? = some n.toInt ∧ c ≠ leastRemainder := by
  refine ⟨fun h => ?_, fun h => result_of_exact h.1 h.2⟩
  by_cases hc : c = leastRemainder
  · rw [hc, result_leastRemainder] at h
    cases h
  obtain hnone | ⟨n', hn'⟩ | large := c.ideal?_cases
  · rw [result_of_none hnone] at h
    cases h
  · rw [result_of_exact hn' hc] at h
    cases h
    exact ⟨hn', hc⟩
  · rw [result_of_large large] at h
    cases h

theorem result_eq_overflow : c.result = .error c.overflow ↔ c.Large ∨ c = leastRemainder := by
  constructor
  · intro h
    by_cases hc : c = leastRemainder
    · exact .inr hc
    obtain hnone | ⟨n, hn⟩ | large := c.ideal?_cases
    · rw [result_of_none hnone] at h
      exact absurd (Except.error.inj h).symm c.overflow_ne
    · rw [result_of_exact hn hc] at h
      cases h
    · exact .inl large
  · rintro (large | rfl)
    · exact result_of_large large
    · exact result_leastRemainder

end
end Calculation

/-! ### Machines -/

namespace Machine

section
variable {env : Env} {m : Machine} {c : Calculation} {rest : List Value}

/-- The instruction of a calculation takes the operands and pushes the result, or fails behind the instruction. -/
theorem step_calculation (hi : m.frame.routine.Holds m.frame.pc c.instr) (hstack : m.stack.items = c.operands ++ rest) :
    step env m = match c.result with
      | .ok n => .running ((m.advance.drop c.operands.length).push (.int n))
      | .error e => .faulted e m.advance := by
  cases c with
  | neg a =>
    have hstack : m.advance.stack.items = (Calculation.neg a).operands ++ rest := hstack
    rw [step_of_holds hi]
    simp only [Calculation.instr, execute, hstack, Calculation.operands, List.cons_append, Value.negate, Calculation.result]
    split <;> rfl
  | add a b | sub a b | mul a b | div a b | rem a b =>
    rw [step_binary hi hstack]
    simp only [Value.operate, Value.arithmetic, Calculation.result]
    cases Value.integer _ a b <;> rfl

theorem step_eq_faulted {e : RuntimeError} (hi : m.frame.routine.Holds m.frame.pc c.instr)
    (hstack : m.stack.items = c.operands ++ rest) : step env m = .faulted e m.advance ↔ c.result = .error e := by
  rw [step_calculation hi hstack]
  cases c.result with
  | ok n => exact iff_of_false nofun nofun
  | error e' => exact ⟨fun h => by cases h; rfl, fun h => by cases h; rfl⟩

theorem step_eq_pushed {n : Int64} (hi : m.frame.routine.Holds m.frame.pc c.instr)
    (hstack : m.stack.items = c.operands ++ rest) :
    step env m = .running ((m.advance.drop c.operands.length).push (.int n)) ↔ c.result = .ok n := by
  rw [step_calculation hi hstack]
  cases c.result with
  | ok n' =>
    refine ⟨fun h => ?_, fun h => by cases h; rfl⟩
    have top := congrArg (fun p => p.next?.map fun m => m.stack.items.head?) h
    cases top
    rfl
  | error e => exact iff_of_false nofun nofun

/-- Arithmetic on integers is exact or fails. The machine divides by zero exactly if there is no exact result, and pushes a
    number exactly if that is the exact result; it reports an overflow exactly if the exact result does not fit in 64
    bits. Only the remainder of the least integer by -1, which is zero, is an overflow as well. -/
theorem calculates_exactly (env : Env) (hi : m.frame.routine.Holds m.frame.pc c.instr)
    (hstack : m.stack.items = c.operands ++ rest) :
    (step env m = .faulted .divisionByZero m.advance ↔ c.ideal? = none) ∧
    (∀ n : Int64, step env m = .running ((m.advance.drop c.operands.length).push (.int n)) ↔
      c.ideal? = some n.toInt ∧ c ≠ .leastRemainder) ∧
    (step env m = .faulted c.overflow m.advance ↔ c.Large ∨ c = .leastRemainder) := by
  refine ⟨?_, fun n => ?_, ?_⟩
  · rw [step_eq_faulted hi hstack, Calculation.result_eq_divisionByZero]
  · rw [step_eq_pushed hi hstack, Calculation.result_eq_ok]
  · rw [step_eq_faulted hi hstack, Calculation.result_eq_overflow]

end

/-- A machine about to carry out a calculation. -/
def calculating (c : Calculation) : Machine := alone c.instr c.operands

theorem calculating_stack (c : Calculation) : (calculating c).stack.items = c.operands ++ [] := by
  rw [calculating, alone_stack, List.append_nil]

/-- A quotient that is cut toward zero, a division by zero, and a negation that is too large. -/
theorem calculates_exactly_cases :
    step bareEnv (calculating (.div (-7) 2)) =
      .running (((calculating (.div (-7) 2)).advance.drop 2).push (.int (-3))) ∧
    step bareEnv (calculating (.rem 1 0)) = .faulted .divisionByZero (calculating (.rem 1 0)).advance ∧
    step bareEnv (calculating (.neg Int64.minValue)) = .faulted .negationOverflow (calculating (.neg Int64.minValue)).advance := by
  have large : (Calculation.neg Int64.minValue).Large := by
    refine ⟨9223372036854775808, by decide, fun n hn => ?_⟩
    have high := n.toInt_lt
    omega
  exact ⟨((calculates_exactly bareEnv (alone_holds ..) (calculating_stack _)).2.1 (-3)).mpr ⟨by decide, by decide⟩,
    (calculates_exactly bareEnv (alone_holds ..) (calculating_stack _)).1.mpr (by decide),
    (calculates_exactly bareEnv (alone_holds ..) (calculating_stack _)).2.2.mpr (.inl large)⟩

/-- It is not so that every exact result of 64 bits is pushed: the remainder of the least integer by -1 is zero. -/
theorem leastRemainder_inexact : ¬∀ (env : Env) (m : Machine) (c : Calculation) (rest : List Value),
    m.frame.routine.Holds m.frame.pc c.instr → m.stack.items = c.operands ++ rest →
    (c.ideal? = none → step env m = .faulted .divisionByZero m.advance) ∧
    (∀ n : Int64, c.ideal? = some n.toInt → step env m = .running ((m.advance.drop c.operands.length).push (.int n))) ∧
    (c.Large → step env m = .faulted c.overflow m.advance) := by
  intro claim
  have pushed := (claim bareEnv (calculating .leastRemainder) .leastRemainder [] (alone_holds ..) (calculating_stack _)).2.1 0
    Calculation.ideal?_leastRemainder
  have faulted : step bareEnv (calculating .leastRemainder) = _ :=
    (step_eq_faulted (alone_holds ..) (calculating_stack _)).mpr Calculation.result_leastRemainder
  cases faulted.symm.trans pushed

end Machine
end ScriptEngine
