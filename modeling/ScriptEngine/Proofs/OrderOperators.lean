import ScriptEngine.Proofs.MachineSteps
import ScriptEngine.Proofs.StructuralEquality

/-! The ordering operators and equality (`Machine.operators_agree`). Two values that the ordering operators take have at most
    one order (`Value.order?`), and `<`, `>` and `==` tell it. For the others the machine takes a missing order as equality:
    so `<=` and `>=` are what `<`, `>` and `==` say where there is an order, and hold where there is none, which is next to a
    number that is not equal to itself. Integers are never rounded to such a number (`nearestFloat_isNaN`). -/

namespace ScriptEngine

/-! ### Floating-point numbers -/

section
open Float.Model

theorem isNone_unpacked_compare (a b : UnpackedFloat) : (a.compare b).isNone = (a.isNaN || b.isNaN) := by
  cases a with
  | notANumber => rfl
  | finite s | infinity s | zero s =>
    cases b with
    | notANumber => cases s <;> rfl
    | finite s' | infinity s' | zero s' => cases s <;> cases s' <;> rfl

theorem isNaN_dite {c : Prop} [Decidable c] {a : c → UnpackedFloat} {b : ¬c → UnpackedFloat}
    (ha : ∀ h, (a h).isNaN = false) (hb : ∀ h, (b h).isNaN = false) : (dite c a b).isNaN = false := by
  split
  · exact ha _
  · exact hb _

theorem isNaN_ite {c : Prop} [Decidable c] {a b : UnpackedFloat} (ha : a.isNaN = false) (hb : b.isNaN = false) :
    (ite c a b).isNaN = false := by
  split
  · exact ha
  · exact hb

theorem roundWithAccuracy_isNaN (spec : Format) (s : UnpackedFloat.Sign) (m : Nat) (e : Int) (accuracy : UnpackedFloat.Accuracy) :
    (UnpackedFloat.roundWithAccuracy spec s m e accuracy).isNaN = false := by
  unfold UnpackedFloat.roundWithAccuracy
  exact isNaN_dite (fun _ => rfl) fun _ => rfl

theorem normalize_isNaN (spec : Format) (m e : Int) (s : UnpackedFloat.Sign) : (UnpackedFloat.normalize spec m e s).isNaN = false := by
  unfold UnpackedFloat.normalize
  split
  · exact roundWithAccuracy_isNaN ..
  · rfl
  · exact roundWithAccuracy_isNaN ..

/-- Only an infinity can make a product of numbers no number. -/
theorem mul_finite_isNaN (spec : Format) {a : UnpackedFloat} (ha : a.isNaN = false) (s : UnpackedFloat.Sign) (m : Nat) (e : Int) (hm : 0 < m) :
    (a.mul spec (.finite s m e hm)).isNaN = false := by
  cases a with
  | notANumber => cases ha
  | infinity s' | zero s' => rfl
  | finite s' m' e' => exact roundWithAccuracy_isNaN ..

/-- Bits stand for a number if the exponent is not the greatest one, or the mantissa is zero. -/
theorem unpack_isNaN {b : BitVec Format.binary64.numBits}
    (h : UnpackedFloat.unpackExponent b ≠ -1#_ ∨ UnpackedFloat.unpackMantissa b = 0#_) :
    (UnpackedFloat.unpack .binary64 b).isNaN = false := by
  unfold UnpackedFloat.unpack
  dsimp only
  by_cases hexp : UnpackedFloat.unpackExponent b = -1#_
  · rw [if_pos hexp, if_pos (h.resolve_left (not_not_intro hexp))]
    rfl
  · rw [if_neg hexp]
    exact isNaN_ite (isNaN_dite (fun _ => rfl) fun _ => rfl) rfl

/-- Packing does not make a number no number. -/
theorem unpack_pack_isNaN {a : UnpackedFloat} (ha : a.isNaN = false) : (pack a).unpack.isNaN = false := by
  refine unpack_isNaN ?_
  change UnpackedFloat.unpackExponent (UnpackedFloat.pack .binary64 a) ≠ _ ∨
    UnpackedFloat.unpackMantissa (UnpackedFloat.pack .binary64 a) = _
  unfold UnpackedFloat.pack
  cases a with
  | notANumber => cases ha
  | infinity s => exact .inr (UnpackedFloat.unpackMantissa_packComponents ..)
  | zero s => exact .inr (UnpackedFloat.unpackMantissa_packComponents ..)
  | finite s m e hm =>
    dsimp only
    split
    · exact .inr (UnpackedFloat.unpackMantissa_packComponents ..)
    · rename_i hlt
      refine .inl ?_
      split
      · rw [UnpackedFloat.unpackExponent_packComponents, Ne, ← BitVec.toNat_inj, BitVec.toNat_ofNat]
        have hlt : (e + Format.binary64.exponentBias + Format.binary64.mantissaBitsWithoutImplicit).toNat + 1 < 2 ^ 11 := by
          exact Nat.not_le.mp hlt
        have top : (-BitVec.ofNat Format.binary64.exponentBits 1).toNat = 2 ^ 11 - 1 := rfl
        rw [top]
        have small := Nat.mod_eq_of_lt (Nat.lt_of_succ_lt hlt)
        change _ % 2 ^ 11 ≠ _
        omega
      · rw [UnpackedFloat.unpackExponent_packComponents]
        decide

theorem ofScientific_isNaN (m e : Nat) : (UnpackedFloat.ofScientific .binary64 m e).isNaN = false := by
  unfold UnpackedFloat.ofScientific
  refine isNaN_dite (fun _ => rfl) fun _ => isNaN_ite rfl (isNaN_ite rfl ?_)
  rw [if_pos (Int.natCast_nonneg e)]
  exact mul_finite_isNaN _ rfl ..

theorem float_ofNat_isNaN (n : Nat) : (Float.ofNat n).isNaN = false := by
  change (Float.ofScientific n false 0).isNaN = false
  unfold Float.ofScientific
  split
  · have one : Float.exactlyRepresentablePowersOfTen[0].toModel.unpack = .finite .positive (2 ^ 52) (-52) (by decide) := rfl
    have factor : n.toUInt64.toFloat.toModel.unpack.isNaN = false := unpack_pack_isNaN (normalize_isNaN ..)
    refine unpack_pack_isNaN ?_
    rw [one]
    exact mul_finite_isNaN _ factor ..
  · exact unpack_pack_isNaN (ofScientific_isNaN ..)

theorem float_neg_isNaN {x : Float} (hx : x.isNaN = false) : (-x).isNaN = false := by
  refine unpack_pack_isNaN ?_
  have hx : x.toModel.unpack.isNaN = false := hx
  cases hu : x.toModel.unpack with
  | notANumber =>
    rw [hu] at hx
    cases hx
  | finite s | infinity s | zero s => rfl

/-- An integer is rounded to a number. -/
theorem nearestFloat_isNaN (n : Int64) : (Value.nearestFloat n).isNaN = false := by
  unfold Value.nearestFloat
  cases n.toInt with
  | ofNat n => exact float_ofNat_isNaN n
  | negSucc n => exact float_neg_isNaN (float_ofNat_isNaN (n + 1))

/-- The order of two numbers, if they have one. -/
def floatOrder? (x y : Float) : Option Ordering := x.toModel.unpack.compare y.toModel.unpack

section
variable {x y : Float}

theorem floatOrder?_swap (x y : Float) : floatOrder? y x = (floatOrder? x y).map Ordering.swap := unpacked_compare_swap ..

theorem isNone_floatOrder? (x y : Float) : (floatOrder? x y).isNone = (x.isNaN || y.isNaN) := isNone_unpacked_compare ..

theorem float_beq_eq (x y : Float) : (x == y) = (floatOrder? x y == some .eq) := rfl

theorem float_lt_iff : x < y ↔ floatOrder? x y = some .lt := by
  have hlt : x < y ↔ (floatOrder? x y == some .lt) = true := by
    change (decide (x.toModel < y.toModel) = true) ↔ _
    rw [decide_eq_true_iff]
    exact Iff.rfl
  rw [hlt, beq_iff_eq]

/-- The machine takes a missing order as equality. -/
theorem floatOrder_eq (x y : Float) : Value.floatOrder x y = (floatOrder? x y).getD .eq := by
  have swapped : y < x ↔ floatOrder? x y = some .gt := by
    rw [float_lt_iff, floatOrder?_swap x y]
    cases floatOrder? x y with
    | none => exact iff_of_false nofun nofun
    | some o => cases o <;> decide
  simp only [Value.floatOrder, float_lt_iff, swapped]
  cases floatOrder? x y with
  | none => rfl
  | some o => cases o <;> rfl

end
end

namespace Value

/-! ### Orders -/

/-- Values that the ordering operators take: two numbers of either kind, two texts or two booleans. -/
inductive Comparable : Value → Value → Prop where
  | ints (m n : Int64) : Comparable (int m) (int n)
  | intFloat (m : Int64) (y : Float) : Comparable (int m) (float y)
  | floatInt (x : Float) (n : Int64) : Comparable (float x) (int n)
  | floats (x y : Float) : Comparable (float x) (float y)
  | texts (s t : String) : Comparable (text s) (text t)
  | bools (p q : Bool) : Comparable (bool p) (bool q)

/-- The order of two values, if they have one. Next to a floating-point number an integer is rounded. -/
def order? : Value → Value → Option Ordering
  | int m, int n => some (compare m n)
  | int m, float y => floatOrder? (nearestFloat m) y
  | float x, int n => floatOrder? x (nearestFloat n)
  | float x, float y => floatOrder? x y
  | text s, text t => some (compare s t)
  | bool p, bool q => some (boolOrder p q)
  | _, _ => none

section
variable {a b : Value} {h : Heap}

theorem decide_eq_beq {α : Type} [Ord α] [Std.LawfulEqOrd α] [DecidableEq α] (x y : α) :
    decide (x = y) = (compare x y == .eq) := by
  rw [Bool.eq_iff_iff, decide_eq_true_iff, beq_iff_eq, Std.compare_eq_iff_eq]

theorem boolOrder_swap (p q : Bool) : boolOrder q p = (boolOrder p q).swap := by
  cases p <;> cases q <;> rfl

theorem boolOrder_beq (p q : Bool) : (boolOrder p q == .eq) = decide (p = q) := by
  cases p <;> cases q <;> rfl

theorem order_eq (hab : a.Comparable b) : a.order b = .ok ((a.order? b).getD .eq) := by
  cases hab with
  | ints m n | texts s t | bools p q => rfl
  | intFloat m y | floatInt x n | floats x y => exact congrArg Except.ok (floatOrder_eq ..)

theorem Comparable.symm (hab : a.Comparable b) : b.Comparable a := by
  cases hab <;> constructor

/-- The ordering operators take these values and no others. -/
theorem comparable_iff : a.Comparable b ↔ ∃ o, a.order b = .ok o := by
  refine ⟨fun hab => ⟨_, order_eq hab⟩, fun ⟨o, ho⟩ => ?_⟩
  cases a <;> cases b <;> first | constructor | cases ho

theorem order?_swap (hab : a.Comparable b) : b.order? a = (a.order? b).map Ordering.swap := by
  cases hab with
  | ints m n => exact congrArg some Std.OrientedOrd.eq_swap
  | texts s t => exact congrArg some Std.OrientedOrd.eq_swap
  | bools p q => exact congrArg some (boolOrder_swap p q)
  | intFloat m y | floatInt x n | floats x y => exact floatOrder?_swap ..

/-- Only next to a number that is not equal to itself there is no order. -/
theorem isNone_order? (hab : a.Comparable b) : (a.order? b).isNone = (a.isNaN || b.isNaN) := by
  cases hab with
  | ints m n | texts s t | bools p q => rfl
  | intFloat m y =>
    rw [order?, isNone_floatOrder?, nearestFloat_isNaN]
    rfl
  | floatInt x n =>
    rw [order?, isNone_floatOrder?, nearestFloat_isNaN]
    rfl
  | floats x y => exact isNone_floatOrder? ..

/-- Equality tells the same order, although it is decided on its own. -/
theorem equals_eq (hab : a.Comparable b) : a.equals h b = (a.order? b == some .eq) := by
  have single : a.equals h b = a.sameScalar b := by
    cases hab <;> simp [equals, allEqual]
  rw [single]
  cases hab with
  | ints m n => exact decide_eq_beq ..
  | texts s t => exact decide_eq_beq ..
  | bools p q => exact (boolOrder_beq p q).symm
  | intFloat m y | floats x y => exact float_beq_eq ..
  | floatInt x n => exact (float_beq_comm ..).trans (float_beq_eq ..)

end
end Value

/-! ### Operators -/

namespace Machine

/-- Wherever an operator stands, it answers these two operands so. -/
def Answers (env : Env) (op : Operator) (a b : Value) (answer : Bool) : Prop :=
  ∀ (m : Machine) (rest : List Value), m.frame.routine.Holds m.frame.pc (.binary op) → m.stack.items = b :: a :: rest →
    step env m = .running ((m.advance.drop 2).push (.bool answer))

section
variable {env : Env} {op : Operator} {a b : Value} {answer : Bool}

theorem swap_beq_lt (o : Option Ordering) : (o.map Ordering.swap == some .lt) = (o == some .gt) := by
  cases o with
  | none => rfl
  | some o => cases o <;> rfl

/-! A missing order is taken as equality: it is neither less nor greater, but at most and at least. -/

theorem getD_eq_lt (o : Option Ordering) : (o.getD .eq == .lt) = (o == some .lt) := by
  cases o <;> rfl

theorem getD_eq_gt (o : Option Ordering) : (o.getD .eq == .gt) = (o == some .gt) := by
  cases o <;> rfl

theorem getD_ne_gt (o : Option Ordering) : (o.getD .eq != .gt) = (o == some .lt || (o == some .eq || o.isNone)) := by
  cases o with
  | none => rfl
  | some o => cases o <;> rfl

theorem getD_ne_lt (o : Option Ordering) : (o.getD .eq != .lt) = (o == some .gt || (o == some .eq || o.isNone)) := by
  cases o with
  | none => rfl
  | some o => cases o <;> rfl

theorem answers_of_operate (h : ∀ view, a.operate view op b = .ok (.value (.bool answer))) : Answers env op a b answer := by
  intro m rest hi hstack
  rw [step_binary hi hstack, h]
  rfl

section
variable (hab : a.Comparable b)
include hab

/-- An operator that tests the order tests equality where there is none. -/
theorem answers_order (op : Operator) (test : Ordering → Bool)
    (hop : ∀ view, a.operate view op b = (a.order b).map fun o => .value (.bool (test o))) :
    Answers env op a b (test ((a.order? b).getD .eq)) := by
  refine answers_of_operate fun view => ?_
  rw [hop, Value.order_eq hab, Except.map]

theorem answers_lt : Answers env .lt a b (a.order? b == some .lt) :=
  getD_eq_lt (a.order? b) ▸ answers_order hab .lt (· == .lt) fun _ => rfl

theorem answers_gt : Answers env .gt a b (a.order? b == some .gt) :=
  getD_eq_gt (a.order? b) ▸ answers_order hab .gt (· == .gt) fun _ => rfl

theorem answers_eq : Answers env .eq a b (a.order? b == some .eq) := by
  refine answers_of_operate fun view => ?_
  rw [Value.operate, Value.equals_eq hab]

end

/-- The ordering operators and equality agree where there is an order. `a > b` is always `b < a`; `a <= b` is `a < b` or
    `a == b`, and `a >= b` is `a > b` or `a == b`, unless one of the two is a number that is not equal to itself. Next to
    such a number `<`, `>` and `==` are false, and yet `<=` and `>=` are true. -/
theorem operators_agree (env : Env) (hab : a.Comparable b) : ∃ lt gt eq : Bool,
    Answers env .lt a b lt ∧ Answers env .gt a b gt ∧ Answers env .eq a b eq ∧ Answers env .lt b a gt ∧
    Answers env .le a b (lt || eq || a.isNaN || b.isNaN) ∧ Answers env .ge a b (gt || eq || a.isNaN || b.isNaN) ∧
    ((a.isNaN || b.isNaN) = true → lt = false ∧ gt = false ∧ eq = false) := by
  have swapped : (b.order? a == some .lt) = (a.order? b == some .gt) := by rw [Value.order?_swap hab, swap_beq_lt]
  refine ⟨_, _, _, answers_lt hab, answers_gt hab, answers_eq hab, swapped ▸ answers_lt hab.symm, ?_, ?_, ?_⟩
  · rw [Bool.or_assoc, Bool.or_assoc, ← Value.isNone_order? hab, ← getD_ne_gt]
    exact answers_order hab .le (· != .gt) fun _ => rfl
  · rw [Bool.or_assoc, Bool.or_assoc, ← Value.isNone_order? hab, ← getD_ne_lt]
    exact answers_order hab .ge (· != .lt) fun _ => rfl
  · intro unordered
    rw [← Value.isNone_order? hab, Option.isNone_iff_eq_none] at unordered
    rw [unordered]
    exact ⟨rfl, rfl, rfl⟩

end

/-- Next to a number that is not equal to itself `<=` is true, and `<` and `==` are false: so a machine says. -/
theorem operators_agree_unordered :
    let left : Value := .float (0.0 / 0.0)
    let operands : List Value := [.int 1, left]
    step bareEnv (alone (.binary .le) operands) =
      .running (((alone (.binary .le) operands).advance.drop 2).push (.bool true)) ∧
    step bareEnv (alone (.binary .lt) operands) =
      .running (((alone (.binary .lt) operands).advance.drop 2).push (.bool false)) ∧
    step bareEnv (alone (.binary .eq) operands) =
      .running (((alone (.binary .eq) operands).advance.drop 2).push (.bool false)) := by
  intro left operands
  have unordered : left.isNaN = true := by decide +kernel
  obtain ⟨lt, gt, eq, hlt, -, heq, -, hle, -, hunordered⟩ := operators_agree bareEnv (.floatInt (0.0 / 0.0) 1)
  obtain ⟨rfl, -, rfl⟩ := hunordered (Bool.or_eq_true_iff.mpr (.inl unordered))
  have atMost := hle _ [] (alone_holds ..) (alone_stack ..)
  rw [show (Value.float (0.0 / 0.0)).isNaN = true from unordered] at atMost
  exact ⟨atMost, hlt _ [] (alone_holds ..) (alone_stack ..), heq _ [] (alone_holds ..) (alone_stack ..)⟩

end Machine
end ScriptEngine
