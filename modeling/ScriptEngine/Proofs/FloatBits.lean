import ScriptEngine.Machine

/-! A floating-point number is told by its bits: writing the bits of a number into an image and reading them
    back gives the number. -/

namespace ScriptEngine
open Float.Model

/-- A number of 64 bits is put together from its sign, its exponent and its mantissa. -/
theorem parts_append (b : BitVec 64) : b.extractLsb 63 63 ++ b.extractLsb 62 52 ++ b.extractLsb 51 0 = b := by
  apply BitVec.eq_of_getLsbD_eq
  intro i hi
  rw [BitVec.getLsbD_append, BitVec.getLsbD_append]
  simp only [BitVec.getLsbD_extractLsb]
  by_cases hlow : i < 52
  · simp [hlow]
  · by_cases hmid : i < 63
    · simp [hlow, show i - 52 < 11 by omega, show 52 + (i - 52) = i by omega]
    · obtain rfl : i = 63 := by omega
      simp

theorem sign_toBitVec_ofBitVec (b : BitVec 1) : (UnpackedFloat.Sign.ofBitVec b).toBitVec = b := by
  revert b
  decide

theorem packComponents_unpack (b : BitVec Format.binary64.numBits) :
    UnpackedFloat.packComponents .binary64 (.ofBitVec (UnpackedFloat.unpackSign b)) (UnpackedFloat.unpackExponent b)
      (UnpackedFloat.unpackMantissa b) = b := by
  rw [UnpackedFloat.packComponents, sign_toBitVec_ofBitVec]
  exact parts_append b

/-- Bits that stand for a number, and for no other spelling of it, are the bits of that number. -/
theorem pack_unpack {b : BitVec Format.binary64.numBits} (valid : Format.binary64.Valid b) :
    UnpackedFloat.pack .binary64 (UnpackedFloat.unpack .binary64 b) = b := by
  have parts := packComponents_unpack b
  have hmantissa := (UnpackedFloat.unpackMantissa b).isLt
  have hexponent := (UnpackedFloat.unpackExponent b).isLt
  unfold UnpackedFloat.unpack
  dsimp only
  by_cases hexp : UnpackedFloat.unpackExponent b = -(BitVec.ofNat Format.binary64.exponentBits 1)
  · rw [if_pos hexp]
    by_cases hman : UnpackedFloat.unpackMantissa b = BitVec.ofNat Format.binary64.mantissaBitsWithoutImplicit 0
    · rw [if_pos hman, UnpackedFloat.pack.eq_def]
      dsimp only [UnpackedFloat.packedInfinity]
      rw [hexp, hman] at parts
      exact parts
    · rw [if_neg hman, UnpackedFloat.pack.eq_def]
      dsimp only
      exact (valid.eq_packedNaN hexp hman).symm
  · rw [if_neg hexp]
    by_cases hzero : UnpackedFloat.unpackExponent b = BitVec.ofNat Format.binary64.exponentBits 0
    · rw [if_pos hzero]
      by_cases hman : UnpackedFloat.unpackMantissa b = BitVec.ofNat Format.binary64.mantissaBitsWithoutImplicit 0
      · rw [dif_pos hman, UnpackedFloat.pack.eq_def]
        dsimp only [UnpackedFloat.packedZero]
        rw [hzero, hman] at parts
        exact parts
      · rw [dif_neg hman, UnpackedFloat.pack.eq_def]
        dsimp only
        rw [if_neg, if_neg]
        · rw [hzero] at parts
          rw [BitVec.ofNat_toNat, BitVec.setWidth_eq]
          exact parts
        · have hne : (UnpackedFloat.unpackMantissa b).toNat ≠ 0 := fun heq => hman (BitVec.eq_of_toNat_eq heq)
          have hlog := (Nat.log2_lt hne).mpr hmantissa
          rw [show Format.binary64.mantissaBits = 53 from rfl]
          simp only at hlog
          omega
        · rw [hzero, show Format.binary64.exponentBias = 1023 from rfl]
          simp
    · rw [if_neg hzero]
      have hmax : (UnpackedFloat.unpackExponent b).toNat ≠ 2047 := fun heq => hexp (BitVec.eq_of_toNat_eq heq)
      -- The implicit bit is the one above the mantissa.
      have hwhole : (1#1 ++ UnpackedFloat.unpackMantissa b).toNat = 2 ^ 52 + (UnpackedFloat.unpackMantissa b).toNat := by
        rw [BitVec.toNat_append, ← Nat.shiftLeft_add_eq_or_of_lt hmantissa]
        rfl
      have hbiased : ∀ k bias : Nat, ((k : Int) - (bias + (52 : Nat)) + bias + (52 : Nat)).toNat = k := by omega
      rw [UnpackedFloat.pack.eq_def]
      dsimp only
      rw [if_neg, if_pos]
      · have hcut : BitVec.ofNat 52 (2 ^ 52 + (UnpackedFloat.unpackMantissa b).toNat) = UnpackedFloat.unpackMantissa b := by
          apply BitVec.eq_of_toNat_eq
          rw [BitVec.toNat_ofNat, Nat.add_mod_left, Nat.mod_eq_of_lt hmantissa]
        rw [hbiased, BitVec.ofNat_toNat, BitVec.setWidth_eq, hwhole, hcut]
        exact parts
      · have hlog : (2 ^ 52 + (UnpackedFloat.unpackMantissa b).toNat).log2 = 52 := by
          rw [Nat.log2_eq_iff (by omega)]
          simp only at hmantissa
          omega
        rw [hwhole, hlog]
        rfl
      · rw [hbiased]
        simp only at hexponent ⊢
        omega

/-- A floating-point number is told by its bits. -/
theorem float_ofBits_toBits (x : Float) : Float.ofBits x.toBits = x := by
  cases x with
  | ofModel model =>
    cases model with
    | mk bits valid =>
      refine congrArg Float.ofModel ?_
      have hbits : (Float.Model.ofBits bits).toBits = bits := congrArg UInt64.ofBitVec (pack_unpack valid)
      exact Float.Model.mk.injEq .. ▸ hbits

end ScriptEngine
