import Chip8.Number.Exact
import Mathlib

/-! How the 64-bit floating-point numbers are read, rounded and put into bits: what stays exact, and
what stays finite. -/
namespace Chip8

open Float.Model (Format UnpackedFloat totalExponent)
open Float.Model.UnpackedFloat

namespace Exact

def isNegative : Sign → Bool
  | .negative => true
  | .positive => false

def ofUnpacked : UnpackedFloat → Exact
  | .infinity s => .infinite (isNegative s)
  | .notANumber => .notANumber
  | .zero s => .finite (isNegative s) 0 (-1074)
  | .finite s m e _ => .finite (isNegative s) m e

theorem isNegative_ofBitVec (v : BitVec 1) : isNegative (Sign.ofBitVec v) = v.toNat.testBit 0 := by
  revert v
  decide

theorem eq_ones_iff (v : BitVec 11) : v = -1#11 ↔ v.toNat + 1 = 1 <<< 11 := by
  rw [← BitVec.toNat_inj]
  simp

theorem toNat_implicit (v : BitVec 52) : (1#1 ++ v).toNat = 1 <<< 52 + v.toNat := by
  rw [BitVec.toNat_append, ← Nat.shiftLeft_add_eq_or_of_lt v.isLt]
  rfl

variable (b : BitVec Format.binary64.numBits)

theorem toNat_unpackMantissa : (unpackMantissa b).toNat = b.toNat % 1 <<< 52 := by
  simp [unpackMantissa]

theorem toNat_unpackExponent : (unpackExponent b).toNat = b.toNat / 1 <<< 52 % 1 <<< 11 := by
  simp [unpackExponent, Nat.shiftRight_eq_div_pow]

theorem testBit_unpackSign : (unpackSign b).toNat.testBit 0 = b.toNat.testBit (52 + 11) := by
  simp [unpackSign]

theorem ofFields_toNat : ofFields 52 11 b.toNat = ofUnpacked (unpack _ b) := by
  unfold unpack ofFields
  dsimp only
  rw [← toNat_unpackMantissa, ← toNat_unpackExponent, ← testBit_unpackSign, ← isNegative_ofBitVec]
  have hones := eq_ones_iff (unpackExponent b)
  have he : unpackExponent b = 0#11 ↔ (unpackExponent b).toNat = 0 := BitVec.toNat_inj.symm
  have hm : unpackMantissa b = 0#52 ↔ (unpackMantissa b).toNat = 0 := BitVec.toNat_inj.symm
  split
  case isTrue hmax =>
    rw [if_pos (hones.mpr hmax)]
    by_cases hzero : (unpackMantissa b).toNat = 0
    · rw [if_pos hzero, if_pos (hm.mpr hzero)]
      rfl
    · rw [if_neg hzero, if_neg (hm.not.mpr hzero)]
      rfl
  case isFalse hmax =>
    rw [if_neg (hones.not.mpr hmax)]
    split
    case isTrue hsub =>
      rw [if_pos (he.mpr hsub)]
      split
      case isTrue hzero => rw [hm.mp hzero]; rfl
      case isFalse hzero => rw [hsub]; rfl
    case isFalse hnormal =>
      rw [if_neg (he.not.mpr hnormal)]
      exact congrArg (finite _ · _) (toNat_implicit _).symm

/-- The bits are read as the arithmetic reads them. -/
theorem ofFloat_eq (x : Float) : ofFloat x = ofUnpacked x.toModel.unpack :=
  ofFields_toNat x.toModel.toBits.toBitVec

end Exact

namespace Number

variable {s : Sign} {m n : ℕ} {e : ℤ} {hm : 0 < m}

/-- A finite number has a full mantissa unless its exponent is the least. -/
theorem normal_or_least {b : BitVec Format.binary64.numBits}
    (h : unpack Format.binary64 b = .finite s m e hm) :
    m.log2 = 52 ∧ -1074 ≤ e ∧ e ≤ 971 ∨ m < 2 ^ 52 ∧ e = -1074 := by
  unfold unpack at h
  dsimp only at h
  split at h
  case isTrue => split at h <;> cases h
  case isFalse hones =>
    split at h
    case isTrue hsub =>
      split at h
      · cases h
      · simp only [UnpackedFloat.finite.injEq] at h
        obtain ⟨_, rfl, rfl⟩ := h
        refine .inr ⟨(unpackMantissa b).isLt, ?_⟩
        rw [hsub]
        rfl
    case isFalse hzero =>
      simp only [UnpackedFloat.finite.injEq] at h
      obtain ⟨_, rfl, rfl⟩ := h
      have hbits : (unpackExponent b).toNat < 2 ^ 11 := (unpackExponent b).isLt
      have hpos : (unpackExponent b).toNat ≠ 0 := fun hz => hzero (BitVec.toNat_inj.mp hz)
      have hmax : (unpackExponent b).toNat + 1 ≠ 2 ^ 11 :=
        (Exact.eq_ones_iff (unpackExponent b)).not.mp hones
      have hbias : ((Format.binary64.exponentBias : ℤ) + (52 : ℕ)) = 1075 := rfl
      have hmantissa : (unpackMantissa b).toNat < 2 ^ 52 := (unpackMantissa b).isLt
      have himplicit : (1#1 ++ unpackMantissa b).toNat = 2 ^ 52 + (unpackMantissa b).toNat :=
        Exact.toNat_implicit (unpackMantissa b)
      rw [hbias]
      refine .inl ⟨?_, by omega, by omega⟩
      rw [Nat.log2_eq_iff (by omega)]
      omega

/-! What comes back from the bits of a number. -/

theorem unpackSign_packComponents (s : Sign) (e : BitVec 11) (m : BitVec 52) :
    Sign.ofBitVec (unpackSign (packComponents Format.binary64 s e m)) = s := by
  have hbit : (s.toBitVec ++ e ++ m).getLsbD 63 = s.toBitVec.getLsbD 0 := by
    rw [BitVec.getLsbD_append, BitVec.getLsbD_append]
    simp
  have hsign : unpackSign (packComponents Format.binary64 s e m) = s.toBitVec := by
    apply BitVec.eq_of_getLsbD_eq
    intro i hi
    obtain rfl : i = 0 := by omega
    simp [unpackSign, packComponents, hbit]
  rw [hsign]
  cases s <;> rfl

/-- The number is finite and has this sign. -/
def Bounded (s : Sign) : UnpackedFloat → Prop
  | .zero s' => s' = s
  | .finite s' _ _ _ => s' = s
  | _ => False

theorem bounded_packComponents (s : Sign) {e : BitVec 11} (m : BitVec 52) (he : e ≠ -1#11) :
    Bounded s (unpack _ (packComponents Format.binary64 s e m)) := by
  unfold unpack
  simp only [unpackMantissa_packComponents, unpackExponent_packComponents,
    unpackSign_packComponents, if_neg he]
  split
  · split <;> rfl
  · rfl

theorem unpack_pack_zero (s : Sign) : (Float.Model.pack (.zero s)).unpack = .zero s := by
  change unpack _ (packComponents Format.binary64 s 0#11 0#52) = _
  have hones : 0#11 ≠ -1#11 := by decide
  unfold unpack
  simp only [unpackMantissa_packComponents, unpackExponent_packComponents,
    unpackSign_packComponents, if_neg hones, if_true, dif_pos]

theorem ofNat_ne_ones (h : n < 2047) : BitVec.ofNat 11 n ≠ -1#11 := by
  rw [Ne, Exact.eq_ones_iff, BitVec.toNat_ofNat, Nat.one_shiftLeft]
  omega

theorem pack_finite (s : Sign) (hm : 0 < m) (he : e ≤ 971) :
    pack Format.binary64 (.finite s m e hm) =
      packComponents Format.binary64 s
        (if m.log2 = 52 then BitVec.ofNat 11 (e + 1075).toNat else 0#11) (BitVec.ofNat 52 m) := by
  have hbias : e + 1023 + 52 = e + 1075 := by omega
  have hfits : ¬ 2 ^ 11 ≤ (e + 1075).toNat + 1 := by omega
  change (if 2 ^ 11 ≤ (e + 1023 + 52).toNat + 1 then _ else
    if m.log2 + 1 = 53 then packComponents Format.binary64 s (BitVec.ofNat 11 (e + 1023 + 52).toNat) _
    else _) = _
  rw [hbias, if_neg hfits]
  simp only [Nat.reduceEqDiff]
  split <;> rfl

theorem bounded_pack_finite (s : Sign) (hm : 0 < m) (he : e ≤ 971) :
    Bounded s (Float.Model.pack (.finite s m e hm)).unpack := by
  change Bounded s (unpack _ (pack Format.binary64 (.finite s m e hm)))
  rw [pack_finite s hm he]
  apply bounded_packComponents
  split
  · exact ofNat_ne_ones (by omega)
  · decide

theorem unpack_pack_finite (s : Sign) (hm : 0 < m) (hlog : m.log2 = 52) (hlow : -1074 ≤ e)
    (hhigh : e ≤ 971) : (Float.Model.pack (.finite s m e hm)).unpack = .finite s m e hm := by
  change unpack _ (pack Format.binary64 (.finite s m e hm)) = _
  rw [pack_finite s hm hhigh, if_pos hlog]
  have hexponent : (BitVec.ofNat 11 (e + 1075).toNat).toNat = (e + 1075).toNat := by
    rw [BitVec.toNat_ofNat]
    omega
  have hzero : BitVec.ofNat 11 (e + 1075).toNat ≠ 0#11 := by
    rw [Ne, ← BitVec.toNat_inj, hexponent]
    simp
    omega
  have himplicit : (1#1 ++ BitVec.ofNat 52 m).toNat = m := by
    rw [Nat.log2_eq_iff (by omega)] at hlog
    rw [Exact.toNat_implicit, BitVec.toNat_ofNat, Nat.one_shiftLeft]
    omega
  unfold unpack
  simp only [unpackMantissa_packComponents, unpackExponent_packComponents,
    unpackSign_packComponents, if_neg (ofNat_ne_ones (show (e + 1075).toNat < 2047 by omega)),
    if_neg hzero, himplicit, hexponent]
  congr 1
  change ((e + 1075).toNat : ℤ) - (1023 + 52) = e
  omega

/-- A mantissa that is not full comes back at the least exponent. -/
theorem unpack_pack_least (s : Sign) (hm : 0 < m) (hsmall : m < 2 ^ 52) :
    (Float.Model.pack (.finite s m (-1074) hm)).unpack = .finite s m (-1074) hm := by
  have hlog : m.log2 ≠ 52 := ((Nat.log2_lt hm.ne').mpr hsmall).ne
  have hmantissa : (BitVec.ofNat 52 m).toNat = m := by
    rw [BitVec.toNat_ofNat, Nat.mod_eq_of_lt hsmall]
  have hzero : BitVec.ofNat 52 m ≠ 0#52 := by
    rw [Ne, ← BitVec.toNat_inj, hmantissa]
    exact hm.ne'
  have hones : 0#11 ≠ -1#11 := by decide
  change unpack _ (pack Format.binary64 (.finite s m (-1074) hm)) = _
  rw [pack_finite s hm (by decide), if_neg hlog]
  unfold unpack
  simp only [unpackMantissa_packComponents, unpackExponent_packComponents,
    unpackSign_packComponents, if_neg hones, if_true, dif_neg hzero, hmantissa]
  rfl

/-! Rounding. -/

theorem log2_mul_two_pow (hm : m ≠ 0) (k : ℕ) : (m * 2 ^ k).log2 = m.log2 + k := by
  induction k with
  | zero => simp
  | succ k ih =>
    have hdouble : m * 2 ^ (k + 1) = 2 * (m * 2 ^ k) := by ring
    rw [hdouble, Nat.log2_two_mul (by positivity), ih, Nat.add_assoc]

theorem log2_le_of_lt {k : ℕ} (h : n < 2 ^ (k + 1)) : n.log2 ≤ k := by
  rcases Nat.eq_zero_or_pos n with rfl | hn
  · simp
  · exact Nat.lt_succ_iff.mp ((Nat.log2_lt (by omega)).mpr h)

theorem targetExponent_totalExponent (m : ℕ) (e : ℤ) :
    Format.binary64.targetExponent (totalExponent m e) = max (m.log2 + e - 52) (-1074) := by
  change max ((m.log2 : ℤ) + 1 + e - 53) (-1074) = _
  congr 1
  omega

/-- Shifted to the left and back again, a mantissa leaves no bits behind. -/
theorem shiftRight_mul_two_pow (m k : ℕ) :
    (ExtendedMantissa.mk (m * 2 ^ k) false false) >>> k = ⟨m, false, false⟩ := by
  induction k generalizing m with
  | zero => simp [HShiftRight.hShiftRight, Nat.repeat]
  | succ k ih =>
    have hdouble : m * 2 ^ (k + 1) = 2 * m * 2 ^ k := by ring
    have hshift : (ExtendedMantissa.mk (m * 2 ^ (k + 1)) false false) >>> (k + 1) =
        ((ExtendedMantissa.mk (2 * m * 2 ^ k) false false) >>> k).shiftRightOne := by
      rw [hdouble]
      rfl
    rw [hshift, ih]
    simp [ExtendedMantissa.shiftRightOne]

theorem shiftToTargetExponent_exact (hlog : m.log2 = 52) (hlow : -1074 ≤ e) (k : ℕ) :
    shiftToTargetExponent Format.binary64 (m * 2 ^ k) (e - k) .exact =
      (⟨m, false, false⟩, e) := by
  have hm : m ≠ 0 := by
    rintro rfl
    simp at hlog
  have htarget : Format.binary64.targetExponent (totalExponent (m * 2 ^ k) (e - k)) = e := by
    rw [targetExponent_totalExponent, log2_mul_two_pow hm, hlog]
    omega
  have hshift : (e - (e - k)).toNat = k := by omega
  unfold shiftToTargetExponent shiftToExponent
  simp only [htarget, hshift, ExtendedMantissa.ofMantissaAndAccuracy, shiftRight_mul_two_pow]
  congr 1
  omega

/-- A number whose mantissa has 53 bits, with zeros behind them, is not changed. -/
theorem roundWithAccuracy_exact (s : Sign) (hm : 0 < m) (hlog : m.log2 = 52) (hlow : -1074 ≤ e)
    (k : ℕ) :
    roundWithAccuracy Format.binary64 s (m * 2 ^ k) (e - k) .exact = .finite s m e hm := by
  have hagain := shiftToTargetExponent_exact hlog hlow 0
  simp only [pow_zero, mul_one, Nat.cast_zero, sub_zero] at hagain
  have hrounded : (ExtendedMantissa.mk m false false).roundedMantissa = m := rfl
  unfold roundWithAccuracy
  simp only [shiftToTargetExponent_exact hlog hlow k, hrounded, hagain]
  rw [dif_neg (by omega)]

theorem mantissa_shiftRight (em : ExtendedMantissa) (k : ℕ) :
    (em >>> k).mantissa = em.mantissa / 2 ^ k := by
  induction k with
  | zero => simp [HShiftRight.hShiftRight, Nat.repeat]
  | succ k ih =>
    have hshift : (em >>> (k + 1)).mantissa = (em >>> k).mantissa / 2 := rfl
    rw [hshift, ih, Nat.div_div_eq_div_mul, pow_succ]

theorem mantissa_shiftRight_le (em : ExtendedMantissa) (k : ℕ) :
    (em >>> k).mantissa ≤ em.mantissa := by
  rw [mantissa_shiftRight]
  exact Nat.div_le_self _ _

theorem roundedMantissa_le (em : ExtendedMantissa) : em.roundedMantissa ≤ em.mantissa + 1 := by
  rcases em with ⟨m, round, sticky⟩
  cases round <;> cases sticky <;>
    simp [ExtendedMantissa.roundedMantissa, ExtendedMantissa.accuracy, Accuracy.roundToNearestEven]
  omega

theorem mantissa_ofMantissaAndAccuracy (m : ℕ) (a : Accuracy) :
    (ExtendedMantissa.ofMantissaAndAccuracy m a).mantissa = m := by
  cases a with
  | exact => rfl
  | inexact o => cases o <;> rfl

theorem shiftToTargetExponent_le (m : ℕ) (e : ℤ) (a : Accuracy) :
    (shiftToTargetExponent Format.binary64 m e a).1.mantissa ≤ m ∧
      (shiftToTargetExponent Format.binary64 m e a).2 = max e (max (m.log2 + e - 52) (-1074)) := by
  unfold shiftToTargetExponent shiftToExponent
  rw [targetExponent_totalExponent]
  refine ⟨?_, ?_⟩
  · exact (mantissa_shiftRight_le _ _).trans (mantissa_ofMantissaAndAccuracy m a).le
  · dsimp only
    omega

/-- Far below the largest number nothing is rounded up to an infinity. -/
theorem bounded_roundWithAccuracy (s : Sign) (a : Accuracy) (hm : m.log2 ≤ 200) (he : e ≤ 100) :
    Bounded s (Float.Model.pack (roundWithAccuracy Format.binary64 s m e a)).unpack := by
  obtain ⟨hfirst, hexponent⟩ := shiftToTargetExponent_le m e a
  unfold roundWithAccuracy
  generalize shiftToTargetExponent Format.binary64 m e a = first at hfirst hexponent ⊢
  have hrounded : first.1.roundedMantissa ≤ m + 1 :=
    (roundedMantissa_le first.1).trans (Nat.add_le_add_right hfirst 1)
  have hlog : first.1.roundedMantissa.log2 ≤ 201 := by
    apply log2_le_of_lt
    have hlt : m < 2 ^ 201 := Nat.lt_log2_self.trans_le (Nat.pow_le_pow_right (by decide) (by omega))
    omega
  obtain ⟨_, hagain⟩ := shiftToTargetExponent_le first.1.roundedMantissa first.2 .exact
  dsimp only
  split
  · rw [unpack_pack_zero]
    rfl
  · exact bounded_pack_finite s _ (by omega)

/-! Arithmetic on numbers with full mantissas. -/

/-- A power of two moves the exponent. -/
theorem mul_two_pow {k : ℤ} (s : Sign) (hm : 0 < m) (hlog : m.log2 = 52) (hlow : -1074 ≤ e + k) :
    UnpackedFloat.mul Format.binary64 (.finite s m e hm)
      (.finite .positive (2 ^ 52) (k - 52) (by decide)) = .finite s m (e + k) hm := by
  have hsign : s * .positive = s := by cases s <;> rfl
  have hexponent : e + (k - 52) = e + k - (52 : ℕ) := by omega
  change roundWithAccuracy Format.binary64 (s * .positive) (m * 2 ^ 52) (e + (k - 52)) .exact = _
  rw [hsign, hexponent, roundWithAccuracy_exact s hm hlog hlow 52]

/-- A quotient depends on the exponents by their difference only. -/
theorem div_finite {m₁ m₂ : ℕ} {e₁ e₂ : ℤ} (s₁ s₂ : Sign) (hm₁ : 0 < m₁) (hm₂ : 0 < m₂)
    (hlog₁ : m₁.log2 = 52) (hlog₂ : m₂.log2 = 52) (he : -1000 ≤ e₁ - e₂) :
    UnpackedFloat.div Format.binary64 (.finite s₁ m₁ e₁ hm₁) (.finite s₂ m₂ e₂ hm₂) =
      roundWithAccuracy Format.binary64 (s₁ / s₂) (m₁ <<< 53 / m₂) (e₁ - e₂ - 53)
        (accuracyOfFraction (m₁ <<< 53 % m₂) m₂) := by
  have htarget : Format.binary64.targetExponent (totalExponent m₁ e₁ - totalExponent m₂ e₂) =
      e₁ - e₂ - 53 := by
    change max ((m₁.log2 : ℤ) + 1 + e₁ - (m₂.log2 + 1 + e₂) - 53) (-1074) = _
    omega
  have hmin : min (e₁ - e₂) (e₁ - e₂ - 53) = e₁ - e₂ - 53 := by omega
  have hshift : (e₁ - e₂ - (e₁ - e₂ - 53)).toNat = 53 := by omega
  simp only [UnpackedFloat.div, divCore, htarget, hmin, hshift]

/-- A quotient of two such numbers is finite, unless the divisor is far below the dividend. -/
theorem bounded_div_finite {m₁ m₂ : ℕ} {e₁ e₂ : ℤ} (s₁ s₂ : Sign) (hm₁ : 0 < m₁) (hm₂ : 0 < m₂)
    (hlog₁ : m₁.log2 = 52) (hlog₂ : m₂.log2 = 52) (hlow : -1000 ≤ e₁ - e₂) (hhigh : e₁ - e₂ ≤ 100) :
    Bounded (s₁ / s₂) (Float.Model.pack (UnpackedFloat.div Format.binary64 (.finite s₁ m₁ e₁ hm₁)
      (.finite s₂ m₂ e₂ hm₂))).unpack := by
  have hquotient : (m₁ <<< 53 / m₂).log2 ≤ 200 := by
    have hlt : m₁ < 2 ^ 53 := (Nat.log2_lt (by omega)).mp (by omega)
    have hle := Nat.div_le_self (m₁ <<< 53) m₂
    rw [Nat.shiftLeft_eq] at hle
    apply log2_le_of_lt
    rw [Nat.shiftLeft_eq]
    omega
  rw [div_finite s₁ s₂ hm₁ hm₂ hlog₁ hlog₂ hlow]
  exact bounded_roundWithAccuracy _ _ hquotient (by omega)

end Number

end Chip8
