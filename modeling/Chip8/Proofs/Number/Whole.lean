import Chip8.Number.Scalar
import Chip8.Proofs.Number.Amount

/-! The numbers 0, 1, 2, … among the 64-bit floating-point numbers: what the program reads from them,
how they compare, and what it gets when it doubles and divides them. -/
namespace Chip8

open Float.Model (Format UnpackedFloat totalExponent)
open Float.Model.UnpackedFloat

namespace Exact

variable {negative : Bool} {m w : ℕ} {e k : ℤ}

theorem isWhole_iff : isWhole m e = true ↔ ∃ w, w * 2 ^ (-e).toNat = m * 2 ^ e.toNat := by
  rcases Int.le_total 0 e with he | he
  · have hdown : (-e).toNat = 0 := by omega
    simp [isWhole, he, hdown]
  · have hup : e.toNat = 0 := by omega
    have hdvd : isWhole m e = true ↔ 2 ^ (-e).toNat ∣ m := by
      rcases he.lt_or_eq with hlt | rfl
      · simp [isWhole, Nat.one_shiftLeft, Nat.dvd_iff_mod_eq_zero, hlt]
      · simp [isWhole]
    rw [hdvd, hup, pow_zero, mul_one, dvd_iff_exists_eq_mul_left]
    simp only [eq_comm]

theorem wholePart_eq (h : w * 2 ^ (-e).toNat = m * 2 ^ e.toNat) : wholePart m e = w := by
  unfold wholePart
  split
  case isTrue he =>
    have hdown : (-e).toNat = 0 := by omega
    rw [Nat.shiftLeft_eq, ← h, hdown, pow_zero, mul_one]
  case isFalse he =>
    have hup : e.toNat = 0 := by omega
    rw [hup, pow_zero, mul_one] at h
    rw [Nat.shiftRight_eq_div_pow, ← h, Nat.mul_div_cancel _ (by positivity)]

theorem integer?_finite_iff :
    (finite negative m e).integer? = some k ↔
      ∃ w : ℕ, w * 2 ^ (-e).toNat = m * 2 ^ e.toNat ∧ k = if negative then -(w : ℤ) else w := by
  unfold integer? trunc?
  dsimp only
  split
  case isTrue hwhole =>
    obtain ⟨w, hw⟩ := isWhole_iff.mp hwhole
    rw [wholePart_eq hw, Option.some.injEq, eq_comm]
    constructor
    · exact fun h => ⟨w, hw, h⟩
    · rintro ⟨w', hw', rfl⟩
      rw [← wholePart_eq hw, wholePart_eq hw']
  case isFalse hwhole =>
    refine iff_of_false (by simp) ?_
    rintro ⟨w, hw, _⟩
    exact hwhole (isWhole_iff.mpr ⟨w, hw⟩)

end Exact

namespace Number

variable {m n a b : ℕ} {e : ℤ} {hm : 0 < m} {u v : UnpackedFloat} {x y : Float}

theorem toInt_of_integer? {k : ℤ} (h : integer? x = some k) : toInt x = k := by
  unfold integer? Exact.integer? at h
  unfold toInt trunc?
  split at h
  · obtain ⟨_, htrunc⟩ := Option.ite_none_right_eq_some.mp h
    simp_all
  · cases h

/-- The number `n`, in the form that the arithmetic gives it. One of the two powers is 1. -/
inductive Whole : UnpackedFloat → ℕ → Prop
  | zero (s : Sign) : Whole (.zero s) 0
  | positive {m n : ℕ} {e : ℤ} {hm : 0 < m} (hlog : m.log2 = 52) (hlow : -1074 ≤ e)
      (hhigh : e ≤ 971) (hvalue : n * 2 ^ (-e).toNat = m * 2 ^ e.toNat) :
      Whole (.finite .positive m e hm) n

theorem Whole.amount (h : Whole u n) : Amount u n := by
  cases h with
  | zero s => simpa using Amount.zero s
  | positive hlog hlow hhigh hvalue =>
    rw [← cast_of_value hvalue]
    exact .positive (.inl ⟨hlog, hlow, hhigh⟩)

theorem ne_zero_of_value (hm : 0 < m) (hvalue : n * 2 ^ (-e).toNat = m * 2 ^ e.toNat) : n ≠ 0 := by
  rintro rfl
  have hpos : 0 < m * 2 ^ e.toNat := by positivity
  omega

theorem log2_of_value (hm : 0 < m) (hlog : m.log2 = 52)
    (hvalue : n * 2 ^ (-e).toNat = m * 2 ^ e.toNat) : (n.log2 : ℤ) = 52 + e := by
  have hlogs := congrArg Nat.log2 hvalue
  rw [log2_mul_two_pow (ne_zero_of_value hm hvalue), log2_mul_two_pow (by omega), hlog] at hlogs
  omega

/-- A mantissa with fewer bits than stand behind the point makes no whole number but zero. -/
theorem eq_zero_of_value (hsmall : m < 2 ^ 52) (he : e ≤ -52)
    (hvalue : n * 2 ^ (-e).toNat = m * 2 ^ e.toNat) : n = 0 := by
  have hup : e.toNat = 0 := by omega
  have hdown : 2 ^ 52 ≤ 2 ^ (-e).toNat := Nat.pow_le_pow_right (by decide) (by omega)
  rw [hup, pow_zero, mul_one] at hvalue
  by_contra hn
  have hle : 2 ^ (-e).toNat ≤ n * 2 ^ (-e).toNat := Nat.le_mul_of_pos_left _ (by omega)
  omega

theorem whole_of_integer? (h : integer? x = some (n : ℤ)) : Whole x.toModel.unpack n := by
  unfold integer? at h
  rw [Exact.ofFloat_eq] at h
  cases hu : x.toModel.unpack with
  | infinity s => rw [hu] at h; cases h
  | notANumber => rw [hu] at h; cases h
  | zero s =>
    rw [hu] at h
    obtain ⟨w, hw, hn⟩ := Exact.integer?_finite_iff.mp h
    rw [zero_mul] at hw
    have hw0 : w = 0 := (Nat.mul_eq_zero.mp hw).resolve_right (pow_ne_zero _ two_ne_zero)
    have hn0 : n = 0 := by cases s <;> simpa [Exact.isNegative, hw0] using hn
    rw [hn0]
    exact .zero s
  | finite s m e hm =>
    rw [hu] at h
    obtain ⟨w, hw, hn⟩ := Exact.integer?_finite_iff.mp h
    have hw0 := ne_zero_of_value hm hw
    cases s with
    | negative =>
      simp only [Exact.isNegative, if_true] at hn
      omega
    | positive =>
      obtain rfl : n = w := by simpa [Exact.isNegative] using hn
      rcases normal_or_least hu with ⟨hlog, hlow, hhigh⟩ | ⟨hsmall, he⟩
      · exact .positive hlog hlow hhigh hw
      · exact absurd (eq_zero_of_value hsmall (by omega) hw) hw0

theorem integer?_eq_some_iff : integer? x = some (n : ℤ) ↔ Whole x.toModel.unpack n := by
  refine ⟨whole_of_integer?, fun h => ?_⟩
  unfold integer?
  rw [Exact.ofFloat_eq]
  generalize x.toModel.unpack = u at h
  cases h with
  | zero s => exact Exact.integer?_finite_iff.mpr ⟨0, by rw [zero_mul, zero_mul], by simp⟩
  | positive _ _ _ hvalue =>
    exact Exact.integer?_finite_iff.mpr ⟨n, hvalue, by simp [Exact.isNegative]⟩

/-! Numbers that are made from natural numbers. -/

/-- However far the point stands to the right of it, a mantissa that is not too long is brought to
its full length. -/
theorem round_exact (hm : 0 < m) (h : m < 2 ^ 53) (hlow : -1074 ≤ m.log2 + e - 52) (k : ℕ) :
    ∃ hm' : 0 < m * 2 ^ (52 - m.log2),
      UnpackedFloat.round Format.binary64 .positive (m * 2 ^ k) (e - k) =
        .finite .positive (m * 2 ^ (52 - m.log2)) (m.log2 + e - 52) hm' ∧
      (m * 2 ^ (52 - m.log2)).log2 = 52 := by
  have hbits : m.log2 < 53 := (Nat.log2_lt hm.ne').mpr h
  have hpos : 0 < m * 2 ^ (52 - m.log2) := by positivity
  have hlog : (m * 2 ^ (52 - m.log2)).log2 = 52 := by
    rw [log2_mul_two_pow hm.ne']
    omega
  have htarget : Format.binary64.targetExponent (totalExponent (m * 2 ^ k) (e - k)) =
      m.log2 + e - 52 := by
    rw [targetExponent_totalExponent, log2_mul_two_pow hm.ne']
    omega
  refine ⟨hpos, ?_, hlog⟩
  -- what is missing of the length is shifted in, and what is too much is cut
  obtain ⟨j, hj⟩ : ∃ j : ℕ, k + (e - k - (m.log2 + e - 52)).toNat = 52 - m.log2 + j :=
    ⟨k - (52 - m.log2), by omega⟩
  have hmantissa : m * 2 ^ k * 2 ^ (e - k - (m.log2 + e - 52)).toNat =
      m * 2 ^ (52 - m.log2) * 2 ^ j := by
    rw [mul_assoc, ← pow_add, hj, pow_add, mul_assoc]
  have hexponent : e - k - (e - k - (m.log2 + e - 52)).toNat = m.log2 + e - 52 - j := by omega
  unfold UnpackedFloat.round decreaseExponent
  dsimp only
  rw [htarget, Nat.shiftLeft_eq, hmantissa, hexponent]
  exact roundWithAccuracy_exact .positive hpos hlog hlow j

theorem round_whole (hn : 0 < n) (h : n < 2 ^ 53) (k : ℕ) :
    ∃ m e, ∃ hm : 0 < m,
      UnpackedFloat.round Format.binary64 .positive (n * 2 ^ k) (-k) = .finite .positive m e hm ∧
      m.log2 = 52 ∧ -1074 ≤ e ∧ e ≤ 971 ∧ n * 2 ^ (-e).toNat = m * 2 ^ e.toNat := by
  have hbits : n.log2 < 53 := (Nat.log2_lt (by omega)).mpr h
  obtain ⟨hm, hround, hlog⟩ := round_exact (e := 0) hn h (by omega) k
  rw [zero_sub, add_zero] at hround
  refine ⟨_, _, hm, hround, hlog, by omega, by omega, ?_⟩
  have hdown : (-((n.log2 : ℤ) - 52)).toNat = 52 - n.log2 := by omega
  have hup : ((n.log2 : ℤ) - 52).toNat = 0 := by omega
  rw [hdown, hup, pow_zero, mul_one]

theorem whole_round (hn : 0 < n) (h : n < 2 ^ 53) :
    ∃ m e, ∃ hm : 0 < m, UnpackedFloat.ofNat Format.binary64 n = .finite .positive m e hm ∧
      m.log2 = 52 ∧ -1074 ≤ e ∧ e ≤ 971 ∧ n * 2 ^ (-e).toNat = m * 2 ^ e.toNat := by
  have hgt : Ord.compare (n : ℤ) 0 = .gt := Int.compare_eq_gt.mpr (by omega)
  have hround : UnpackedFloat.ofNat Format.binary64 n =
      UnpackedFloat.round Format.binary64 .positive (n * 2 ^ 0) (-(0 : ℕ)) := by
    unfold UnpackedFloat.ofNat UnpackedFloat.ofInt UnpackedFloat.normalize
    rw [hgt]
    simp
  rw [hround]
  exact round_whole hn h 0

theorem unpack_one : Float.exactlyRepresentablePowersOfTen[0].toModel.unpack =
    .finite .positive (2 ^ 52) (0 - 52) (by decide) := by
  rfl

theorem whole_ofNat (h : n < 2 ^ 53) : Whole (Float.ofNat n).toModel.unpack n := by
  -- a number is written with a power of ten behind it, which is 1 here
  have hfast : Float.ofNat n = n.toUInt64.toFloat * Float.exactlyRepresentablePowersOfTen[0] :=
    dif_pos ⟨h, by decide⟩
  have hword : n.toUInt64.toFloat.toModel =
      Float.Model.pack (UnpackedFloat.ofNat Format.binary64 n) := by
    have hn : n.toUInt64.toNat = n := Nat.mod_eq_of_lt (by omega)
    change Float.Model.pack (UnpackedFloat.ofNat Format.binary64 n.toUInt64.toNat) = _
    rw [hn]
  have hmodel : (Float.ofNat n).toModel.unpack = (Float.Model.pack (UnpackedFloat.mul Format.binary64
      (Float.Model.pack (UnpackedFloat.ofNat Format.binary64 n)).unpack
      (.finite .positive (2 ^ 52) (0 - 52) (by decide)))).unpack := by
    rw [hfast, ← hword, ← unpack_one]
    rfl
  rw [hmodel]
  rcases Nat.eq_zero_or_pos n with rfl | hn
  · exact Whole.zero .positive
  · obtain ⟨m, e, hm, hround, hlog, hlow, hhigh, hvalue⟩ := whole_round hn h
    rw [hround, unpack_pack_finite _ hm hlog hlow hhigh, mul_two_pow _ hm hlog (by omega),
      add_zero, unpack_pack_finite _ hm hlog hlow hhigh]
    exact .positive hlog hlow hhigh hvalue

theorem amount_ofNat (h : n < 2 ^ 53) : Amount (Float.ofNat n).toModel.unpack n :=
  (whole_ofNat h).amount

theorem integer?_ofNat (h : n < 2 ^ 53) : integer? (Float.ofNat n) = some (n : ℤ) :=
  integer?_eq_some_iff.mpr (whole_ofNat h)

/-! Comparison. -/

theorem le_iff_of_integer? (hx : integer? x = some (a : ℤ)) (hy : integer? y = some (b : ℤ)) :
    x ≤ y ↔ a ≤ b := by
  have hxa := (integer?_eq_some_iff.mp hx).amount
  rw [hxa.le_iff (integer?_eq_some_iff.mp hy).amount, Nat.cast_le]

/-! Twice a number. -/

theorem Whole.double (h : Whole (.finite .positive m e hm) n) (he : e < 971) :
    Whole (.finite .positive m (e + 1) hm) (2 * n) := by
  cases h with
  | positive hlog hlow hhigh hvalue =>
    refine .positive hlog (by omega) he ?_
    rcases Int.lt_or_le e 0 with hneg | hpos
    · have hdown : (-e).toNat = (-(e + 1)).toNat + 1 := by omega
      have hup : (e + 1).toNat = e.toNat := by omega
      rw [hup, ← hvalue, hdown]
      ring
    · have hdown : (-(e + 1)).toNat = (-e).toNat := by omega
      have hup : (e + 1).toNat = e.toNat + 1 := by omega
      rw [hup, hdown, mul_assoc, hvalue]
      ring

/-- A number has one form, unless it is zero. -/
theorem Whole.unique (hu : Whole u n) (hv : Whole v n) (hn : n ≠ 0) : u = v := by
  cases hu with
  | zero s => exact absurd rfl hn
  | @positive m₁ _ e₁ hm₁ hlog₁ _ _ hvalue₁ =>
    cases hv with
    | zero s => exact absurd rfl hn
    | @positive m₂ _ e₂ hm₂ hlog₂ _ _ hvalue₂ =>
      have he₁ := log2_of_value hm₁ hlog₁ hvalue₁
      have he₂ := log2_of_value hm₂ hlog₂ hvalue₂
      obtain rfl : e₁ = e₂ := by omega
      obtain rfl : m₁ = m₂ := Nat.eq_of_mul_eq_mul_right (by positivity) (hvalue₁.symm.trans hvalue₂)
      rfl

/-- The forms of a number that a mantissa can hold. -/
theorem Whole.of_lt (h : Whole u n) (hn : n < 2 ^ 53) :
    (∃ s, u = .zero s ∧ n = 0) ∨
      ∃ m e, ∃ hm : 0 < m, u = .finite .positive m e hm ∧ n ≠ 0 ∧ m.log2 = 52 ∧ -52 ≤ e ∧ e ≤ 0 := by
  cases h with
  | zero s => exact .inl ⟨s, rfl, rfl⟩
  | @positive m _ e hm hlog hlow hhigh hvalue =>
    have hpos := ne_zero_of_value hm hvalue
    have hexponent := log2_of_value hm hlog hvalue
    have hbits := (Nat.log2_lt hpos).mpr hn
    exact .inr ⟨m, e, hm, rfl, hpos, hlog, by omega, by omega⟩

theorem unpack_two :
    (Float.ofNat 2).toModel.unpack = .finite .positive (2 ^ 52) (1 - 52) (by decide) := by
  rfl

theorem integer?_double (hx : integer? x = some (a : ℤ)) (ha : a < 2 ^ 53) :
    integer? (x * Float.ofNat 2) = some ((2 * a : ℕ) : ℤ) := by
  rw [integer?_eq_some_iff] at hx ⊢
  have hmodel : (x * Float.ofNat 2).toModel.unpack = (Float.Model.pack (UnpackedFloat.mul
      Format.binary64 x.toModel.unpack (.finite .positive (2 ^ 52) (1 - 52) (by decide)))).unpack := by
    rw [← unpack_two]
    rfl
  rw [hmodel]
  obtain ⟨s, hu, rfl⟩ | ⟨m, e, hm, hu, _, hlog, hlow, hhigh⟩ := hx.of_lt ha
  · have hzero : UnpackedFloat.mul Format.binary64 (.zero s)
        (.finite .positive (2 ^ 52) (1 - 52) (by decide)) = .zero (s * .positive) := rfl
    rw [hu, hzero, unpack_pack_zero]
    exact .zero _
  · rw [hu] at hx ⊢
    rw [mul_two_pow _ hm hlog (by omega), unpack_pack_finite _ hm hlog (by omega) (by omega)]
    exact hx.double (by omega)

theorem unpack_ofNat_double (hx : Whole (.finite .positive m e hm) a) (ha : a < 2 ^ 52) :
    (Float.ofNat (2 * a)).toModel.unpack = .finite .positive m (e + 1) hm := by
  obtain ⟨_, h, _⟩ | ⟨_, _, _, h, hpos, _, _, hhigh⟩ := hx.of_lt (by omega)
  · cases h
  · cases h
    exact (whole_ofNat (by omega)).unique (hx.double (by omega)) (by omega)

/-! Quotients. -/

theorem unpack_div (x y : Float) : (x / y).toModel.unpack =
    (Float.Model.pack (UnpackedFloat.div Format.binary64 x.toModel.unpack y.toModel.unpack)).unpack :=
  rfl

theorem div_eq_of_unpack {x' y' : Float}
    (h : UnpackedFloat.div Format.binary64 x.toModel.unpack y.toModel.unpack =
      UnpackedFloat.div Format.binary64 x'.toModel.unpack y'.toModel.unpack) : x / y = x' / y' :=
  congrArg (fun u => Float.ofModel (Float.Model.pack u)) h

theorem unpack_zero : (Float.ofNat 0).toModel.unpack = .zero .positive := by
  rfl

/-- The quotient of two numbers is also the quotient of their doubles. -/
theorem ofNat_div_double (ha : a < 2 ^ 52) (hy : integer? y = some (b : ℤ)) (hb : b < 2 ^ 52)
    (hb0 : b ≠ 0) : Float.ofNat (2 * a) / Float.ofNat (2 * b) = Float.ofNat a / y := by
  have hx := whole_ofNat (n := a) (by omega)
  rw [integer?_eq_some_iff] at hy
  apply div_eq_of_unpack
  obtain ⟨_, _, rfl⟩ | ⟨m₂, e₂, hm₂, hv, _, hlog₂, hlow₂, hhigh₂⟩ := hy.of_lt (by omega)
  · exact absurd rfl hb0
  rw [hv] at hy
  rw [hv, unpack_ofNat_double hy hb]
  obtain ⟨s, _, rfl⟩ | ⟨m₁, e₁, hm₁, hu, _, hlog₁, hlow₁, hhigh₁⟩ := hx.of_lt (by omega)
  · rfl
  · rw [hu] at hx
    have hdiff : e₁ + 1 - (e₂ + 1) = e₁ - e₂ := by omega
    rw [hu, unpack_ofNat_double hx ha, div_finite _ _ hm₁ hm₂ hlog₁ hlog₂ (by omega),
      div_finite _ _ hm₁ hm₂ hlog₁ hlog₂ (by omega), hdiff]

theorem bounded_div (ha : a < 2 ^ 53) (hb : b < 2 ^ 53) (hb0 : b ≠ 0) :
    Bounded .positive (Float.ofNat a / Float.ofNat b).toModel.unpack := by
  rw [unpack_div]
  obtain ⟨_, _, rfl⟩ | ⟨m₂, e₂, hm₂, hv, _, hlog₂, hlow₂, hhigh₂⟩ := (whole_ofNat hb).of_lt hb
  · exact absurd rfl hb0
  rcases Nat.eq_zero_or_pos a with rfl | ha0
  · rw [hv, unpack_zero]
    exact (unpack_pack_zero .positive).symm ▸ rfl
  obtain ⟨_, _, rfl⟩ | ⟨m₁, e₁, hm₁, hu, _, hlog₁, hlow₁, hhigh₁⟩ := (whole_ofNat ha).of_lt ha
  · exact absurd ha0 (Nat.lt_irrefl 0)
  rw [hu, hv]
  exact bounded_div_finite .positive .positive hm₁ hm₂ hlog₁ hlog₂ (by omega) (by omega)

theorem isFinite_and_nonneg (h : Bounded .positive x.toModel.unpack) :
    x.isFinite = true ∧ 0 ≤ x := by
  have hzero : (0 : Float).toModel.unpack = .zero .positive := unpack_zero
  have hfinite : x.isFinite = x.toModel.unpack.isFinite := rfl
  rw [hfinite, le_iff_compare, hzero]
  generalize x.toModel.unpack = u at h
  cases u with
  | infinity s => exact h.elim
  | notANumber => exact h.elim
  | zero s => exact ⟨rfl, rfl⟩
  | finite s m e hm =>
    obtain rfl : s = .positive := h
    exact ⟨rfl, rfl⟩

end Number

end Chip8
