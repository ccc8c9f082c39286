import Chip8.Proofs.Number.Floor

/-! How products and quotients are rounded: next to their values, so that quotients of natural
numbers lose nothing but their fractions, and not at all where a mantissa holds the product. -/
namespace Chip8

open Float.Model (Format UnpackedFloat totalExponent)
open Float.Model.UnpackedFloat

namespace Number

variable {m n i j : ℕ} {e : ℤ} {u v : UnpackedFloat} {x y : Float} {a b q : ℚ}

/-- The number is the multiple of a power of two next to `q`, above it or below it, and `q` is at
least so many of these powers as a full mantissa counts. -/
def Rounds (u : UnpackedFloat) (q : ℚ) : Prop :=
  ∃ (k : ℕ) (e : ℤ), Amount u (k * 2 ^ e) ∧ 2 ^ 52 * 2 ^ e ≤ q ∧ k * 2 ^ e ≤ q + 2 ^ e ∧
    q < (k + 1) * 2 ^ e

theorem mantissa_le_roundedMantissa (em : ExtendedMantissa) : em.mantissa ≤ em.roundedMantissa := by
  rcases em with ⟨m, round, sticky⟩
  cases round <;> cases sticky <;>
    simp [ExtendedMantissa.roundedMantissa, ExtendedMantissa.accuracy, Accuracy.roundToNearestEven]

/-- A mantissa that was rounded up to a power of two is full again, with the next exponent. -/
theorem shiftToTargetExponent_full (hlow : 2 ^ 52 ≤ m) (hhigh : m ≤ 2 ^ 53) (he : -1074 ≤ e) :
    ∃ (m' : ℕ) (e' : ℤ), m'.log2 = 52 ∧ e ≤ e' ∧ e' ≤ e + 1 ∧ (m' * 2 ^ e' : ℚ) = m * 2 ^ e ∧
      shiftToTargetExponent Format.binary64 m e .exact = (⟨m', false, false⟩, e') := by
  rcases hhigh.lt_or_eq with hlt | rfl
  · have hlog : m.log2 = 52 := (Nat.log2_eq_iff (by omega)).mpr ⟨hlow, hlt⟩
    refine ⟨m, e, hlog, le_rfl, by omega, rfl, ?_⟩
    simpa using shiftToTargetExponent_exact hlog he 0
  · have hlog : (2 ^ 52).log2 = 52 := by decide
    refine ⟨2 ^ 52, e + 1, hlog, by omega, le_rfl, ?_, ?_⟩
    · rw [zpow_add_one₀ two_ne_zero]
      push_cast
      ring
    · simpa using shiftToTargetExponent_exact (e := e + 1) hlog (by omega) 1

theorem shiftToTargetExponent_cut {k : ℕ} (acc : Accuracy) (hk : m.log2 = 52 + k)
    (hlow : -1074 ≤ e + k) : shiftToTargetExponent Format.binary64 m e acc =
      (ExtendedMantissa.ofMantissaAndAccuracy m acc >>> k, e + k) := by
  have hshift : (max ((m.log2 : ℤ) + e - 52) (-1074) - e).toNat = k := by omega
  unfold shiftToTargetExponent shiftToExponent
  rw [targetExponent_totalExponent]
  simp only [hshift]

/-- What is left of a mantissa that is cut to its full length. -/
theorem cut_bounds {k : ℕ} (hk : m.log2 = 52 + k) :
    m / 2 ^ k * 2 ^ k ≤ m ∧ m + 1 ≤ (m / 2 ^ k + 1) * 2 ^ k ∧ 2 ^ 52 ≤ m / 2 ^ k ∧
      m / 2 ^ k < 2 ^ 53 := by
  have hm : m ≠ 0 := by
    rintro rfl
    simp at hk
    omega
  have hsum : 53 + k = 52 + k + 1 := by omega
  obtain ⟨hleast, hgreatest⟩ := (Nat.log2_eq_iff hm).mp hk
  refine ⟨Nat.div_mul_le_self _ _, ?_, ?_, ?_⟩
  · rw [Nat.mul_comm]
    exact Nat.lt_mul_div_succ m (by positivity)
  · exact (Nat.le_div_iff_mul_le (by positivity)).mpr (by rwa [← pow_add])
  · exact (Nat.div_lt_iff_lt_mul (by positivity)).mpr (by rwa [← pow_add, hsum])

/-- A long mantissa is cut to its full length and rounded from there, up or down. -/
theorem roundWithAccuracy_cut {k : ℕ} (s : Sign) (acc : Accuracy) (hk : m.log2 = 52 + k)
    (hlow : -1074 ≤ e + k) :
    ∃ (r m' : ℕ) (e' : ℤ) (hm' : 0 < m'),
      roundWithAccuracy Format.binary64 s m e acc = .finite s m' e' hm' ∧ m'.log2 = 52 ∧
      e + k ≤ e' ∧ e' ≤ e + k + 1 ∧ (m' * 2 ^ e' : ℚ) = r * 2 ^ (e + k) ∧
      m / 2 ^ k ≤ r ∧ r ≤ m / 2 ^ k + 1 := by
  unfold roundWithAccuracy
  rw [shiftToTargetExponent_cut acc hk hlow]
  dsimp only
  have hbelow := mantissa_le_roundedMantissa (ExtendedMantissa.ofMantissaAndAccuracy m acc >>> k)
  have habove := roundedMantissa_le (ExtendedMantissa.ofMantissaAndAccuracy m acc >>> k)
  rw [mantissa_shiftRight, mantissa_ofMantissaAndAccuracy] at hbelow habove
  generalize (ExtendedMantissa.ofMantissaAndAccuracy m acc >>> k).roundedMantissa = r
    at hbelow habove ⊢
  obtain ⟨_, _, hfull, hshort⟩ := cut_bounds hk
  obtain ⟨m', e', hlog', hle', hge', hvalue, hsecond⟩ :=
    shiftToTargetExponent_full (m := r) (e := e + k) (by omega) (by omega) hlow
  have hm' : 0 < m' := Nat.pos_of_ne_zero (by rintro rfl; simp at hlog')
  refine ⟨r, m', e', hm', ?_, hlog', hle', hge', hvalue, hbelow, habove⟩
  simp only [hsecond]
  exact dif_neg hm'.ne'

/-- Numbers whose mantissas are long enough are rounded so, whatever is known of their accuracy. -/
theorem rounds_roundWithAccuracy (acc : Accuracy) (hlog : 52 ≤ m.log2) (hlow : -1022 ≤ m.log2 + e)
    (hhigh : m.log2 + e ≤ 1000) (hle : m * 2 ^ e ≤ q) (hlt : q < (m + 1) * 2 ^ e) :
    Rounds (Float.Model.pack (roundWithAccuracy Format.binary64 .positive m e acc)).unpack q := by
  obtain ⟨k, hk⟩ : ∃ k, m.log2 = 52 + k := ⟨m.log2 - 52, by omega⟩
  obtain ⟨r, m', e', hm', hround, hlog', hle', hge', hvalue, hbelow, habove⟩ :=
    roundWithAccuracy_cut (e := e) .positive acc hk (by omega)
  obtain ⟨hdown, hup, hfull, hshort⟩ := cut_bounds hk
  generalize m / 2 ^ k = t at hbelow habove hdown hup hfull hshort
  -- the bounds of `q` by the cut mantissa
  have hscale (c : ℚ) : c * 2 ^ (e + k) = c * 2 ^ k * 2 ^ e := by
    rw [zpow_add₀ two_ne_zero, zpow_natCast]
    ring
  have hlower : (t * 2 ^ (e + k) : ℚ) ≤ q := by
    refine le_trans ?_ hle
    rw [hscale]
    gcongr
    exact_mod_cast hdown
  have hupper : q < (t + 1) * 2 ^ (e + k) := by
    refine hlt.trans_le ?_
    rw [hscale]
    gcongr
    exact_mod_cast hup
  refine ⟨r, e + k, ?_, ?_, ?_, ?_⟩
  · rw [hround, unpack_pack_finite _ hm' hlog' (by omega) (by omega), ← hvalue]
    exact .positive (.inl ⟨hlog', by omega, by omega⟩)
  · refine le_trans ?_ hlower
    gcongr
    exact_mod_cast hfull
  · calc
      (r * 2 ^ (e + k) : ℚ) ≤ (t + 1) * 2 ^ (e + k) := by gcongr; exact_mod_cast habove
      _ = t * 2 ^ (e + k) + 2 ^ (e + k) := by ring
      _ ≤ q + 2 ^ (e + k) := by gcongr
  · refine hupper.trans_le ?_
    gcongr

/-- A mantissa is brought to its full length before it is rounded. -/
theorem round_eq (hm : 0 < m) (hlow : -1022 ≤ m.log2 + e) :
    ∃ k : ℕ, 52 ≤ (m * 2 ^ k).log2 ∧
      UnpackedFloat.round Format.binary64 .positive m e =
        roundWithAccuracy Format.binary64 .positive (m * 2 ^ k) (e - k) .exact := by
  have htarget : Format.binary64.targetExponent (totalExponent m e) = m.log2 + e - 52 := by
    rw [targetExponent_totalExponent]
    omega
  refine ⟨(e - (m.log2 + e - 52)).toNat, ?_, ?_⟩
  · rw [log2_mul_two_pow hm.ne']
    omega
  · unfold UnpackedFloat.round decreaseExponent
    dsimp only
    rw [htarget, Nat.shiftLeft_eq]

theorem value_shift (m k : ℕ) (e : ℤ) : ((m * 2 ^ k : ℕ) * 2 ^ (e - k) : ℚ) = m * 2 ^ e := by
  rw [zpow_sub₀ two_ne_zero, zpow_natCast]
  push_cast
  field_simp

/-- Any number of a middling size is rounded so. -/
theorem rounds_round (hm : 0 < m) (hlow : -1022 ≤ m.log2 + e) (hhigh : m.log2 + e ≤ 1000) :
    Rounds (Float.Model.pack (UnpackedFloat.round Format.binary64 .positive m e)).unpack
      (m * 2 ^ e) := by
  obtain ⟨k, hfull, hround⟩ := round_eq hm hlow
  have hlog : (m * 2 ^ k).log2 = m.log2 + k := log2_mul_two_pow hm.ne' k
  rw [hround, ← value_shift m k e]
  refine rounds_roundWithAccuracy .exact hfull (by omega) (by omega) le_rfl ?_
  gcongr
  exact lt_add_one _

theorem Amount.rounds (h : Amount u a) (hlow : 1 / 2 ^ 200 ≤ a) : Rounds u a := by
  have hpos : (0 : ℚ) < 1 / 2 ^ 200 := by positivity
  cases h with
  | zero s => exact absurd hlow (not_le.mpr hpos)
  | @positive m e hm hform =>
    refine ⟨m, e, .positive hform, ?_, le_add_of_nonneg_right (by positivity), ?_⟩
    · rcases hform with ⟨hlog, -⟩ | ⟨hsmall, rfl⟩
      · gcongr
        exact_mod_cast (Nat.le_log2 hm.ne').mp hlog.ge
      · have htiny : (m * 2 ^ (-1074 : ℤ) : ℚ) < 1 / 2 ^ 200 :=
          calc
            (m * 2 ^ (-1074 : ℤ) : ℚ) < 2 ^ 52 * 2 ^ (-1074 : ℤ) := by
              gcongr
              exact_mod_cast hsmall
            _ = 2 ^ (-1022 : ℤ) := by
              rw [← zpow_natCast, ← zpow_add₀ two_ne_zero]
              rfl
            _ ≤ 2 ^ (-200 : ℤ) := zpow_le_zpow_right₀ one_le_two (by decide)
            _ = 1 / 2 ^ 200 := by rw [zpow_neg, zpow_ofNat, ← one_div]
        exact absurd hlow (not_le.mpr htiny)
    · gcongr
      exact lt_add_one _

/-- The multiple is above `q` by a small part of it at most, and not far below. -/
theorem Rounds.bounds (h : Rounds u q) : ∃ b, Amount u b ∧ q / 2 ≤ b ∧ b ≤ q + q / 2 ^ 52 := by
  obtain ⟨k, e, hu, hfine, habove, hbelow⟩ := h
  have hpos : (0 : ℚ) < 2 ^ e := by positivity
  have hunit : (2 : ℚ) ^ e ≤ q / 2 ^ 52 := by
    rw [le_div_iff₀ (by positivity)]
    linarith
  refine ⟨_, hu, ?_, habove.trans (by gcongr)⟩
  have hlt : q < k * 2 ^ e + 2 ^ e := by
    rw [add_mul, one_mul] at hbelow
    exact hbelow
  linarith

/-- A natural number below `q` is a multiple of the power of two, too, so that it is below the
number or the number itself. -/
theorem Rounds.floor (h : Rounds u q) (hq : q < 2 ^ 52) (hgap : q + q / 2 ^ 52 < ⌊q⌋₊ + 1) :
    ∃ b, Amount u b ∧ ⌊b⌋₊ = ⌊q⌋₊ := by
  obtain ⟨k, e, hu, hfine, habove, hbelow⟩ := h
  refine ⟨_, hu, ?_⟩
  have he : (2 : ℚ) ^ e < 1 := by linarith
  have hq0 : 0 ≤ q := le_trans (by positivity) hfine
  rw [Nat.floor_eq_iff (by positivity)]
  constructor
  · obtain ⟨j, rfl⟩ : ∃ j : ℕ, e = -j := by
      rw [zpow_lt_one_iff_right₀ one_lt_two] at he
      exact ⟨e.natAbs, by omega⟩
    rw [zpow_neg, zpow_natCast, ← div_eq_mul_inv] at hbelow ⊢
    rw [lt_div_iff₀ (by positivity)] at hbelow
    rw [le_div_iff₀ (by positivity)]
    have hlt : (⌊q⌋₊ * 2 ^ j : ℚ) < k + 1 :=
      lt_of_le_of_lt (by gcongr; exact Nat.floor_le hq0) hbelow
    have hle : ⌊q⌋₊ * 2 ^ j < k + 1 := by exact_mod_cast hlt
    exact_mod_cast Nat.lt_succ_iff.mp hle
  · refine (habove.trans ?_).trans_lt hgap
    gcongr
    rw [le_div_iff₀ (by positivity)]
    linarith

/-! Products and quotients. -/

theorem unpack_mul (x y : Float) : (x * y).toModel.unpack =
    (Float.Model.pack (UnpackedFloat.mul Format.binary64 x.toModel.unpack y.toModel.unpack)).unpack :=
  rfl

theorem two_zpow_log2_le (hm : 0 < m) (e : ℤ) : (2 : ℚ) ^ (m.log2 + e) ≤ m * 2 ^ e := by
  rw [zpow_add₀ two_ne_zero, zpow_natCast]
  gcongr
  exact_mod_cast Nat.log2_self_le hm.ne'

theorem lt_two_zpow_log2 (m : ℕ) (e : ℤ) : (m * 2 ^ e : ℚ) < 2 ^ (m.log2 + e + 1) := by
  have hpower : (2 : ℚ) ^ (m.log2 + e + 1) = 2 ^ (m.log2 + 1) * 2 ^ e := by
    rw [← zpow_natCast, ← zpow_add₀ two_ne_zero]
    congr 1
    push_cast
    ring
  rw [hpower]
  gcongr
  exact_mod_cast Nat.lt_log2_self

/-- A product with a natural number. -/
theorem rounds_mul (hx : Amount x.toModel.unpack a) (hy : Whole y.toModel.unpack n)
    (hlow : 1 ≤ a * n) (hhigh : a * n ≤ 2 ^ 200) : Rounds (x * y).toModel.unpack (a * n) := by
  rw [unpack_mul]
  have hvalue := hy.amount
  generalize x.toModel.unpack = u at hx ⊢
  generalize y.toModel.unpack = v at hy hvalue ⊢
  cases hx with
  | zero s => norm_num at hlow
  | @positive m₁ e₁ hm₁ hform =>
    cases hy with
    | zero s => norm_num at hlow
    | @positive m₂ _ e₂ hm₂ hlog _ _ hn =>
      have hproduct : (m₁ * 2 ^ e₁ * n : ℚ) = (m₁ * m₂ : ℕ) * 2 ^ (e₁ + e₂) := by
        rw [← cast_of_value hn, zpow_add₀ two_ne_zero]
        push_cast
        ring
      rw [hproduct] at hlow hhigh ⊢
      have hm : 0 < m₁ * m₂ := Nat.mul_pos hm₁ hm₂
      have hleast : m₂ ≤ m₁ * m₂ := Nat.le_mul_of_pos_left _ hm₁
      have hfull : 52 ≤ (m₁ * m₂).log2 := by
        rw [Nat.le_log2 hm.ne']
        exact ((Nat.le_log2 hm₂.ne').mp hlog.ge).trans hleast
      refine rounds_roundWithAccuracy .exact hfull ?_ ?_ le_rfl ?_
      · have hlt := hlow.trans_lt (lt_two_zpow_log2 _ _)
        rw [one_lt_zpow_iff_right₀ one_lt_two] at hlt
        omega
      · have hle := (two_zpow_log2_le hm _).trans hhigh
        rw [← zpow_natCast, zpow_le_zpow_iff_right₀ one_lt_two] at hle
        omega
      · gcongr
        exact lt_add_one _

/-- The form of a number from 1 on, while a mantissa holds its integer part. -/
theorem Amount.full (h : Amount u a) (hlow : 1 ≤ a) (hhigh : a < 2 ^ 53) :
    ∃ (m : ℕ) (e : ℤ) (hm : 0 < m), u = .finite .positive m e hm ∧ (m * 2 ^ e : ℚ) = a ∧
      m.log2 = 52 ∧ -52 ≤ e ∧ e ≤ 0 := by
  cases h with
  | zero s => norm_num at hlow
  | @positive m e hm hform =>
    have hle := (two_zpow_log2_le hm e).trans_lt hhigh
    rw [← zpow_natCast, zpow_lt_zpow_iff_right₀ one_lt_two] at hle
    have hlt := hlow.trans_lt (lt_two_zpow_log2 m e)
    rw [one_lt_zpow_iff_right₀ one_lt_two] at hlt
    rcases hform with ⟨hlog, -⟩ | ⟨hsmall, rfl⟩
    · exact ⟨m, e, hm, rfl, rfl, hlog, by omega, by omega⟩
    · have hshort := (Nat.log2_lt hm.ne').mpr hsmall
      omega

/-- A quotient of numbers from 1 on. -/
theorem rounds_div (hx : Amount x.toModel.unpack a) (hy : Amount y.toModel.unpack b)
    (ha : 1 ≤ a) (ha' : a < 2 ^ 53) (hb : 1 ≤ b) (hb' : b < 2 ^ 53) :
    Rounds (x / y).toModel.unpack (a / b) := by
  rw [unpack_div]
  obtain ⟨m₁, e₁, hm₁, hu, rfl, hlog₁, hlow₁, hhigh₁⟩ := hx.full ha ha'
  obtain ⟨m₂, e₂, hm₂, hv, rfl, hlog₂, hlow₂, hhigh₂⟩ := hy.full hb hb'
  rw [hu, hv, div_finite _ _ hm₁ hm₂ hlog₁ hlog₂ (by omega)]
  have hquotient : (m₁ * 2 ^ e₁ / (m₂ * 2 ^ e₂) : ℚ) =
      (m₁ <<< 53 : ℕ) / m₂ * 2 ^ (e₁ - e₂ - 53) := by
    rw [Nat.shiftLeft_eq, zpow_sub₀ two_ne_zero, zpow_sub₀ two_ne_zero]
    push_cast
    field_simp
  obtain ⟨hleast₁, hgreatest₁⟩ := (Nat.log2_eq_iff hm₁.ne').mp hlog₁
  obtain ⟨hleast₂, hgreatest₂⟩ := (Nat.log2_eq_iff hm₂.ne').mp hlog₂
  have hleast : 2 ^ 52 ≤ m₁ <<< 53 / m₂ := by
    rw [Nat.le_div_iff_mul_le hm₂, Nat.shiftLeft_eq]
    calc
      2 ^ 52 * m₂ ≤ 2 ^ 52 * 2 ^ 53 := Nat.mul_le_mul_left _ hgreatest₂.le
      _ ≤ m₁ * 2 ^ 53 := Nat.mul_le_mul_right _ hleast₁
  have hgreatest : m₁ <<< 53 / m₂ < 2 ^ 107 := by
    refine (Nat.div_le_self _ _).trans_lt ?_
    rw [Nat.shiftLeft_eq]
    omega
  have hlog : 52 ≤ (m₁ <<< 53 / m₂).log2 ∧ (m₁ <<< 53 / m₂).log2 ≤ 106 :=
    ⟨(Nat.le_log2 (by omega)).mpr hleast, log2_le_of_lt hgreatest⟩
  have hsign : Sign.positive / Sign.positive = Sign.positive := rfl
  rw [hsign, hquotient]
  refine rounds_roundWithAccuracy _ hlog.1 (by omega) (by omega) ?_ ?_
  · gcongr
    exact Nat.cast_div_le
  · gcongr
    rw [div_lt_iff₀ (by positivity)]
    exact_mod_cast Nat.lt_mul_of_div_lt (Nat.lt_succ_self _) hm₂

theorem rounds_div_gap (hi : i < 2 ^ 52) (hj0 : j ≠ 0) :
    (i / j + i / j / 2 ^ 52 : ℚ) < ⌊(i / j : ℚ)⌋₊ + 1 := by
  have hj : (0 : ℚ) < j := by positivity
  have hsmall : (i / j / 2 ^ 52 : ℚ) < 1 / j := by
    rw [div_right_comm]
    gcongr
    rw [div_lt_one (by positivity)]
    exact_mod_cast hi
  have hnext : i + 1 ≤ (i / j + 1) * j := by
    rw [Nat.mul_comm]
    exact Nat.lt_mul_div_succ i (Nat.pos_of_ne_zero hj0)
  have hnextCast : (i + 1 : ℚ) ≤ ((i / j : ℕ) + 1) * j := by exact_mod_cast hnext
  have hbound : (i / j + 1 / j : ℚ) ≤ (i / j : ℕ) + 1 := by
    rwa [← add_div, div_le_iff₀ hj]
  rw [Nat.floor_div_eq_div]
  linarith

/-- A quotient of natural numbers that is rounded, and then cut to its integer part, is the quotient
without the remainder. -/
theorem whole_floor_div (hx : Whole x.toModel.unpack i) (hy : Whole y.toModel.unpack j)
    (hi : i < 2 ^ 52) (hj : j < 2 ^ 53) (hi0 : i ≠ 0) (hj0 : j ≠ 0) :
    Whole (Number.floor (x / y)).toModel.unpack (i / j) := by
  have hone {n : ℕ} (hn : n ≠ 0) : (1 : ℚ) ≤ n := by exact_mod_cast Nat.one_le_iff_ne_zero.mpr hn
  have hrounds := rounds_div hx.amount hy.amount (hone hi0)
    (by exact_mod_cast hi.trans (by decide)) (hone hj0) (by exact_mod_cast hj)
  have hle : (i / j : ℚ) ≤ i :=
    div_le_self (by positivity) (by exact_mod_cast Nat.pos_of_ne_zero hj0)
  have hlt : (i / j : ℚ) < 2 ^ 52 := hle.trans_lt (by exact_mod_cast hi)
  obtain ⟨b, hb, hfloor⟩ := hrounds.floor hlt (rounds_div_gap hi hj0)
  have hbound : b < 2 ^ 52 := by
    rw [Nat.floor_div_eq_div] at hfloor
    have hsmall : ⌊b⌋₊ < 2 ^ 52 := hfloor.trans_lt ((Nat.div_le_self i j).trans_lt hi)
    exact_mod_cast Nat.lt_of_floor_lt hsmall
  have hwhole := hb.floor hbound
  rwa [hfloor, Nat.floor_div_eq_div] at hwhole

/-- A product of natural numbers that a mantissa holds is exact. -/
theorem Whole.mul (hu : Whole u i) (hv : Whole v j) (h : i * j < 2 ^ 53) :
    Whole (Float.Model.pack (UnpackedFloat.mul Format.binary64 u v)).unpack (i * j) := by
  cases hu with
  | zero s =>
    have hzero : ∃ s', UnpackedFloat.mul Format.binary64 (.zero s) v = .zero s' := by
      cases hv with
      | zero s' => exact ⟨_, rfl⟩
      | positive _ _ _ _ => exact ⟨_, rfl⟩
    obtain ⟨s', hs'⟩ := hzero
    rw [hs', unpack_pack_zero, Nat.zero_mul]
    exact .zero s'
  | @positive m₁ _ e₁ hm₁ hlog₁ _ _ hi =>
    cases hv with
    | zero s' =>
      change Whole (Float.Model.pack (.zero _)).unpack 0
      rw [unpack_pack_zero]
      exact .zero _
    | @positive m₂ _ e₂ hm₂ hlog₂ _ _ hj =>
      have hi0 := ne_zero_of_value hm₁ hi
      have hj0 := ne_zero_of_value hm₂ hj
      have hexponent₁ := log2_of_value hm₁ hlog₁ hi
      have hexponent₂ := log2_of_value hm₂ hlog₂ hj
      have hpos : 0 < i * j := by positivity
      obtain ⟨m, e, hm, _, hlog, hlow, hhigh, hvalue⟩ := whole_round hpos h
      have hexponent := log2_of_value hm hlog hvalue
      have hlogs : i.log2 + j.log2 ≤ (i * j).log2 := by
        rw [Nat.le_log2 hpos.ne', pow_add]
        exact Nat.mul_le_mul (Nat.log2_self_le hi0) (Nat.log2_self_le hj0)
      have hlogProduct : (i * j).log2 < 53 := (Nat.log2_lt hpos.ne').mpr h
      obtain ⟨k, hk⟩ : ∃ k : ℕ, e₁ + e₂ = e - k := ⟨(e - e₁ - e₂).toNat, by omega⟩
      have hmantissa : m₁ * m₂ = m * 2 ^ k := by
        have hproduct : (m₁ * m₂ * 2 ^ (e - k) : ℚ) = m * 2 ^ k * 2 ^ (e - k) :=
          calc
            (m₁ * m₂ * 2 ^ (e - k) : ℚ) = m₁ * 2 ^ e₁ * (m₂ * 2 ^ e₂) := by
              rw [← hk, zpow_add₀ two_ne_zero]
              ring
            _ = (i * j : ℕ) := by rw [cast_of_value hi, cast_of_value hj, Nat.cast_mul]
            _ = m * 2 ^ e := (cast_of_value hvalue).symm
            _ = m * 2 ^ k * 2 ^ (e - k) := by
              rw [mul_assoc, ← zpow_natCast, ← zpow_add₀ two_ne_zero, add_sub_cancel]
        exact_mod_cast mul_right_cancel₀ (by positivity) hproduct
      change Whole (Float.Model.pack
        (roundWithAccuracy Format.binary64 .positive (m₁ * m₂) (e₁ + e₂) .exact)).unpack (i * j)
      rw [hmantissa, hk, roundWithAccuracy_exact _ hm hlog hlow k,
        unpack_pack_finite _ hm hlog hlow hhigh]
      exact .positive hlog hlow hhigh hvalue

/-- The greater of two natural numbers is found as such. -/
theorem whole_greatest (hx : Whole x.toModel.unpack i) (hy : Whole y.toModel.unpack j) :
    Whole (greatest x y).toModel.unpack (max i j) := by
  have hlt := hy.amount.lt_iff hx.amount
  have hgt := hx.amount.lt_iff hy.amount
  rw [Nat.cast_lt] at hlt hgt
  have hcases := greatest_cases hx.amount.isNaN hy.amount.isNaN
  rw [hlt, hgt] at hcases
  rcases hcases with ⟨hz, hle⟩ | ⟨hz, hle⟩
  · have hmax : max i j = i := by omega
    rwa [hz, hmax]
  · have hmax : max i j = j := by omega
    rwa [hz, hmax]

/-- A zero, or no number. A product with one of them is one again, whatever the other factor. -/
inductive Null : UnpackedFloat → Prop
  | zero (s : Sign) : Null (.zero s)
  | notANumber : Null .notANumber

theorem Null.pack (h : Null u) : Null (Float.Model.pack u).unpack := by
  cases h with
  | zero s =>
    rw [unpack_pack_zero]
    exact .zero s
  | notANumber => exact .notANumber

theorem Null.mul_right (h : Null u) (v : UnpackedFloat) :
    Null (Float.Model.pack (UnpackedFloat.mul Format.binary64 u v)).unpack := by
  apply Null.pack
  cases h with
  | zero s => cases v <;> constructor
  | notANumber => exact .notANumber

theorem Null.mul_left (u : UnpackedFloat) (h : Null v) :
    Null (Float.Model.pack (UnpackedFloat.mul Format.binary64 u v)).unpack := by
  apply Null.pack
  cases h with
  | zero s => cases u <;> constructor
  | notANumber => cases u <;> exact .notANumber

theorem Null.not_le (h : Null y.toModel.unpack) (hx : Whole x.toModel.unpack n) (hn : n ≠ 0) :
    ¬ x ≤ y := by
  rw [le_iff_compare]
  generalize x.toModel.unpack = u at hx
  generalize y.toModel.unpack = v at h
  cases hx with
  | zero s => exact absurd rfl hn
  | positive _ _ _ _ => cases h <;> simp [UnpackedFloat.compare]

end Number

end Chip8
