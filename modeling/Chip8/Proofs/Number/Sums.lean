import Chip8.Proofs.Number.Rounding

/-! Sums and differences of natural numbers: exact where a mantissa holds them, and as far up as the
greater summand where it does not. -/
namespace Chip8

open Float.Model (Format UnpackedFloat totalExponent)
open Float.Model.UnpackedFloat

namespace Number

variable {m m₁ m₂ n i j k : ℕ} {e e₁ e₂ : ℤ} {u v : UnpackedFloat}
  {x y z : Float} {a b q : ℚ}

theorem unpack_add (x y : Float) :
    (x + y).toModel.unpack = (Float.Model.pack (UnpackedFloat.add Format.binary64
      x.toModel.unpack y.toModel.unpack)).unpack :=
  rfl

theorem unpack_sub (x y : Float) :
    (x - y).toModel.unpack = (Float.Model.pack (UnpackedFloat.sub Format.binary64
      x.toModel.unpack y.toModel.unpack)).unpack :=
  rfl

/-- A mantissa that is shifted makes up for a lesser exponent. -/
theorem value_of_le (m : ℕ) (h : e ≤ e₁) :
    ((m * 2 ^ (e₁ - e).toNat : ℕ) * 2 ^ e : ℚ) = m * 2 ^ e₁ := by
  have hsum : e₁ = ((e₁ - e).toNat : ℤ) + e := by omega
  conv_rhs => rw [hsum, zpow_add₀ two_ne_zero, zpow_natCast]
  push_cast
  ring

theorem normalize_positive (hm : 0 < m) (e : ℤ) (s : Sign) :
    UnpackedFloat.normalize Format.binary64 m e s =
      UnpackedFloat.round Format.binary64 .positive m e := by
  have hgt : Ord.compare (m : ℤ) 0 = .gt := Int.compare_eq_gt.mpr (by omega)
  unfold UnpackedFloat.normalize
  rw [hgt]
  rfl

theorem add_positive (hm₁ : 0 < m₁) (hm₂ : 0 < m₂) (e₁ e₂ : ℤ) :
    ∃ (m : ℕ) (e : ℤ), 0 < m ∧ e ≤ e₁ ∧ (m * 2 ^ e : ℚ) = m₁ * 2 ^ e₁ + m₂ * 2 ^ e₂ ∧
      UnpackedFloat.add Format.binary64 (.finite .positive m₁ e₁ hm₁)
          (.finite .positive m₂ e₂ hm₂) =
        UnpackedFloat.round Format.binary64 .positive m e := by
  have hpos : 0 < m₁ * 2 ^ (e₁ - min e₁ e₂).toNat + m₂ * 2 ^ (e₂ - min e₁ e₂).toNat := by
    positivity
  refine ⟨_, min e₁ e₂, hpos, min_le_left _ _, ?_, ?_⟩
  · rw [Nat.cast_add, add_mul, value_of_le m₁ (min_le_left _ _), value_of_le m₂ (min_le_right _ _)]
  · rw [← normalize_positive hpos _ .positive]
    simp only [UnpackedFloat.add, decreaseExponent, Nat.shiftLeft_eq, Sign.apply, Nat.cast_add]

theorem sub_positive (hm₁ : 0 < m₁) (hm₂ : 0 < m₂) (hlt : (m₂ * 2 ^ e₂ : ℚ) < m₁ * 2 ^ e₁) :
    ∃ (m : ℕ) (e : ℤ), 0 < m ∧ e ≤ e₁ ∧ (m * 2 ^ e : ℚ) = m₁ * 2 ^ e₁ - m₂ * 2 ^ e₂ ∧
      UnpackedFloat.sub Format.binary64 (.finite .positive m₁ e₁ hm₁)
          (.finite .positive m₂ e₂ hm₂) =
        UnpackedFloat.round Format.binary64 .positive m e := by
  rw [← value_of_le m₁ (min_le_left e₁ e₂), ← value_of_le m₂ (min_le_right e₁ e₂)] at hlt ⊢
  have hmantissa : m₂ * 2 ^ (e₂ - min e₁ e₂).toNat < m₁ * 2 ^ (e₁ - min e₁ e₂).toNat := by
    exact_mod_cast lt_of_mul_lt_mul_right hlt (by positivity)
  refine ⟨_, min e₁ e₂, Nat.sub_pos_of_lt hmantissa, min_le_left _ _, ?_, ?_⟩
  · rw [Nat.cast_sub hmantissa.le, sub_mul]
  · rw [← normalize_positive (Nat.sub_pos_of_lt hmantissa) _ .positive]
    simp only [UnpackedFloat.sub, decreaseExponent, Nat.shiftLeft_eq, Sign.apply,
      Nat.cast_sub hmantissa.le]

/-! What a mantissa holds. -/

theorem Whole.pack (h : Whole u n) : Whole (Float.Model.pack u).unpack n := by
  cases h with
  | zero s =>
    rw [unpack_pack_zero]
    exact .zero s
  | positive hlog hlow hhigh hvalue =>
    rw [unpack_pack_finite _ _ hlog hlow hhigh]
    exact .positive hlog hlow hhigh hvalue

theorem whole_of_value (hn : 0 < n) (h : n < 2 ^ 53) (he : e ≤ 0) (hvalue : (m * 2 ^ e : ℚ) = n) :
    Whole (Float.Model.pack (UnpackedFloat.round Format.binary64 .positive m e)).unpack n := by
  obtain ⟨k, rfl⟩ : ∃ k : ℕ, e = -k := ⟨e.natAbs, by omega⟩
  have hmantissa : m = n * 2 ^ k := by
    rw [zpow_neg, zpow_natCast, ← div_eq_mul_inv, div_eq_iff (by positivity)] at hvalue
    exact_mod_cast hvalue
  obtain ⟨m', e', hm', hround, hlog, hlow, hhigh, hvalue'⟩ := round_whole hn h k
  rw [hmantissa, hround]
  exact (Whole.positive hlog hlow hhigh hvalue').pack

theorem exponent_nonpos (hm : 0 < m) (hlog : m.log2 = 52)
    (hvalue : n * 2 ^ (-e).toNat = m * 2 ^ e.toNat) (h : n < 2 ^ 53) : e ≤ 0 := by
  have hbits : n.log2 < 53 := (Nat.log2_lt (ne_zero_of_value hm hvalue)).mpr h
  have hexponent := log2_of_value hm hlog hvalue
  omega

/-- A sum of natural numbers that a mantissa holds is exact. -/
theorem Whole.add (hu : Whole u i) (hv : Whole v j) (h : i + j < 2 ^ 53) :
    Whole (Float.Model.pack (UnpackedFloat.add Format.binary64 u v)).unpack (i + j) := by
  cases hu with
  | zero s =>
    rw [Nat.zero_add]
    cases hv with
    | zero s' => cases s <;> cases s' <;> exact (Whole.zero _).pack
    | positive hlog hlow hhigh hvalue => exact (Whole.positive hlog hlow hhigh hvalue).pack
  | @positive m₁ _ e₁ hm₁ hlog₁ hlow₁ hhigh₁ hi =>
    cases hv with
    | zero s' => exact (Whole.positive hlog₁ hlow₁ hhigh₁ hi).pack
    | @positive m₂ _ e₂ hm₂ hlog₂ _ _ hj =>
      obtain ⟨m, e, hm, he, hvalue, hround⟩ := add_positive hm₁ hm₂ e₁ e₂
      have hi0 := ne_zero_of_value hm₁ hi
      have hexponent := exponent_nonpos hm₁ hlog₁ hi (by omega)
      rw [hround]
      apply whole_of_value (by omega) h (he.trans hexponent)
      rw [hvalue, cast_of_value hi, cast_of_value hj, Nat.cast_add]

theorem Whole.eq_zero (h : Whole u 0) : ∃ s, u = .zero s := by
  rcases h.of_lt (by decide) with ⟨s, hu, _⟩ | ⟨_, _, _, _, hne, _⟩
  · exact ⟨s, hu⟩
  · exact absurd rfl hne

/-- A difference of equal numbers is zero, though its sign may be either. -/
theorem Whole.sub_self (hu : Whole u i) (hv : Whole v i) :
    ∃ s, UnpackedFloat.sub Format.binary64 u v = .zero s := by
  rcases Nat.eq_zero_or_pos i with rfl | hpos
  · obtain ⟨s, rfl⟩ := hu.eq_zero
    obtain ⟨s', rfl⟩ := hv.eq_zero
    cases s <;> cases s' <;> exact ⟨_, rfl⟩
  · obtain rfl := hu.unique hv hpos.ne'
    cases hu with
    | zero s => exact absurd hpos (Nat.lt_irrefl 0)
    | positive _ _ _ _ =>
      refine ⟨.positive, ?_⟩
      simp only [UnpackedFloat.sub, Int.sub_self]
      rfl

/-- A difference of natural numbers that a mantissa holds is exact. -/
theorem Whole.sub (hu : Whole u i) (hv : Whole v j) (hle : j ≤ i) (h : i < 2 ^ 53) :
    Whole (Float.Model.pack (UnpackedFloat.sub Format.binary64 u v)).unpack (i - j) := by
  rcases hle.eq_or_lt with rfl | hlt
  · obtain ⟨s, hs⟩ := hu.sub_self hv
    rw [hs, Nat.sub_self]
    exact (Whole.zero s).pack
  cases hu with
  | zero s => omega
  | @positive m₁ _ e₁ hm₁ hlog₁ hlow₁ hhigh₁ hi =>
    cases hv with
    | zero s' => exact (Whole.positive hlog₁ hlow₁ hhigh₁ hi).pack
    | @positive m₂ _ e₂ hm₂ hlog₂ _ _ hj =>
      have hvalues : (m₂ * 2 ^ e₂ : ℚ) < m₁ * 2 ^ e₁ := by
        rw [cast_of_value hi, cast_of_value hj]
        exact_mod_cast hlt
      obtain ⟨m, e, hm, he, hvalue, hround⟩ := sub_positive hm₁ hm₂ hvalues
      have hexponent := exponent_nonpos hm₁ hlog₁ hi h
      rw [hround]
      apply whole_of_value (by omega) (by omega) (he.trans hexponent)
      rw [hvalue, cast_of_value hi, cast_of_value hj, Nat.cast_sub hle]

theorem integer?_add (hx : integer? x = some (i : ℤ)) (hy : integer? y = some (j : ℤ))
    (h : i + j < 2 ^ 53) : integer? (x + y) = some ((i + j : ℕ) : ℤ) := by
  rw [integer?_eq_some_iff] at hx hy ⊢
  rw [unpack_add]
  exact hx.add hy h

theorem integer?_sub (hx : integer? x = some (i : ℤ)) (hy : integer? y = some (j : ℤ)) (hle : j ≤ i)
    (h : i < 2 ^ 53) : integer? (x - y) = some ((i - j : ℕ) : ℤ) := by
  rw [integer?_eq_some_iff] at hx hy ⊢
  rw [unpack_sub]
  exact hx.sub hy hle h

/-- With nothing added a number stays what it is, however great, and whatever its sign. -/
theorem integer?_add_zero (hz : integer? z = some 0) : integer? (x + z) = integer? x := by
  obtain ⟨s, hs⟩ := (integer?_eq_some_iff.mp hz).eq_zero
  have hmodel : (x + z).toModel =
      Float.Model.pack (UnpackedFloat.add Format.binary64 x.toModel.unpack (.zero s)) := by
    rw [← hs]
    rfl
  by_cases hzero : ∃ s', x.toModel.unpack = .zero s'
  · obtain ⟨s', hs'⟩ := hzero
    have hx : integer? x = some ((0 : ℕ) : ℤ) := integer?_eq_some_iff.mpr (hs' ▸ .zero s')
    rw [hx]
    exact integer?_add hx hz (by decide)
  · have hsame :
        UnpackedFloat.add Format.binary64 x.toModel.unpack (.zero s) = x.toModel.unpack := by
      generalize x.toModel.unpack = u at hzero
      cases u with
      | zero s' => exact absurd ⟨s', rfl⟩ hzero
      | _ => rfl
    rw [hsame, pack_unpack] at hmodel
    exact congrArg (fun model => integer? (Float.ofModel model)) hmodel

/-! What is left of a number without its integer part. -/

theorem sub_of_lt (hm₁ : 0 < m₁) (hm₂ : 0 < m₂) (h : m₂ < m₁) (e : ℤ) :
    UnpackedFloat.sub Format.binary64 (.finite .positive m₁ e hm₁) (.finite .positive m₂ e hm₂) =
      UnpackedFloat.round Format.binary64 .positive (m₁ - m₂) e := by
  rw [← normalize_positive (Nat.sub_pos_of_lt h) e .positive]
  simp only [UnpackedFloat.sub, decreaseExponent, min_self, sub_self, Int.toNat_zero,
    Nat.shiftLeft_zero, Sign.apply, Nat.cast_sub h.le]

/-- A difference of two mantissas at one exponent is exact. -/
theorem amount_sub (hm₁ : 0 < m₁) (hm₂ : 0 < m₂) (hle : m₂ ≤ m₁) (h : m₁ < 2 ^ 53)
    (hlow : -1000 ≤ e) (hhigh : e ≤ 971) :
    Amount (Float.Model.pack (UnpackedFloat.sub Format.binary64 (.finite .positive m₁ e hm₁)
      (.finite .positive m₂ e hm₂))).unpack (m₁ * 2 ^ e - m₂ * 2 ^ e) := by
  rcases hle.eq_or_lt with rfl | hlt
  · have hzero : UnpackedFloat.sub Format.binary64 (.finite .positive m₂ e hm₁)
        (.finite .positive m₂ e hm₂) = .zero .positive := by
      simp only [UnpackedFloat.sub, sub_self]
      rfl
    rw [hzero, sub_self, unpack_pack_zero]
    exact .zero .positive
  · have hshort : m₁ - m₂ < 2 ^ 53 := by omega
    have hlog := (Nat.log2_lt (Nat.sub_pos_of_lt hlt).ne').mpr hshort
    obtain ⟨hm, hround, hfull⟩ := round_exact (Nat.sub_pos_of_lt hlt) hshort (e := e) (by omega) 0
    have hexponent : ((m₁ - m₂).log2 : ℤ) + e - 52 = e - (52 - (m₁ - m₂).log2 : ℕ) := by omega
    have hvalue : (m₁ * 2 ^ e - m₂ * 2 ^ e : ℚ) = (m₁ - m₂ : ℕ) * 2 ^ e := by
      rw [Nat.cast_sub hle, sub_mul]
    rw [pow_zero, mul_one, Nat.cast_zero, sub_zero, hexponent] at hround
    rw [sub_of_lt hm₁ hm₂ hlt, hround, unpack_pack_finite _ hm hfull (by omega) (by omega), hvalue,
      ← value_shift _ (52 - (m₁ - m₂).log2)]
    exact .positive (.inl ⟨hfull, by omega, by omega⟩)

/-- The integer part of a number has the exponent of the number. -/
theorem log2_floor (hm : 0 < m) (hlog : m.log2 = 52) (hlow : -52 ≤ e) :
    (⌊(m * 2 ^ e : ℚ)⌋₊.log2 : ℤ) = 52 + e := by
  obtain ⟨c, hc⟩ : ∃ c : ℕ, 52 + e = c := ⟨(52 + e).toNat, by omega⟩
  have hleast : (2 ^ c : ℕ) ≤ (m * 2 ^ e : ℚ) := by
    have hle := two_zpow_log2_le hm e
    rw [hlog, Nat.cast_ofNat, hc, zpow_natCast] at hle
    exact_mod_cast hle
  have hgreatest : (m * 2 ^ e : ℚ) < (2 ^ (c + 1) : ℕ) := by
    have hlt := lt_two_zpow_log2 m e
    rw [hlog, Nat.cast_ofNat, hc, ← Nat.cast_succ, zpow_natCast] at hlt
    exact_mod_cast hlt
  have hle : 2 ^ c ≤ ⌊(m * 2 ^ e : ℚ)⌋₊ := Nat.le_floor hleast
  have hlt : ⌊(m * 2 ^ e : ℚ)⌋₊ < 2 ^ (c + 1) := (Nat.floor_lt (by positivity)).mpr hgreatest
  have hne : ⌊(m * 2 ^ e : ℚ)⌋₊ ≠ 0 := by
    have hpos : 0 < 2 ^ c := by positivity
    omega
  rw [hc, (Nat.log2_eq_iff hne).mpr ⟨hle, hlt⟩]

/-- A fraction is not rounded. -/
theorem Amount.fraction (h : Amount x.toModel.unpack a) (ha : a < 2 ^ 52) :
    Amount (Number.fraction x).toModel.unpack (Int.fract a) := by
  have hwhole := h.truncate ha
  have hfract : Int.fract a = a - ⌊a⌋₊ := by rw [Int.fract, ← natCast_floor_eq_intCast_floor h.nonneg]
  rw [Number.fraction, unpack_sub, hfract]
  rcases Nat.eq_zero_or_pos ⌊a⌋₊ with hzero | hpos
  · rw [hzero] at hwhole ⊢
    obtain ⟨s, hs⟩ := hwhole.eq_zero
    rw [hs, Nat.cast_zero, sub_zero]
    generalize hu : x.toModel.unpack = u at h
    cases h with
    | zero s' => cases s' <;> cases s <;> exact (Whole.zero _).pack.amount
    | @positive m e hm hform =>
      change Amount (Float.Model.pack (.finite .positive m e hm)).unpack _
      rw [← hu, pack_unpack, hu]
      exact .positive hform
  · have hone : 1 ≤ a := (Nat.floor_pos (R := ℚ)).mp hpos
    have hone' : (1 : ℚ) ≤ ⌊a⌋₊ := by exact_mod_cast hpos
    have hle : (⌊a⌋₊ : ℚ) ≤ a := Nat.floor_le h.nonneg
    obtain ⟨m₁, e₁, hm₁, hu, ha₁, hlog₁, hlow₁, hhigh₁⟩ := h.full hone (ha.trans (by norm_num))
    obtain ⟨m₂, e₂, hm₂, hv, ha₂, hlog₂, hlow₂, hhigh₂⟩ :=
      hwhole.amount.full hone' (hle.trans_lt (ha.trans (by norm_num)))
    have hsame : e₂ = e₁ := by
      rw [hv] at hwhole
      cases hwhole with
      | positive _ _ _ hvalue =>
        have hfloor := log2_of_value hm₂ hlog₂ hvalue
        rw [← ha₁, log2_floor hm₁ hlog₁ hlow₁] at hfloor
        omega
    subst hsame
    have hmantissas : m₂ ≤ m₁ := by
      rw [← ha₂, ← ha₁] at hle
      exact_mod_cast le_of_mul_le_mul_right hle (by positivity)
    have hlong : m₁ < 2 ^ 53 := (Nat.log2_lt hm₁.ne').mp (by omega)
    rw [hu, hv, ← ha₂, ← ha₁]
    exact amount_sub hm₁ hm₂ hmantissas hlong (by omega) (by omega)

/-! What it does not hold. -/

theorem toModel_zero_add {s : Sign} {hm : 0 < m} (hx : x.toModel.unpack = .zero s)
    (hy : y.toModel.unpack = .finite .positive m e hm) : (x + y).toModel = y.toModel := by
  have hsum : (x + y).toModel =
      Float.Model.pack (UnpackedFloat.add Format.binary64 x.toModel.unpack y.toModel.unpack) := rfl
  rw [hsum, hx, hy, ← pack_unpack y, hy]
  rfl

/-- A sum of any two numbers of a middling size is rounded once. -/
theorem rounds_add (hx : Amount x.toModel.unpack a) (hy : Amount y.toModel.unpack b)
    (hlow : 1 / 2 ^ 200 ≤ b) (hhigh : a + b ≤ 2 ^ 200) :
    Rounds (x + y).toModel.unpack (a + b) := by
  have hpos : (0 : ℚ) < 1 / 2 ^ 200 := by positivity
  have hsum : (x + y).toModel =
      Float.Model.pack (UnpackedFloat.add Format.binary64 x.toModel.unpack y.toModel.unpack) := rfl
  generalize hu : x.toModel.unpack = u at hx hsum
  generalize hv : y.toModel.unpack = v at hy hsum
  cases hy with
  | zero s => exact absurd hlow (not_le.mpr hpos)
  | @positive m₂ e₂ hm₂ hform₂ =>
    have hleast : (2 : ℚ) ^ (-200 : ℤ) ≤ m₂ * 2 ^ e₂ := by
      rwa [zpow_neg, zpow_ofNat, ← one_div]
    cases hx with
    | zero s =>
      rw [toModel_zero_add hu hv, hv, zero_add]
      exact (Amount.positive hform₂).rounds hlow
    | @positive m₁ e₁ hm₁ hform₁ =>
      obtain ⟨m, e, hm, -, hvalue, hround⟩ := add_positive hm₁ hm₂ e₁ e₂
      rw [hsum, hround, ← hvalue]
      rw [← hvalue] at hhigh
      have hlt : (2 : ℚ) ^ (-200 : ℤ) < 2 ^ (m.log2 + e + 1) := by
        refine hleast.trans_lt (lt_of_le_of_lt ?_ (lt_two_zpow_log2 m e))
        rw [hvalue]
        exact le_add_of_nonneg_left (by positivity)
      have hle := (two_zpow_log2_le hm e).trans hhigh
      rw [zpow_lt_zpow_iff_right₀ one_lt_two] at hlt
      rw [← zpow_natCast, zpow_le_zpow_iff_right₀ one_lt_two] at hle
      exact rounds_round hm (by omega) (by omega)

/-- The number is infinite, or not below `q`. -/
def Reaches (u : UnpackedFloat) (q : ℚ) : Prop :=
  u = .infinity .positive ∨ ∃ a, Amount u a ∧ q ≤ a

theorem Amount.unique (ha : Amount u a) (hb : Amount u b) : a = b := by
  cases ha with
  | zero s => cases hb; rfl
  | positive _ => cases hb; rfl

theorem Reaches.le (h : Reaches x.toModel.unpack q) (hx : integer? x = some (i : ℤ)) : q ≤ i := by
  have hi := (integer?_eq_some_iff.mp hx).amount
  rcases h with hinf | ⟨a, ha, hle⟩
  · rw [hinf] at hi
    cases hi
  · rwa [ha.unique hi] at hle

theorem unpack_pack_infinity (s : Sign) :
    (Float.Model.pack (.infinity s)).unpack = .infinity s := by
  cases s <;> rfl

theorem reaches_pack (hm : 0 < m) (hlog : m.log2 = 52) (hlow : -1074 ≤ e) (hq : q ≤ m * 2 ^ e) :
    Reaches (Float.Model.pack (.finite .positive m e hm)).unpack q := by
  rcases le_or_gt e 971 with hhigh | hover
  · rw [unpack_pack_finite _ hm hlog hlow hhigh]
    exact .inr ⟨_, .positive (.inl ⟨hlog, hlow, hhigh⟩), hq⟩
  · have hlarge : 2 ^ 11 ≤ (e + 1023 + 52).toNat + 1 := by omega
    have hpack : pack Format.binary64 (.finite .positive m e hm) =
        pack Format.binary64 (.infinity .positive) := if_pos hlarge
    left
    calc
      (Float.Model.pack (.finite .positive m e hm)).unpack =
          unpack _ (pack Format.binary64 (.finite .positive m e hm)) := rfl
      _ = unpack _ (pack Format.binary64 (.infinity .positive)) := by rw [hpack]
      _ = .infinity .positive := unpack_pack_infinity .positive

/-- A power of two is not lost in rounding. -/
theorem reaches_round (hm : 0 < m) (hk : (2 ^ k : ℚ) ≤ m * 2 ^ e) :
    Reaches (Float.Model.pack (UnpackedFloat.round Format.binary64 .positive m e)).unpack
      (2 ^ k) := by
  have hlog : (k : ℤ) ≤ m.log2 + e := by
    have hlt := hk.trans_lt (lt_two_zpow_log2 m e)
    rw [← zpow_natCast, zpow_lt_zpow_iff_right₀ one_lt_two] at hlt
    omega
  obtain ⟨d, hfull, hround⟩ := round_eq (e := e) hm (by omega)
  have hlong : (m * 2 ^ d).log2 = m.log2 + d := log2_mul_two_pow hm.ne' d
  obtain ⟨c, hc⟩ : ∃ c, (m * 2 ^ d).log2 = 52 + c := ⟨m.log2 + d - 52, by omega⟩
  obtain ⟨r, m', e', hm', hcut, hlog', hle', -, hvalue, hbelow, -⟩ :=
    roundWithAccuracy_cut (e := e - d) .positive .exact hc (by omega)
  obtain ⟨-, -, hleast, -⟩ := cut_bounds hc
  rw [hround, hcut]
  apply reaches_pack hm' hlog' (by omega)
  rw [hvalue]
  calc
    (2 ^ k : ℚ) ≤ 2 ^ ((52 : ℕ) + (e - d + c)) := by
      rw [← zpow_natCast]
      exact zpow_le_zpow_right₀ one_le_two (by omega)
    _ = 2 ^ 52 * 2 ^ (e - d + c) := by rw [zpow_add₀ two_ne_zero, zpow_natCast]
    _ ≤ r * 2 ^ (e - d + c) := by
      gcongr
      exact_mod_cast hleast.trans hbelow

/-- A sum is as far up as one of its summands. -/
theorem reaches_add (hx : Amount x.toModel.unpack a) (hy : Amount y.toModel.unpack b)
    (hk : 2 ^ k ≤ b) : Reaches (x + y).toModel.unpack (2 ^ k) := by
  have hpos : (0 : ℚ) < 2 ^ k := by positivity
  have hsum : (x + y).toModel =
      Float.Model.pack (UnpackedFloat.add Format.binary64 x.toModel.unpack y.toModel.unpack) := rfl
  generalize hu : x.toModel.unpack = u at hx hsum
  generalize hv : y.toModel.unpack = v at hy hsum
  cases hy with
  | zero s => exact absurd hk (not_le.mpr hpos)
  | @positive m₂ e₂ hm₂ hform₂ =>
    cases hx with
    | zero s =>
      rw [toModel_zero_add hu hv, hv]
      exact .inr ⟨_, .positive hform₂, hk⟩
    | @positive m₁ e₁ hm₁ hform₁ =>
      obtain ⟨m, e, hm, -, hvalue, hround⟩ := add_positive hm₁ hm₂ e₁ e₂
      rw [hsum, hround]
      apply reaches_round hm
      rw [hvalue]
      exact hk.trans (le_add_of_nonneg_left (by positivity))

theorem Reaches.sub (hx : Reaches x.toModel.unpack (2 ^ (k + 1))) (hy : Amount y.toModel.unpack b)
    (hb0 : b ≠ 0) (hb : b ≤ 2 ^ k) : Reaches (x - y).toModel.unpack (2 ^ k) := by
  have hpos : (0 : ℚ) < 2 ^ k := by positivity
  have hdouble : (2 : ℚ) ^ (k + 1) = 2 ^ k + 2 ^ k := by ring
  rw [unpack_sub]
  generalize x.toModel.unpack = u at hx
  generalize y.toModel.unpack = v at hy
  cases hy with
  | zero s => exact absurd rfl hb0
  | @positive m₂ e₂ hm₂ hform₂ =>
    rcases hx with rfl | ⟨a, ha, hle⟩
    · exact .inl (unpack_pack_infinity .positive)
    · cases ha with
      | zero s => linarith
      | @positive m₁ e₁ hm₁ hform₁ =>
        have hlt : (m₂ * 2 ^ e₂ : ℚ) < m₁ * 2 ^ e₁ := by linarith
        obtain ⟨m, e, hm, -, hvalue, hround⟩ := sub_positive hm₁ hm₂ hlt
        rw [hround]
        apply reaches_round hm
        rw [hvalue]
        linarith

end Number

end Chip8
