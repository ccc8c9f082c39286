import Chip8.Number.Literal
import Chip8.Proofs.Number.Double

/-! The numbers that are not negative, with their values: how they compare, and how an argument is
brought into its limits. -/
namespace Chip8

open Float.Model (UnpackedFloat)
open Float.Model.UnpackedFloat

namespace Number

variable {m n m₁ m₂ : ℕ} {e e₁ e₂ : ℤ} {hm : 0 < m} {u v : UnpackedFloat}
  {x y lo hi fallback : Float} {a b c : ℚ}

/-- A mantissa is full unless its exponent is the least. -/
def Canonical (m : ℕ) (e : ℤ) : Prop :=
  m.log2 = 52 ∧ -1074 ≤ e ∧ e ≤ 971 ∨ m < 2 ^ 52 ∧ e = -1074

/-- A finite number that is not negative, in the form that the arithmetic gives it, with its
value. -/
inductive Amount : UnpackedFloat → ℚ → Prop
  | zero (s : Sign) : Amount (.zero s) 0
  | positive {m : ℕ} {e : ℤ} {hm : 0 < m} (hform : Canonical m e) :
      Amount (.finite .positive m e hm) (m * 2 ^ e)

theorem zpow_eq_div (e : ℤ) : (2 : ℚ) ^ e = 2 ^ e.toNat / 2 ^ (-e).toNat := by
  have hsplit : e = (e.toNat : ℤ) - ((-e).toNat : ℤ) := by omega
  conv_lhs => rw [hsplit, zpow_sub₀ two_ne_zero, zpow_natCast, zpow_natCast]

theorem cast_of_value (h : n * 2 ^ (-e).toNat = m * 2 ^ e.toNat) : (m * 2 ^ e : ℚ) = n := by
  have hcast : (n * 2 ^ (-e).toNat : ℚ) = m * 2 ^ e.toNat := by exact_mod_cast h
  rw [zpow_eq_div, ← mul_div_assoc, ← hcast, mul_div_cancel_right₀ _ (by positivity)]

theorem Amount.nonneg (h : Amount u a) : 0 ≤ a := by
  cases h with
  | zero s => exact le_rfl
  | positive hform => positivity

/-- The greater of two exponents makes the greater number, since its mantissa is full. -/
theorem lt_of_exponent_lt (h₁ : Canonical m₁ e₁) (h₂ : Canonical m₂ e₂) (he : e₁ < e₂) :
    (m₁ * 2 ^ e₁ : ℚ) < m₂ * 2 ^ e₂ := by
  have hfirst : m₁ < 2 ^ 53 := by
    rcases h₁ with ⟨hlog, _⟩ | ⟨hsmall, _⟩
    · exact (Nat.log2_lt (by rintro rfl; simp at hlog)).mp (by omega)
    · omega
  have hsecond : 2 ^ 52 ≤ m₂ := by
    rcases h₂ with ⟨hlog, _⟩ | ⟨_, rfl⟩
    · exact (Nat.le_log2 (by rintro rfl; simp at hlog)).mp (by omega)
    · rcases h₁ with ⟨_, hlow, _⟩ | ⟨_, rfl⟩ <;> omega
  calc
    (m₁ * 2 ^ e₁ : ℚ) < 2 ^ 53 * 2 ^ e₁ := by gcongr; exact_mod_cast hfirst
    _ = 2 ^ 52 * 2 ^ (e₁ + 1) := by rw [zpow_add_one₀ two_ne_zero]; ring
    _ ≤ 2 ^ 52 * 2 ^ e₂ := by gcongr <;> [norm_num; omega]
    _ ≤ m₂ * 2 ^ e₂ := by gcongr; exact_mod_cast hsecond

/-- The numbers are compared as their values are. -/
theorem Amount.compare (hu : Amount u a) (hv : Amount v b) : u.compare v = some (compare a b) := by
  cases hu with
  | zero s =>
    cases hv with
    | zero s' => rfl
    | @positive m _ hm hform =>
      rw [compare_lt_iff_lt.mpr (by positivity)]
      rfl
  | @positive m₁ e₁ hm₁ hform₁ =>
    cases hv with
    | zero s' =>
      rw [compare_gt_iff_gt.mpr (by positivity)]
      rfl
    | @positive m₂ e₂ hm₂ hform₂ =>
      change some ((Ord.compare e₁ e₂).then (Ord.compare m₁ m₂)) = _
      rcases lt_trichotomy e₁ e₂ with hlt | rfl | hgt
      · rw [Int.compare_eq_lt.mpr hlt, compare_lt_iff_lt.mpr (lt_of_exponent_lt hform₁ hform₂ hlt)]
        rfl
      · rw [Int.compare_eq_eq.mpr rfl, Ordering.eq_then]
        rcases lt_trichotomy m₁ m₂ with hlt | rfl | hgt
        · rw [compare_lt_iff_lt.mpr hlt, compare_lt_iff_lt.mpr (by gcongr)]
        · rw [compare_eq_iff_eq.mpr rfl, compare_eq_iff_eq.mpr rfl]
        · rw [compare_gt_iff_gt.mpr hgt, compare_gt_iff_gt.mpr (by gcongr)]
      · rw [Int.compare_eq_gt.mpr hgt, compare_gt_iff_gt.mpr (lt_of_exponent_lt hform₂ hform₁ hgt)]
        rfl

theorem lt_iff_compare : x < y ↔ x.toModel.unpack.compare y.toModel.unpack = some .lt :=
  decide_eq_true_iff.trans beq_iff_eq

theorem le_iff_compare : x ≤ y ↔ (x.toModel.unpack.compare y.toModel.unpack).any (·.isLE) = true :=
  decide_eq_true_iff

theorem Amount.lt_iff (hx : Amount x.toModel.unpack a) (hy : Amount y.toModel.unpack b) :
    x < y ↔ a < b := by
  rw [lt_iff_compare, hx.compare hy, Option.some_inj, compare_lt_iff_lt]

theorem Amount.le_iff (hx : Amount x.toModel.unpack a) (hy : Amount y.toModel.unpack b) :
    x ≤ y ↔ a ≤ b := by
  rw [le_iff_compare, hx.compare hy, Option.any_some, Ordering.isLE_iff_ne_gt]
  exact compare_le_iff_le

theorem isNaN_of_isFinite (h : x.isFinite = true) : x.isNaN = false := by
  have hfinite : x.isFinite = x.toModel.unpack.isFinite := rfl
  have hnan : x.isNaN = x.toModel.unpack.isNaN := rfl
  rw [hfinite] at h
  rw [hnan]
  generalize x.toModel.unpack = u at h
  cases u with
  | notANumber => cases h
  | _ => rfl

theorem Amount.isNaN (h : Amount x.toModel.unpack a) : x.isNaN = false := by
  have hnan : x.isNaN = x.toModel.unpack.isNaN := rfl
  rw [hnan]
  generalize x.toModel.unpack = u at h
  cases h <;> rfl

/-- A finite number that is negative is below all others. -/
theorem amount_or_negative (h : x.isFinite = true) :
    (∃ b, Amount x.toModel.unpack b) ∨
      ∀ {y : Float} {b : ℚ}, Amount y.toModel.unpack b → x < y ∧ ¬ y < x := by
  have hmodel : x.toModel.unpack.isFinite = true := h
  cases hu : x.toModel.unpack with
  | infinity s => rw [hu] at hmodel; cases hmodel
  | notANumber => rw [hu] at hmodel; cases hmodel
  | zero s => exact .inl ⟨0, .zero s⟩
  | finite s m e hm =>
    cases s with
    | positive => exact .inl ⟨_, .positive (normal_or_least hu)⟩
    | negative =>
      right
      intro y b hy
      rw [lt_iff_compare, lt_iff_compare, hu]
      generalize y.toModel.unpack = v at hy
      cases hy with
      | zero s' => exact ⟨rfl, by simp [UnpackedFloat.compare]⟩
      | positive _ => exact ⟨rfl, by simp [UnpackedFloat.compare]⟩

/-! Arguments. -/

theorem least_of_lt (hx : x.isNaN = false) (hy : y.isNaN = false) (h : x < y) : least x y = x := by
  unfold least
  rw [hx, hy]
  simp [h]

theorem least_of_gt (hx : x.isNaN = false) (hy : y.isNaN = false) (h : y < x) (hnot : ¬ x < y) :
    least x y = y := by
  unfold least
  rw [hx, hy]
  simp [h, hnot]

theorem greatest_of_gt (hx : x.isNaN = false) (hy : y.isNaN = false) (h : y < x) :
    greatest x y = x := by
  unfold greatest
  rw [hx, hy]
  simp [h]

theorem greatest_of_lt (hx : x.isNaN = false) (hy : y.isNaN = false) (h : x < y)
    (hnot : ¬ y < x) : greatest x y = y := by
  unfold greatest
  rw [hx, hy]
  simp [h, hnot]

theorem least_cases (hx : x.isNaN = false) (hy : y.isNaN = false) :
    least x y = x ∧ (x < y ∨ ¬ y < x) ∨ least x y = y ∧ ¬ x < y := by
  unfold least
  rw [hx, hy]
  split_ifs <;> simp_all

theorem greatest_cases (hx : x.isNaN = false) (hy : y.isNaN = false) :
    greatest x y = x ∧ (y < x ∨ ¬ x < y) ∨ greatest x y = y ∧ ¬ y < x := by
  unfold greatest
  rw [hx, hy]
  split_ifs <;> simp_all

/-- The lesser of two numbers, and the greater of two, is found by their values. -/
theorem Amount.least (hx : Amount x.toModel.unpack a) (hy : Amount y.toModel.unpack b) :
    Amount (least x y).toModel.unpack (min a b) := by
  rcases least_cases hx.isNaN hy.isNaN with ⟨hz, hle⟩ | ⟨hz, hle⟩
  · rw [hx.lt_iff hy, hy.lt_iff hx, not_lt] at hle
    rw [hz, min_eq_left (hle.elim le_of_lt id)]
    exact hx
  · rw [hx.lt_iff hy, not_lt] at hle
    rw [hz, min_eq_right hle]
    exact hy

theorem Amount.greatest (hx : Amount x.toModel.unpack a) (hy : Amount y.toModel.unpack b) :
    Amount (greatest x y).toModel.unpack (max a b) := by
  rcases greatest_cases hx.isNaN hy.isNaN with ⟨hz, hle⟩ | ⟨hz, hle⟩
  · rw [hx.lt_iff hy, hy.lt_iff hx, not_lt] at hle
    rw [hz, max_eq_left (hle.elim le_of_lt id)]
    exact hx
  · rw [hy.lt_iff hx, not_lt] at hle
    rw [hz, max_eq_right hle]
    exact hy

/-- There is a text, it is not blank, and it writes this finite number. -/
def Writes (raw : Option String) (x : Float) : Prop :=
  ∃ s, raw = some s ∧ Text.isAllBlank s = false ∧ ofText s = x ∧ x.isFinite = true

/-- The number that a text gives within two limits that are not negative. One that writes no number
gives the fallback, as it stands. -/
inductive Effective (raw : Option String) (fallback lo hi : Float) : Float → Prop
  | fallback (h : ∀ x, ¬ Writes raw x) : Effective raw fallback lo hi fallback
  | low {x : Float} (hx : Writes raw x) (h : x < lo) : Effective raw fallback lo hi lo
  | high {x : Float} (hx : Writes raw x) (h : hi < x) : Effective raw fallback lo hi hi
  | within {x v : Float} {b : ℚ} (hx : Writes raw x) (hlow : lo ≤ x) (hhigh : x ≤ hi)
      (hb : Amount x.toModel.unpack b) (hv : Amount v.toModel.unpack b) :
      Effective raw fallback lo hi v

theorem effective_ofArgument (raw : Option String) (fallback : Float)
    (hlo : Amount lo.toModel.unpack a) (hhi : Amount hi.toModel.unpack c) (hac : a < c) :
    Effective raw fallback lo hi (ofArgument raw fallback lo hi) := by
  cases raw with
  | none => exact .fallback nofun
  | some s =>
    unfold ofArgument
    dsimp only
    split
    case isTrue hunread =>
      apply Effective.fallback
      rintro x ⟨s', hs, hblank, rfl, hfinite⟩
      obtain rfl := Option.some.inj hs
      simp [hblank, hfinite] at hunread
    case isFalse hread =>
      obtain ⟨hblank, hfinite⟩ : Text.isAllBlank s = false ∧ (ofText s).isFinite = true := by
        simpa using hread
      have hwrites : Writes (some s) (ofText s) := ⟨s, rfl, hblank, rfl, hfinite⟩
      generalize ofText s = x at hwrites hfinite ⊢
      have hnumber := isNaN_of_isFinite hfinite
      rcases amount_or_negative hfinite with ⟨b, hb⟩ | hnegative
      · rcases lt_or_ge b a with hbelow | hlow
        · have hlt := (hb.lt_iff hlo).mpr hbelow
          have hlt' := (hb.lt_iff hhi).mpr (hbelow.trans hac)
          have hnot := (hhi.lt_iff hb).not.mpr (hbelow.trans hac).not_gt
          rw [least_of_gt hhi.isNaN hnumber hlt' hnot, greatest_of_gt hlo.isNaN hnumber hlt]
          exact .low hwrites hlt
        rcases le_or_gt b c with hhigh | habove
        · have hvalue := hlo.greatest (hhi.least hb)
          rw [min_eq_right hhigh, max_eq_right hlow] at hvalue
          exact .within hwrites ((hlo.le_iff hb).mpr hlow) ((hb.le_iff hhi).mpr hhigh) hb hvalue
        · have hlt := (hhi.lt_iff hb).mpr habove
          have hlimits := (hlo.lt_iff hhi).mpr hac
          have hnot := (hhi.lt_iff hlo).not.mpr hac.not_gt
          rw [least_of_lt hhi.isNaN hnumber hlt, greatest_of_lt hlo.isNaN hhi.isNaN hlimits hnot]
          exact .high hwrites hlt
      · obtain ⟨hlt, -⟩ := hnegative hlo
        obtain ⟨hlt', hnot⟩ := hnegative hhi
        rw [least_of_gt hhi.isNaN hnumber hlt' hnot, greatest_of_gt hlo.isNaN hnumber hlt]
        exact .low hwrites hlt

/-- An argument is within its limits, as its fallback is. -/
theorem ofArgument_range (raw : Option String) (hlo : Amount lo.toModel.unpack a)
    (hfallback : Amount fallback.toModel.unpack b) (hhi : Amount hi.toModel.unpack c)
    (hab : a ≤ b) (hbc : b ≤ c) (hac : a < c) :
    Effective raw fallback lo hi (ofArgument raw fallback lo hi) ∧
      ∃ v, Amount (ofArgument raw fallback lo hi).toModel.unpack v ∧ a ≤ v ∧ v ≤ c := by
  have heffective := effective_ofArgument raw fallback hlo hhi hac
  refine ⟨heffective, ?_⟩
  generalize ofArgument raw fallback lo hi = v at heffective
  cases heffective with
  | fallback _ => exact ⟨b, hfallback, hab, hbc⟩
  | low _ _ => exact ⟨a, hlo, le_rfl, hac.le⟩
  | high _ _ => exact ⟨c, hhi, hac.le, le_rfl⟩
  | within hx hlow hhigh hb hv => exact ⟨_, hv, (hlo.le_iff hb).mp hlow, (hb.le_iff hhi).mp hhigh⟩

end Number

end Chip8
