import Chip8.Tone.Pcm
import Mathlib.Data.EReal.Basic
import Mathlib.Tactic

/-! The levels of samples: full volume times what a sample is worth between -1 and 1, to the nearest
integer. -/
namespace Chip8

/-- The value of anything that is a number, infinities included. -/
noncomputable def Exact.value? : Exact → Option EReal
  | .notANumber => none
  | .infinite negative => some (if negative then ⊥ else ⊤)
  | .finite negative m e => some ((if negative then -(m * 2 ^ e) else m * 2 ^ e : ℝ) : EReal)

namespace Sample

variable {s t : Sample} {v w : EReal} {x : ℝ} {negative : Bool} {k den m : ℕ} {e : ℤ}

noncomputable def value? (s : Sample) : Option EReal :=
  (Exact.ofSingle s).value?

/-- The value brought between -1 and 1. -/
noncomputable def clamp (v : EReal) : ℝ :=
  (max (-1) (min 1 v)).toReal

theorem clamp_coe (x : ℝ) : clamp x = max (-1) (min 1 x) := by
  have hmono : Monotone Real.toEReal := EReal.coe_strictMono.monotone
  have hcoe : (max (-1) (min 1 (x : EReal)) : EReal) = ((max (-1) (min 1 x) : ℝ) : EReal) := by
    rw [hmono.map_max, hmono.map_min, EReal.coe_neg, EReal.coe_one]
  rw [clamp, hcoe, EReal.toReal_coe]

theorem neg_one_le_one : (-1 : EReal) ≤ 1 :=
  EReal.coe_le_coe_iff.mpr (by norm_num : (-1 : ℝ) ≤ 1)

theorem clamp_mono (h : v ≤ w) : clamp v ≤ clamp w := by
  have hbot : (⊥ : EReal) < -1 := EReal.bot_lt_coe (-1)
  have htop : (1 : EReal) < ⊤ := EReal.coe_lt_top 1
  apply EReal.toReal_le_toReal
  · exact max_le_max_left _ (min_le_min_left _ h)
  · exact (hbot.trans_le (le_max_left _ _)).ne'
  · exact ((max_le neg_one_le_one (min_le_left _ _)).trans_lt htop).ne

theorem clamp_top : clamp ⊤ = 1 := by
  rw [clamp, min_top_right, max_eq_right neg_one_le_one, EReal.toReal_one]

theorem clamp_bot : clamp ⊥ = -1 := by
  rw [clamp, min_bot_right, max_bot_right]
  rfl

theorem abs_clamp_le (v : EReal) : |clamp v| ≤ 1 := by
  have hlow := clamp_mono (bot_le : ⊥ ≤ v)
  have hhigh := clamp_mono (le_top : v ≤ ⊤)
  rw [clamp_bot] at hlow
  rw [clamp_top] at hhigh
  exact abs_le.mpr ⟨hlow, hhigh⟩

theorem roundHalfUp_eq (num : ℤ) (hden : 0 < den) :
    roundHalfUp num den = ⌊(num : ℝ) / den + 1 / 2⌋ := by
  have hsum : (num : ℝ) / den + 1 / 2 = ((2 * num + den : ℤ) : ℝ) / (2 * den : ℕ) := by
    push_cast
    field_simp
  rw [hsum, Int.floor_div_natCast, Int.floor_intCast]
  rfl

/-- A magnitude that is brought under 1 before the sign counts. -/
theorem roundHalfUp_magnitude (hden : 0 < den) (hx : 0 ≤ x) (hk : (k : ℝ) / den = min 1 x) :
    roundHalfUp (if negative then -((k * peak : ℕ) : ℤ) else (k * peak : ℕ)) den =
      ⌊32767 * clamp ((if negative then -x else x : ℝ) : EReal) + 1 / 2⌋ := by
  rw [roundHalfUp_eq _ hden, clamp_coe]
  have hpeak : (peak : ℝ) = 32767 := by norm_num [peak]
  have hmin : 0 ≤ min 1 x := le_min zero_le_one hx
  congr 2
  cases negative with
  | false =>
    have hclamp : max (-1) (min 1 x) = min 1 x := max_eq_right (by linarith)
    simp only [Bool.false_eq_true, if_false]
    rw [hclamp, ← hk]
    push_cast
    rw [hpeak]
    ring
  | true =>
    have hclamp : max (-1) (min 1 (-x)) = -min 1 x := by
      rw [min_eq_right (by linarith : -x ≤ 1), max_neg_neg]
    simp only [if_true]
    rw [hclamp, ← hk]
    push_cast
    rw [hpeak]
    ring

/-- Where the mantissa is at least as large as the unit of its last place, the value is at least 1. -/
theorem min_one_of_large (h : 0 ≤ e ∨ 1 <<< (-e).toNat ≤ m) (hm : 1 ≤ m) :
    min 1 ((m : ℝ) * 2 ^ e) = 1 := by
  have hm' : (1 : ℝ) ≤ m := by exact_mod_cast hm
  apply min_eq_left
  rcases le_or_gt 0 e with he | he
  · exact one_le_mul_of_one_le_of_one_le hm' (one_le_zpow₀ one_le_two he)
  · have hunit : 2 ^ (-e).toNat ≤ m := by
      rw [← Nat.one_shiftLeft]
      omega
    have hunit' : (2 : ℝ) ^ (-e) ≤ m := by
      rw [← Int.toNat_of_nonneg (by omega : 0 ≤ -e), zpow_natCast]
      exact_mod_cast hunit
    calc
      (1 : ℝ) = 2 ^ (-e) * 2 ^ e := by rw [← zpow_add₀ two_ne_zero, neg_add_cancel, zpow_zero]
      _ ≤ m * 2 ^ e := mul_le_mul_of_nonneg_right hunit' (by positivity)

theorem min_one_of_small (h : ¬ (0 ≤ e ∨ 1 <<< (-e).toNat ≤ m)) :
    min 1 ((m : ℝ) * 2 ^ e) = m / (1 <<< (-e).toNat : ℕ) := by
  have he : e = -((-e).toNat : ℤ) := by omega
  have hunit : m < 2 ^ (-e).toNat := by
    rw [← Nat.one_shiftLeft]
    omega
  have hvalue : (m : ℝ) * (2 : ℝ) ^ e = m / (1 <<< (-e).toNat : ℕ) := by
    rw [Nat.one_shiftLeft, Nat.cast_pow, Nat.cast_ofNat, div_eq_mul_inv, ← zpow_natCast,
      ← zpow_neg, ← he]
  rw [hvalue]
  apply min_eq_right
  rw [Nat.one_shiftLeft]
  exact (div_le_one (by positivity)).mpr (by exact_mod_cast hunit.le)

theorem toPcm_eq (h : s.value? = some v) :
    s.toPcm = ⌊32767 * clamp v + 1 / 2⌋ := by
  unfold value? at h
  unfold toPcm
  cases hs : Exact.ofSingle s with
  | notANumber => rw [hs] at h; cases h
  | infinite negative =>
    rw [hs] at h
    obtain rfl := Option.some.inj h
    apply Eq.symm
    rw [Int.floor_eq_iff]
    cases negative <;> norm_num [clamp_top, clamp_bot, peak]
  | finite negative m e =>
    rw [hs] at h
    obtain rfl := Option.some.inj h
    have hx : (0 : ℝ) ≤ m * 2 ^ e := by positivity
    cases m with
    | zero =>
      have hzero : (if negative then -(((0 : ℕ) : ℝ) * 2 ^ e) else ((0 : ℕ) : ℝ) * 2 ^ e) = 0 := by simp
      rw [hzero, clamp_coe]
      norm_num
    | succ m =>
      by_cases hlarge : 0 ≤ e ∨ 1 <<< (-e).toNat ≤ m + 1
      · simp only [if_pos hlarge]
        refine roundHalfUp_magnitude one_pos hx ?_
        rw [min_one_of_large hlarge (by omega)]
        norm_num
      · simp only [if_neg hlarge]
        have hunit : 0 < 1 <<< (-e).toNat := by
          rw [Nat.one_shiftLeft]
          positivity
        exact roundHalfUp_magnitude hunit hx (min_one_of_small hlarge).symm

theorem toPcm_of_notANumber (h : s.value? = none) : s.toPcm = 0 := by
  unfold value? at h
  unfold toPcm
  cases hs : Exact.ofSingle s with
  | notANumber => rfl
  | infinite negative => rw [hs] at h; cases h
  | finite negative m e => rw [hs] at h; cases h

theorem abs_toPcm_sub_le (h : s.value? = some v) :
    |(s.toPcm : ℝ) - 32767 * clamp v| ≤ 1 / 2 := by
  rw [toPcm_eq h, abs_le]
  have hle := Int.floor_le (32767 * clamp v + 1 / 2)
  have hlt := Int.lt_floor_add_one (32767 * clamp v + 1 / 2)
  constructor <;> linarith

theorem toPcm_mono (hs : s.value? = some v) (ht : t.value? = some w)
    (h : v ≤ w) : s.toPcm ≤ t.toPcm := by
  rw [toPcm_eq hs, toPcm_eq ht]
  apply Int.floor_mono
  have hclamp := clamp_mono h
  linarith

/-- No level is the least number of 16 bits, whatever the sample. -/
theorem toPcm_range (s : Sample) : -32767 ≤ s.toPcm ∧ s.toPcm ≤ 32767 := by
  cases hs : s.value? with
  | none => simp [toPcm_of_notANumber hs]
  | some v =>
    obtain ⟨hlow, hhigh⟩ := abs_le.mp (abs_clamp_le v)
    rw [toPcm_eq hs]
    refine ⟨Int.le_floor.mpr ?_, Int.lt_add_one_iff.mp (Int.floor_lt.mpr ?_)⟩
    · push_cast
      linarith
    · push_cast
      linarith

end Sample

end Chip8
