import Chip8.Number.Single
import Chip8.Proofs.Number.Rounding

/-! How close a number comes to the 32-bit number that it is rounded to. -/
namespace Chip8

open Float.Model (UnpackedFloat)
open Float.Model.UnpackedFloat

variable {m raw units k num den : ℕ} {e : ℤ} {u : UnpackedFloat} {x : Float} {a : ℚ}

namespace Single

open Number (two_zpow_log2_le lt_two_zpow_log2)

theorem roundHalfEven_cases (num den : ℕ) :
    roundHalfEven num den = num / den ∧ 2 * (num % den) ≤ den ∨
      roundHalfEven num den = num / den + 1 ∧ den ≤ 2 * (num % den) := by
  unfold roundHalfEven
  dsimp only
  split_ifs with hbelow habove
  · exact .inl ⟨rfl, hbelow.le⟩
  · exact .inr ⟨rfl, habove.le⟩
  · have htie : 2 * (num % den) = den := by omega
    rcases Nat.mod_two_eq_zero_or_one (num / den) with heven | hodd
    · exact .inl ⟨by rw [heven, Nat.add_zero], htie.le⟩
    · exact .inr ⟨by rw [hodd], htie.ge⟩

/-- The nearest multiple is away by half of the unit at most. -/
theorem abs_roundHalfEven_sub_le (num : ℕ) (hden : 0 < den) :
    |(roundHalfEven num den * den : ℚ) - num| ≤ den / 2 := by
  have hsum : (den * (num / den : ℕ) + (num % den : ℕ) : ℚ) = num := by
    exact_mod_cast Nat.div_add_mod num den
  have hrest : ((num % den : ℕ) : ℚ) < den := by exact_mod_cast Nat.mod_lt num hden
  have hrest' : (0 : ℚ) ≤ (num % den : ℕ) := Nat.cast_nonneg _
  rw [abs_le]
  rcases roundHalfEven_cases num den with ⟨hdown, hle⟩ | ⟨hup, hle⟩
  · have hle' : (2 * (num % den : ℕ) : ℚ) ≤ den := by exact_mod_cast hle
    rw [hdown]
    constructor <;> linarith
  · have hle' : (den : ℚ) ≤ 2 * (num % den : ℕ) := by exact_mod_cast hle
    rw [hup, Nat.cast_succ]
    constructor <;> linarith

/-- The bit of a word that holds the sign. -/
def signBit (negative : Bool) : ℕ :=
  if negative then 0x80000000 else 0

theorem fields_signBit (negative : Bool) (h : raw < 2 ^ 31) :
    (raw + signBit negative).testBit 31 = negative ∧
      (raw + signBit negative) % 2 ^ 23 = raw % 2 ^ 23 ∧
      (raw + signBit negative) / 2 ^ 23 % 2 ^ 8 = raw / 2 ^ 23 := by
  have hlow : raw.testBit 31 = false := Nat.testBit_lt_two_pow h
  unfold signBit
  cases negative with
  | false =>
    refine ⟨hlow, rfl, ?_⟩
    simp only [Bool.false_eq_true, if_false]
    omega
  | true =>
    have hhigh : (2 ^ 31 + raw).testBit 31 = true := by
      rw [Nat.testBit_two_pow_add_eq, hlow]
      rfl
    rw [Nat.add_comm] at hhigh
    refine ⟨hhigh, ?_, ?_⟩
    · simp only [if_true]
      omega
    · simp only [if_true]
      omega

theorem ofFields_of_lt (negative : Bool) (h : raw < 255 * 2 ^ 23) :
    Exact.ofFields 23 8 (raw + signBit negative) =
      if raw / 2 ^ 23 = 0 then .finite negative (raw % 2 ^ 23) (-149)
      else .finite negative (2 ^ 23 + raw % 2 ^ 23) ((raw / 2 ^ 23 : ℕ) - 150) := by
  have hword : raw < 2 ^ 31 := by omega
  obtain ⟨hsign, hfraction, hbiased⟩ := fields_signBit negative hword
  have hfinite : raw / 2 ^ 23 + 1 ≠ 1 <<< 8 := by omega
  unfold Exact.ofFields
  dsimp only
  rw [Nat.one_shiftLeft, Nat.one_shiftLeft, hfraction, hbiased, hsign, ← Nat.one_shiftLeft 8,
    if_neg hfinite]
  rfl

/-- A word without its sign counts units of the place that its exponent stands for. -/
theorem ofFields_units (hunits : units ≤ 2 ^ 24) (hk : k ≤ 200) (hfull : k = 0 ∨ 2 ^ 23 ≤ units) :
    ∃ (m : ℕ) (e : ℤ), (m * 2 ^ e : ℚ) = units * 2 ^ ((k : ℤ) - 149) ∧
      ∀ negative : Bool,
        Exact.ofFields 23 8 (units + k * 2 ^ 23 + signBit negative) = .finite negative m e := by
  have hraw : units + k * 2 ^ 23 < 255 * 2 ^ 23 := by omega
  simp only [ofFields_of_lt _ hraw]
  rcases Nat.lt_or_ge units (2 ^ 23) with hsmall | hlarge
  · obtain rfl : k = 0 := hfull.resolve_right (by omega)
    have hbiased : (units + 0 * 2 ^ 23) / 2 ^ 23 = 0 := by omega
    have hfraction : (units + 0 * 2 ^ 23) % 2 ^ 23 = units := by omega
    rw [hbiased, hfraction]
    exact ⟨units, -149, rfl, fun _ => rfl⟩
  rcases hunits.lt_or_eq with hlt | rfl
  · have hbiased : (units + k * 2 ^ 23) / 2 ^ 23 = k + 1 := by omega
    have hfraction : 2 ^ 23 + (units + k * 2 ^ 23) % 2 ^ 23 = units := by omega
    rw [hbiased, hfraction]
    refine ⟨units, (k + 1 : ℕ) - 150, ?_, fun _ => rfl⟩
    congr 2
    push_cast
    ring
  · have hbiased : (2 ^ 24 + k * 2 ^ 23) / 2 ^ 23 = k + 2 := by omega
    have hfraction : 2 ^ 23 + (2 ^ 24 + k * 2 ^ 23) % 2 ^ 23 = 2 ^ 23 := by omega
    rw [hbiased, hfraction]
    refine ⟨2 ^ 23, (k + 2 : ℕ) - 150, ?_, fun _ => rfl⟩
    have hexponent : ((k + 2 : ℕ) - 150 : ℤ) = (k - 149 : ℤ) + 1 := by
      push_cast
      ring
    rw [hexponent, zpow_add_one₀ two_ne_zero]
    push_cast
    ring

/-- How many units of a place make a number, to the nearest integer. -/
def unitsAt (m : ℕ) (e scale : ℤ) : ℕ :=
  if 0 ≤ e - scale then m <<< (e - scale).toNat
  else roundHalfEven m (1 <<< (-(e - scale)).toNat)

theorem abs_unitsAt_sub_le (m : ℕ) (e scale : ℤ) :
    |(unitsAt m e scale * 2 ^ scale : ℚ) - m * 2 ^ e| ≤ 2 ^ scale / 2 := by
  unfold unitsAt
  split
  case isTrue h =>
    obtain ⟨d, hd⟩ : ∃ d : ℕ, e = scale + d := ⟨(e - scale).toNat, by omega⟩
    have hshift : (e - scale).toNat = d := by omega
    have hvalue : ((m <<< d : ℕ) * 2 ^ scale : ℚ) = m * 2 ^ e := by
      rw [hd, Nat.shiftLeft_eq, zpow_add₀ two_ne_zero, zpow_natCast]
      push_cast
      ring
    rw [hshift, hvalue, sub_self, abs_zero]
    positivity
  case isFalse h =>
    obtain ⟨d, hd⟩ : ∃ d : ℕ, scale = e + d := ⟨(scale - e).toNat, by omega⟩
    have hshift : (-(e - scale)).toNat = d := by omega
    have hclose := abs_roundHalfEven_sub_le m (Nat.two_pow_pos d)
    rw [hshift, Nat.one_shiftLeft, hd, zpow_add₀ two_ne_zero, zpow_natCast]
    push_cast at hclose
    calc
      |(roundHalfEven m (2 ^ d) * (2 ^ e * 2 ^ d) - m * 2 ^ e : ℚ)| =
          |(roundHalfEven m (2 ^ d) * 2 ^ d - m : ℚ) * 2 ^ e| := by
        congr 1
        ring
      _ = |(roundHalfEven m (2 ^ d) * 2 ^ d - m : ℚ)| * 2 ^ e := by
        rw [abs_mul, abs_of_pos (by positivity : (0 : ℚ) < 2 ^ e)]
      _ ≤ 2 ^ d / 2 * 2 ^ e := by gcongr
      _ = 2 ^ e * 2 ^ d / 2 := by ring

theorem unitsAt_le {scale : ℤ} (hm : 0 < m) (h : (m.log2 : ℤ) + e ≤ scale + 23) :
    unitsAt m e scale ≤ 2 ^ 24 := by
  unfold unitsAt
  split
  case isTrue hup =>
    rw [Nat.shiftLeft_eq]
    have hlog : (m * 2 ^ (e - scale).toNat).log2 = m.log2 + (e - scale).toNat :=
      Number.log2_mul_two_pow hm.ne' _
    exact ((Nat.log2_lt (by positivity)).mp (by omega)).le
  case isFalse hdown =>
    obtain ⟨d, hd⟩ : ∃ d : ℕ, (-(e - scale)).toNat = d := ⟨_, rfl⟩
    have hlong : m < 2 ^ (24 + d) := (Nat.log2_lt hm.ne').mp (by omega)
    have hquotient : m / 2 ^ d < 2 ^ 24 :=
      (Nat.div_lt_iff_lt_mul (by positivity)).mpr (by rwa [← pow_add])
    rw [hd, Nat.one_shiftLeft]
    rcases roundHalfEven_cases m (2 ^ d) with ⟨hround, -⟩ | ⟨hround, -⟩ <;> omega

theorem le_unitsAt {scale : ℤ} (hm : 0 < m) (h : (m.log2 : ℤ) + e = scale + 23) :
    2 ^ 23 ≤ unitsAt m e scale := by
  unfold unitsAt
  split
  case isTrue hup =>
    rw [Nat.shiftLeft_eq]
    have hlog : (m * 2 ^ (e - scale).toNat).log2 = m.log2 + (e - scale).toNat :=
      Number.log2_mul_two_pow hm.ne' _
    exact (Nat.le_log2 (by positivity)).mp (by omega)
  case isFalse hdown =>
    obtain ⟨d, hd⟩ : ∃ d : ℕ, (-(e - scale)).toNat = d := ⟨_, rfl⟩
    have hlong : 2 ^ (23 + d) ≤ m := (Nat.le_log2 hm.ne').mp (by omega)
    have hquotient : 2 ^ 23 ≤ m / 2 ^ d :=
      (Nat.le_div_iff_mul_le (by positivity)).mpr (by rwa [← pow_add])
    rw [hd, Nat.one_shiftLeft]
    rcases roundHalfEven_cases m (2 ^ d) with ⟨hround, -⟩ | ⟨hround, -⟩ <;> omega

theorem magnitude_eq (hm : 0 < m) (e : ℤ) :
    magnitude m e = min (unitsAt m e (max (e + m.log2 - 23) (-149)) +
      (max (e + m.log2 - 23) (-149) + 149).toNat <<< 23) 0x7f800000 := by
  unfold magnitude
  rw [if_neg hm.ne']
  rfl

/-- The units that make a number up to 1 do not make more than 1. -/
theorem unitsAt_le_one (h : (m * 2 ^ e : ℚ) ≤ 1) (d : ℕ) :
    (unitsAt m e (-d) * 2 ^ (-d : ℤ) : ℚ) ≤ 1 := by
  have hunit : (2 ^ d * 2 ^ (-d : ℤ) : ℚ) = 1 := by
    rw [zpow_neg, zpow_natCast, mul_inv_cancel₀ (by positivity)]
  have hpos : (0 : ℚ) < 2 ^ (-d : ℤ) := by positivity
  have hclose := (abs_le.mp (abs_unitsAt_sub_le m e (-d))).2
  have hlt : (unitsAt m e (-d) * 2 ^ (-d : ℤ) : ℚ) < (2 ^ d + 1) * 2 ^ (-d : ℤ) := by linarith
  have hunits : unitsAt m e (-d) < 2 ^ d + 1 := by exact_mod_cast lt_of_mul_lt_mul_right hlt hpos.le
  rw [← hunit]
  gcongr
  exact_mod_cast Nat.lt_succ_iff.mp hunits

/-- The word of a number up to 1 counts the units that come closest to the number. -/
theorem magnitude_units (h : (m * 2 ^ e : ℚ) ≤ 1) :
    ∃ units k : ℕ, magnitude m e = units + k * 2 ^ 23 ∧ units ≤ 2 ^ 24 ∧ k ≤ 126 ∧
      (k = 0 ∨ 2 ^ 23 ≤ units) ∧ (units * 2 ^ ((k : ℤ) - 149) : ℚ) ≤ 1 ∧
      |(units * 2 ^ ((k : ℤ) - 149) : ℚ) - m * 2 ^ e| ≤ 1 / 2 ^ 24 := by
  rcases Nat.eq_zero_or_pos m with rfl | hm
  · exact ⟨0, 0, rfl, by decide, by decide, .inl rfl, by norm_num, by norm_num⟩
  have hlog : (m.log2 : ℤ) + e ≤ 0 := by
    have hle := (two_zpow_log2_le hm e).trans h
    rwa [zpow_le_one_iff_right₀ one_lt_two] at hle
  obtain ⟨k, hk⟩ : ∃ k : ℕ, max (e + m.log2 - 23) (-149) = (k : ℤ) - 149 :=
    ⟨(max (e + m.log2 - 23) (-149) + 149).toNat, by omega⟩
  have hplace : ((k : ℤ) - 149 + 149).toNat = k := by omega
  have hunits : unitsAt m e (k - 149) ≤ 2 ^ 24 := unitsAt_le hm (by omega)
  refine ⟨unitsAt m e (k - 149), k, ?_, hunits, by omega, ?_, ?_, ?_⟩
  · rw [magnitude_eq hm, hk, hplace, Nat.shiftLeft_eq, Nat.min_eq_left]
    omega
  · rcases Nat.eq_zero_or_pos k with hzero | hpos
    · exact .inl hzero
    · exact .inr (le_unitsAt hm (by omega))
  · have hscale : (k : ℤ) - 149 = -(149 - k : ℕ) := by omega
    rw [hscale]
    exact unitsAt_le_one h _
  · refine (abs_unitsAt_sub_le m e (k - 149)).trans ?_
    calc
      (2 ^ ((k : ℤ) - 149) / 2 : ℚ) ≤ 2 ^ (-23 : ℤ) / 2 := by
        gcongr
        · exact one_le_two
        · omega
      _ = 1 / 2 ^ 24 := by norm_num

/-- A number up to 1 is hardly changed, whatever its sign. -/
theorem ofSingle_ofExact (h : (m * 2 ^ e : ℚ) ≤ 1) :
    ∃ (m' : ℕ) (e' : ℤ), (m' * 2 ^ e' : ℚ) ≤ 1 ∧ |(m' * 2 ^ e' : ℚ) - m * 2 ^ e| ≤ 1 / 2 ^ 24 ∧
      ∀ negative : Bool,
        Exact.ofSingle (ofExact (.finite negative m e)) = .finite negative m' e' := by
  obtain ⟨units, k, hmagnitude, hunits, hk, hfull, hone, hclose⟩ := magnitude_units h
  obtain ⟨m', e', hvalue, hfields⟩ := ofFields_units hunits (by omega) hfull
  refine ⟨m', e', hvalue ▸ hone, hvalue ▸ hclose, fun negative => ?_⟩
  have hword : units + k * 2 ^ 23 + signBit negative < UInt32.size := by
    have hsize : UInt32.size = 2 ^ 32 := rfl
    have hsign : signBit negative ≤ 2 ^ 31 := by cases negative <;> decide
    omega
  rw [← hfields negative, ← hmagnitude]
  rw [← hmagnitude] at hword
  change Exact.ofFields 23 8 (UInt32.ofNat (magnitude m e + signBit negative)).toNat = _
  rw [UInt32.toNat_ofNat_of_lt' hword]

theorem ofSingle_ofExact_zero (negative : Bool) :
    Exact.ofSingle (ofExact (.finite negative 0 (-1074))) = .finite negative 0 (-149) := by
  cases negative <;> decide

end Single

/-- A number from 0 to 1 and its opposite are rounded to two opposite numbers close to them. -/
theorem Number.Amount.narrow (h : Amount x.toModel.unpack a) (ha : a ≤ 1) :
    ∃ (negative : Bool) (m : ℕ) (e : ℤ), (m * 2 ^ e : ℚ) ≤ 1 ∧ |(m * 2 ^ e : ℚ) - a| ≤ 1 / 2 ^ 24 ∧
      (negative = true → m = 0) ∧
      Exact.ofSingle (Single.ofFloat x) = .finite negative m e ∧
      Exact.ofSingle (Single.ofFloat (-x)) = .finite (!negative) m e := by
  have hneg : (-x).toModel.unpack = (Float.Model.pack x.toModel.unpack.neg).unpack := rfl
  unfold Single.ofFloat
  rw [Exact.ofFloat_eq, Exact.ofFloat_eq, hneg]
  generalize x.toModel.unpack = u at h
  cases h with
  | zero s =>
    have hzero : (UnpackedFloat.zero s).neg = .zero (-s) := rfl
    refine ⟨Exact.isNegative s, 0, -149, by norm_num, by norm_num, fun _ => rfl,
      Single.ofSingle_ofExact_zero _, ?_⟩
    have hsign : Exact.isNegative (-s) = !Exact.isNegative s := by cases s <;> rfl
    rw [hzero, unpack_pack_zero, ← hsign]
    exact Single.ofSingle_ofExact_zero _
  | @positive m e hm hform =>
    obtain ⟨m', e', hone, hclose, hsigned⟩ := Single.ofSingle_ofExact ha
    refine ⟨false, m', e', hone, hclose, nofun, hsigned false, ?_⟩
    have hopposite : (UnpackedFloat.finite .positive m e hm).neg = .finite .negative m e hm := rfl
    have hform' : (Float.Model.pack (.finite .negative m e hm)).unpack =
        .finite .negative m e hm := by
      rcases hform with ⟨hlog, hlow, hhigh⟩ | ⟨hsmall, rfl⟩
      · exact unpack_pack_finite _ hm hlog hlow hhigh
      · exact unpack_pack_least _ hm hsmall
    rw [hopposite, hform']
    exact hsigned true

end Chip8
