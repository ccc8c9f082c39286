import Chip8.Proofs.Number.Whole

/-! What is left of a number without its fraction, and how many natural numbers are below it. -/
namespace Chip8

open Float.Model (Format UnpackedFloat)
open Float.Model.UnpackedFloat

namespace Number

variable {m : ℕ} {e : ℤ} {u : UnpackedFloat} {x : Float} {a : ℚ}

theorem wholePart_eq_floor (m : ℕ) (e : ℤ) : Exact.wholePart m e = ⌊(m * 2 ^ e : ℚ)⌋₊ := by
  have hvalue : (m * 2 ^ e : ℚ) = (m * 2 ^ e.toNat : ℕ) / (2 ^ (-e).toNat : ℕ) := by
    rw [zpow_eq_div]
    push_cast
    ring
  rw [hvalue, Nat.floor_div_eq_div]
  unfold Exact.wholePart
  split
  case isTrue he =>
    have hdown : (-e).toNat = 0 := by omega
    rw [Nat.shiftLeft_eq, hdown, pow_zero, Nat.div_one]
  case isFalse he =>
    have hup : e.toNat = 0 := by omega
    rw [Nat.shiftRight_eq_div_pow, hup, pow_zero, mul_one]

theorem roundToInt_eq (m : ℕ) (e : ℤ) :
    roundToInt .positive m e = (⌊(m * 2 ^ e : ℚ)⌋₊ : ℤ) := by
  have hshift : (0 - (e - (e - 0).toNat)).toNat = (-e).toNat := by omega
  rw [← wholePart_eq_floor]
  unfold roundToInt decreaseExponent shiftToExponent
  dsimp only
  rw [hshift, mantissa_shiftRight, Int.sub_zero]
  change ((m <<< e.toNat / 2 ^ (-e).toNat : ℕ) : ℤ) = _
  unfold Exact.wholePart
  split
  case isTrue he =>
    have hdown : (-e).toNat = 0 := by omega
    rw [hdown, pow_zero, Nat.div_one]
  case isFalse he =>
    have hup : e.toNat = 0 := by omega
    rw [hup, Nat.shiftLeft_zero, Nat.shiftRight_eq_div_pow]

theorem Amount.toInt (h : Amount u a) (i j : ℤ) : u.toInt i j = (⌊a⌋₊ : ℤ) := by
  cases h with
  | zero s => rfl
  | positive hform => exact roundToInt_eq _ _

theorem pack_unpack (x : Float) : Float.Model.pack x.toModel.unpack = x.toModel := by
  obtain ⟨bits, hvalid⟩ := x.toModel
  unfold Float.Model.pack Float.Model.unpack
  simp only [pack_unpack_of_valid hvalid]

theorem Amount.abs (h : Amount x.toModel.unpack a) : Amount x.abs.toModel.unpack a := by
  have hmodel : x.abs.toModel = Float.Model.pack x.toModel.unpack.abs := rfl
  rw [hmodel]
  generalize hu : x.toModel.unpack = u at h ⊢
  cases h with
  | zero s =>
    have hzero : (UnpackedFloat.zero s).abs = .zero .positive := rfl
    rw [hzero, unpack_pack_zero]
    exact .zero _
  | positive hform =>
    change Amount (Float.Model.pack (.finite .positive _ _ _)).unpack _
    rw [← hu, pack_unpack, hu]
    exact .positive hform

theorem whole_toFloat {w : UInt64} (h : w.toNat < 2 ^ 53) :
    Whole w.toFloat.toModel.unpack w.toNat := by
  have hmodel : w.toFloat.toModel =
      Float.Model.pack (UnpackedFloat.ofNat Format.binary64 w.toNat) := rfl
  rw [hmodel]
  rcases Nat.eq_zero_or_pos w.toNat with hzero | hpos
  · rw [hzero]
    exact .zero .positive
  · obtain ⟨m, e, hm, hround, hlog, hlow, hhigh, hvalue⟩ := whole_round hpos h
    rw [hround, unpack_pack_finite _ hm hlog hlow hhigh]
    exact .positive hlog hlow hhigh hvalue

theorem Amount.toUInt64 (h : Amount x.toModel.unpack a) (ha : ⌊a⌋₊ < UInt64.size) :
    x.toUInt64.toNat = ⌊a⌋₊ := by
  have hmodel : x.toUInt64 =
      UInt64.ofNatClamp (x.toModel.unpack.toInt 0 (UInt64.size - 1)).toNat := rfl
  rw [hmodel, h.toInt, Int.toNat_natCast, UInt64.ofNatClamp, dif_pos ha]
  rfl

/-- Below the numbers that have no fraction, the integer part is taken by way of a word. -/
theorem Amount.truncate (h : Amount x.toModel.unpack a) (ha : a < 2 ^ 52) :
    Whole (Number.truncate x).toModel.unpack ⌊a⌋₊ := by
  have hlimit : Amount (4503599627370496 : Float).toModel.unpack (4503599627370496 : ℕ) :=
    amount_ofNat (by decide)
  have habs : x.abs < 4503599627370496 := (h.abs.lt_iff hlimit).mpr (by norm_num at ha ⊢; exact ha)
  have hsign : ¬ x < 0 := (h.lt_iff (amount_ofNat (n := 0) (by decide))).not.mpr (by
    simpa using h.nonneg)
  have hfloor : ⌊a⌋₊ < 2 ^ 52 := (Nat.floor_lt h.nonneg).mpr (by exact_mod_cast ha)
  have hword : x.abs.toUInt64.toNat = ⌊a⌋₊ := h.abs.toUInt64 (hfloor.trans (by decide))
  unfold Number.truncate
  rw [if_pos habs, if_neg hsign, ← hword]
  exact whole_toFloat (by omega)

theorem Amount.whole_zero (h : Amount u a) (ha : a = 0) : Whole u 0 := by
  cases h with
  | zero s => exact .zero s
  | @positive _ _ hm _ =>
    exact absurd ha (by positivity)

theorem Amount.beq_zero_iff (h : Amount x.toModel.unpack a) : (x == 0) = true ↔ a = 0 := by
  have hbeq : (x == 0) = (x.toModel.unpack.compare (.zero .positive) == some .eq) := rfl
  rw [hbeq, h.compare (.zero .positive), beq_iff_eq, Option.some_inj, compare_eq_iff_eq]

theorem Amount.floor (h : Amount x.toModel.unpack a) (ha : a < 2 ^ 52) :
    Whole (Number.floor x).toModel.unpack ⌊a⌋₊ := by
  have htruncate := h.truncate ha
  unfold Number.floor
  split
  case isTrue hzero =>
    have ha0 := h.beq_zero_iff.mp hzero
    rw [ha0, Nat.floor_zero]
    exact h.whole_zero ha0
  case isFalse =>
    have hle : ¬ x < Number.truncate x :=
      (h.lt_iff htruncate.amount).not.mpr (not_lt.mpr (Nat.floor_le h.nonneg))
    dsimp only
    rw [if_neg hle]
    exact htruncate

theorem isWhole_iff_cast : Exact.isWhole m e = true ↔ ∃ w : ℕ, (m * 2 ^ e : ℚ) = w := by
  rw [Exact.isWhole_iff]
  constructor
  · rintro ⟨w, hw⟩
    exact ⟨w, cast_of_value hw⟩
  · rintro ⟨w, hw⟩
    refine ⟨w, ?_⟩
    rw [zpow_eq_div, ← mul_div_assoc, div_eq_iff (by positivity)] at hw
    exact_mod_cast hw.symm

theorem ite_floor_eq_ceil (m : ℕ) (e : ℤ) :
    (if Exact.isWhole m e = true then ⌊(m * 2 ^ e : ℚ)⌋₊ else ⌊(m * 2 ^ e : ℚ)⌋₊ + 1) =
      ⌈(m * 2 ^ e : ℚ)⌉₊ := by
  split
  case isTrue hwhole =>
    obtain ⟨w, hw⟩ := isWhole_iff_cast.mp hwhole
    rw [hw, Nat.floor_natCast, Nat.ceil_natCast]
  case isFalse hpart =>
    have hne : (m * 2 ^ e : ℚ) ≠ ⌊(m * 2 ^ e : ℚ)⌋₊ := fun h => hpart (isWhole_iff_cast.mpr ⟨_, h⟩)
    have hle : (⌊(m * 2 ^ e : ℚ)⌋₊ : ℚ) ≤ m * 2 ^ e := Nat.floor_le (by positivity)
    rw [eq_comm, Nat.ceil_eq_iff (Nat.succ_ne_zero _), Nat.succ_sub_one]
    exact ⟨lt_of_le_of_ne hle hne.symm, by exact_mod_cast (Nat.lt_floor_add_one _).le⟩

/-- A number is as far up as there are natural numbers below it. -/
theorem Amount.naturalsBelow (h : Amount x.toModel.unpack a) : Number.naturalsBelow x = ⌈a⌉₊ := by
  unfold Number.naturalsBelow
  rw [Exact.ofFloat_eq]
  generalize x.toModel.unpack = u at h
  cases h with
  | zero s => cases s <;> simp [Exact.ofUnpacked, Exact.isNegative, Exact.isWhole, Exact.wholePart]
  | @positive m e hm hform =>
    simp only [Exact.ofUnpacked, Exact.isNegative, wholePart_eq_floor]
    exact ite_floor_eq_ceil m e

end Number

end Chip8
