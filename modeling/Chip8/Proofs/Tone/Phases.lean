import Chip8.Proofs.Number.Narrowing
import Chip8.Proofs.Number.Sums
import Chip8.Proofs.Tone.Levels
import Chip8.Tone

/-! The samples of a wave by its phases, and by how far its levels are from the volume. -/
namespace Chip8

namespace Sample

variable {x : Float} {a : ℚ} {g : ℝ}

/-- A volume and its opposite become two opposite levels, which are close to them. -/
theorem value?_ofFloat (h : Number.Amount x.toModel.unpack a) (ha : a ≤ 1) :
    ∃ g : ℝ, 0 ≤ g ∧ g ≤ 1 ∧ |g - a| ≤ 1 / 2 ^ 24 ∧ value? (Single.ofFloat x) = some (g : EReal) ∧
      value? (Single.ofFloat (-x)) = some ((-g : ℝ) : EReal) := by
  obtain ⟨negative, m, e, hone, hclose, hzero, hpositive, hnegative⟩ := h.narrow ha
  have hone' : ((m * 2 ^ e : ℚ) : ℝ) ≤ (1 : ℚ) := Rat.cast_le.mpr hone
  have hclose' : ((|m * 2 ^ e - a| : ℚ) : ℝ) ≤ (1 / 2 ^ 24 : ℚ) := Rat.cast_le.mpr hclose
  push_cast at hone' hclose'
  refine ⟨m * 2 ^ e, by positivity, hone', hclose', ?_, ?_⟩
  · unfold value?
    rw [hpositive, Exact.value?]
    cases negative with
    | false => rfl
    | true => simp [hzero]
  · unfold value?
    rw [hnegative, Exact.value?]
    cases negative with
    | false => rfl
    | true => simp [hzero]

theorem toPcm_of_coe {s : Sample} (h : s.value? = some (g : EReal)) (hlow : -1 ≤ g) (hhigh : g ≤ 1) :
    s.toPcm = ⌊32767 * g + 1 / 2⌋ := by
  rw [toPcm_eq h, clamp_coe, min_eq_right hhigh, max_eq_right hlow]

end Sample

namespace Tone

variable {t : Tone} {n : ℕ} {d p : ℚ} {frequency sampleRate volume : Float}

/-- The phases of a square wave, one for each sample, and its peak. A phase is what is left of the
rounded sum of the one before it and the step when the integer part is taken away. The peak is the
volume as a 32-bit number. -/
structure Square (frequency sampleRate volume : Float) (phase : ℕ → Float) (peak : ℝ) : Prop where
  start : phase 0 = 0
  next : ∀ n, ∃ a, Number.Amount (phase n + frequency / sampleRate).toModel.unpack a ∧
    Number.Amount (phase (n + 1)).toModel.unpack (Int.fract a)
  peak_eq : Sample.value? (Single.ofFloat volume) = some (peak : EReal)
  peak_close : ∃ a, Number.Amount volume.toModel.unpack a ∧ |peak - a| ≤ 1 / 2 ^ 24

theorem increment_iterate (t : Tone) (n : ℕ) : (next^[n] t).increment = t.increment := by
  induction n generalizing t with
  | zero => rfl
  | succ n ih => exact ih t.next

theorem volume_iterate (t : Tone) (n : ℕ) : (next^[n] t).volume = t.volume := by
  induction n generalizing t with
  | zero => rfl
  | succ n ih => exact ih t.next

/-- Each phase is a fraction again. -/
theorem next_phase (hp : Number.Amount t.phase.toModel.unpack p) (hp' : p < 1)
    (hd : Number.Amount t.increment.toModel.unpack d) (hlow : 1 / 2 ^ 200 ≤ d)
    (hhigh : d ≤ 2 ^ 50) :
    ∃ a, Number.Amount (t.phase + t.increment).toModel.unpack a ∧
      Number.Amount t.next.phase.toModel.unpack (Int.fract a) := by
  have hsum : p + d ≤ 2 ^ 200 := by linarith [show (1 + 2 ^ 50 : ℚ) ≤ 2 ^ 200 by norm_num]
  obtain ⟨a, ha, -, hle⟩ := (Number.rounds_add hp hd hlow hsum).bounds
  have hsmall : a < 2 ^ 52 := by linarith
  exact ⟨a, ha, ha.fraction hsmall⟩

theorem phase_iterate (hp : t.phase = 0) (hd : Number.Amount t.increment.toModel.unpack d)
    (hlow : 1 / 2 ^ 200 ≤ d) (hhigh : d ≤ 2 ^ 50) (n : ℕ) :
    ∃ p, Number.Amount (next^[n] t).phase.toModel.unpack p ∧ p < 1 := by
  induction n with
  | zero =>
    have hzero : Number.Amount (0 : Float).toModel.unpack (0 : ℕ) :=
      Number.amount_ofNat (n := 0) (by decide)
    refine ⟨(0 : ℕ), ?_, by norm_num⟩
    rw [Function.iterate_zero_apply, hp]
    exact hzero
  | succ n ih =>
    obtain ⟨p, hp, hp'⟩ := ih
    rw [← increment_iterate t n] at hd
    obtain ⟨a, -, hnext⟩ := next_phase hp hp' hd hlow hhigh
    rw [Function.iterate_succ_apply']
    exact ⟨_, hnext, Int.fract_lt_one a⟩

/-- A wave is high while its phase is below a half, and low from there on. -/
theorem toPcm_sample {peak : ℝ} (hhigh : Sample.value? t.high = some (peak : EReal))
    (hlow : Sample.value? t.low = some ((-peak : ℝ) : EReal)) (h₀ : 0 ≤ peak) (h₁ : peak ≤ 1) :
    t.sample.toPcm = ⌊32767 * (if t.phase < 0.5 then peak else -peak) + 1 / 2⌋ := by
  unfold sample
  split
  · exact Sample.toPcm_of_coe hhigh (by linarith) h₁
  · exact Sample.toPcm_of_coe hlow (by linarith) (by linarith)

/-- The samples of a wave are those of its phases. -/
theorem square_wave {b : ℚ} (hp : t.phase = 0)
    (hd : Number.Amount (t.frequency / t.sampleRate).toModel.unpack d) (hlow : 1 / 2 ^ 200 ≤ d)
    (hhigh : d ≤ 2 ^ 50) (hv : Number.Amount t.volume.toModel.unpack b) (hb : b ≤ 1) :
    ∃ phase peak, Square t.frequency t.sampleRate t.volume phase peak ∧ ∀ n,
      (next^[n] t).sample.toPcm = ⌊32767 * (if phase n < 0.5 then peak else -peak) + 1 / 2⌋ := by
  obtain ⟨peak, h₀, h₁, hclose, hvalue, hopposite⟩ := Sample.value?_ofFloat hv hb
  refine ⟨fun n => (next^[n] t).phase, peak, ⟨hp, fun n => ?_, hvalue, b, hv, hclose⟩, fun n => ?_⟩
  · obtain ⟨p, hphase, hone⟩ := phase_iterate hp hd hlow hhigh n
    have hd' : Number.Amount (next^[n] t).increment.toModel.unpack d := by
      rwa [increment_iterate]
    obtain ⟨a, hsum, hnext⟩ := next_phase hphase hone hd' hlow hhigh
    rw [increment_iterate] at hsum
    rw [← Function.iterate_succ_apply' next] at hnext
    exact ⟨a, hsum, hnext⟩
  · apply toPcm_sample _ _ h₀ h₁
    · rwa [high, volume_iterate]
    · rwa [low, volume_iterate]

end Tone

end Chip8
