import Chip8.Command.Recording
import Chip8.Proofs.Runner.Countdown
import Chip8.Proofs.Runner.Modes
import Chip8.Proofs.Tone.Continuity

/-! The samples that are recorded of some frames: one wave, cut where no tone is on, up to the first
frame with a fault. -/
namespace Chip8

namespace Tone

variable {n i : ℕ}

theorem play_levels (n : ℕ) (t : Tone) :
    (play n t #[]).1.size = n ∧ (play n t #[]).2 = next^[n] t ∧
      ∀ i < n, (play n t #[]).1[i]? = some (next^[i] t).sample := by
  induction n generalizing t with
  | zero => exact ⟨rfl, rfl, by simp⟩
  | succ n ih =>
    obtain ⟨hsize, hnext, hsamples⟩ := ih t.next
    rw [play_succ, play_eq_append]
    refine ⟨?_, hnext, ?_⟩
    · rw [Array.size_append, hsize]
      exact Nat.add_comm 1 n
    · intro i hi
      cases i with
      | zero => simp
      | succ i =>
        rw [Function.iterate_succ_apply, ← hsamples i (by omega)]
        simp [Array.getElem?_append]

end Tone

namespace Runner

variable {r : Runner} {f : Frame} {n : ℕ}

/-- The runner behind so many frames. -/
def afterFrames (r : Runner) (n : ℕ) : Runner :=
  (fun q => q.frame.2)^[n] r

/-- The frame behind so many others, unless it fails. -/
def frameAt? (r : Runner) (n : ℕ) : Option Frame :=
  (r.afterFrames n).frame.1.toOption

/-- A frame is recorded with a tone: none before it had a fault, and it has a tone. -/
def Heard (r : Runner) (n : ℕ) : Prop :=
  (∀ j < n, (r.frameAt? j).all (·.fault?.isNone)) ∧ (r.frameAt? n).any (·.soundActive)

instance (r : Runner) : DecidablePred r.Heard :=
  fun _ => inferInstanceAs (Decidable (_ ∧ _))

theorem frameAt?_zero (h : r.frame.1 = .ok f) : r.frameAt? 0 = some f := by
  change r.frame.1.toOption = _
  rw [h]
  rfl

theorem frameAt?_succ (r : Runner) (n : ℕ) : r.frameAt? (n + 1) = r.frame.2.frameAt? n :=
  rfl

/-- Where faults are recorded, there is a frame behind any number of others. -/
theorem Unfailing.frameAt? (h : r.Unfailing) (n : ℕ) : ∃ f, r.frameAt? n = some f := by
  induction n generalizing r with
  | zero =>
    obtain ⟨f, hf⟩ := h.frame_ok
    exact ⟨f, frameAt?_zero hf⟩
  | succ n ih => exact ih h.frame

theorem heard_zero_iff (h : r.frame.1 = .ok f) : r.Heard 0 ↔ f.soundActive = true := by
  simp [Heard, frameAt?_zero h]

theorem heard_succ_iff (h : r.frame.1 = .ok f) :
    r.Heard (n + 1) ↔ f.fault? = none ∧ r.frame.2.Heard n := by
  simp only [Heard, frameAt?_succ, Nat.forall_lt_succ_left, frameAt?_zero h, Option.all_some,
    Option.isNone_iff_eq_none, and_assoc]

end Runner

namespace Command.Recording

variable {r : Runner} {t : Tone} {f : Frame} {perFrame i n : ℕ} {rec : Recording}

/-- What is recorded of a machine with a wave as its tone: silence where no tone is heard, and
elsewhere the wave, as far on as there were samples of it before. -/
def soundAt (r : Runner) (t : Tone) (perFrame i : ℕ) : Sample :=
  if r.Heard (i / perFrame) then
    (Tone.next^[Nat.count (fun j => r.Heard (j / perFrame)) i] t).sample
  else 0

/-- In the first frame there is a tone all the way, or none. -/
theorem count_first (h : r.frame.1 = .ok f) (hi : i ≤ perFrame) :
    Nat.count (fun j => r.Heard (j / perFrame)) i = if f.soundActive then i else 0 := by
  have hfirst (j : ℕ) (hj : j < i) : r.Heard (j / perFrame) ↔ f.soundActive = true := by
    rw [Nat.div_eq_of_lt (hj.trans_le hi), Runner.heard_zero_iff h]
  split
  case isTrue hs => exact Nat.count_of_forall fun j hj => (hfirst j hj).mpr hs
  case isFalse hs => exact Nat.count_of_forall_not fun j hj => (hfirst j hj).not.mpr hs

theorem soundAt_first (h : r.frame.1 = .ok f) (hi : i < perFrame) :
    soundAt r t perFrame i = if f.soundActive then (Tone.next^[i] t).sample else 0 := by
  rw [soundAt, Nat.div_eq_of_lt hi, count_first h hi.le]
  simp only [Runner.heard_zero_iff h]
  split <;> rfl

theorem soundAt_behind (h : r.frame.1 = .ok f) (hf : f.fault? = none) (hp : 0 < perFrame) (i : ℕ) :
    soundAt r t perFrame (perFrame + i) =
      soundAt r.frame.2 (if f.soundActive then Tone.next^[perFrame] t else t) perFrame i := by
  have hheard (j : ℕ) : r.Heard ((perFrame + j) / perFrame) ↔ r.frame.2.Heard (j / perFrame) := by
    rw [Nat.add_div_left j hp, Runner.heard_succ_iff h, and_iff_right hf]
  unfold soundAt
  simp only [Nat.count_add, hheard, count_first h le_rfl]
  congr 2
  rw [Nat.add_comm, Function.iterate_add_apply]
  split <;> rfl

theorem soundAt_behind_fault (h : r.frame.1 = .ok f) (hf : f.fault? ≠ none) (hp : 0 < perFrame)
    (i : ℕ) : soundAt r t perFrame (perFrame + i) = 0 := by
  rw [soundAt, if_neg]
  rw [Nat.add_div_left i hp, Runner.heard_succ_iff h]
  exact fun hheard => hf hheard.1

/-- How a frame ends a recording, or lets it go on. -/
def endOf (f : Frame) : RecordingEnd :=
  match f.fault? with
  | some e => .stopped f.number e
  | none => .complete

/-- A frame puts its samples behind those that are there, also if it has a fault. -/
theorem addFrame_of_ok (h : rec.runner.frame.1 = .ok f) (perFrame : ℕ) :
    ∃ samples : Array Sample, samples.size = perFrame ∧
      (∀ i < perFrame, samples[i]? = some (soundAt rec.runner rec.tone perFrame i)) ∧
      rec.addFrame perFrame = (endOf f,
        { runner := rec.runner.frame.2
          tone := if f.soundActive then Tone.next^[perFrame] rec.tone else rec.tone
          samples := rec.samples ++ samples
          activeFrames := rec.activeFrames + if f.soundActive then 1 else 0 }) := by
  have hframe : rec.runner.frame = (.ok f, rec.runner.frame.2) := Prod.ext h rfl
  obtain ⟨hsize, hnext, hlevels⟩ := Tone.play_levels perFrame rec.tone
  unfold addFrame
  rw [hframe]
  cases hs : f.soundActive with
  | true =>
    refine ⟨(rec.tone.play perFrame #[]).1, hsize, fun i hi => ?_, ?_⟩
    · rw [hlevels i hi, soundAt_first h hi, hs]
      rfl
    · rw [← hnext, endOf]
      simp only [if_true, Tone.play_eq_append perFrame rec.tone rec.samples, hs]
      cases f.fault? <;> rfl
  | false =>
    refine ⟨Array.replicate perFrame 0, Array.size_replicate, fun i hi => ?_, ?_⟩
    · rw [soundAt_first h hi, hs, Array.getElem?_replicate, if_pos hi]
      rfl
    · rw [endOf]
      cases hf : f.fault? <;> simp [hs, hf]

/-- A recording in which every frame is handed out: its samples, and silence behind a fault. -/
theorem addFrames_recorded (hr : rec.runner.Unfailing) (hp : 0 < perFrame) (n : ℕ) :
    (∀ e, (addFrames perFrame n rec).1 ≠ .raised e) ∧
      ∃ samples : Array Sample, (addFrames perFrame n rec).2.samples = rec.samples ++ samples ∧
        samples.size ≤ n * perFrame ∧
        ∀ i < n * perFrame, samples[i]?.getD 0 = soundAt rec.runner rec.tone perFrame i := by
  induction n generalizing rec with
  | zero => exact ⟨by simp [addFrames], #[], by simp [addFrames], by simp, by simp⟩
  | succ n ih =>
    obtain ⟨f, h⟩ := hr.frame_ok
    obtain ⟨first, hsize, hfirst, hframe⟩ := addFrame_of_ok h perFrame
    rw [addFrames, hframe, endOf]
    cases hf : f.fault? with
    | some e =>
      refine ⟨by simp, first, rfl, ?_, fun i hi => ?_⟩
      · rw [hsize, Nat.succ_mul]
        omega
      · rcases Nat.lt_or_ge i perFrame with hlt | hge
        · rw [hfirst i hlt, Option.getD_some]
        · obtain ⟨i, rfl⟩ := Nat.exists_eq_add_of_le hge
          rw [Array.getElem?_eq_none (by omega), Option.getD_none,
            soundAt_behind_fault h (by simp [hf]) hp]
    | none =>
      obtain ⟨hends, rest, hsamples, hrest, hlevels⟩ := @ih ⟨rec.runner.frame.2,
        if f.soundActive then Tone.next^[perFrame] rec.tone else rec.tone, rec.samples ++ first,
        rec.activeFrames + if f.soundActive then 1 else 0⟩ hr.frame
      refine ⟨hends, first ++ rest, ?_, ?_, fun i hi => ?_⟩
      · rw [← Array.append_assoc]
        exact hsamples
      · rw [Array.size_append, hsize, Nat.succ_mul]
        omega
      · rw [Nat.succ_mul] at hi
        rcases Nat.lt_or_ge i perFrame with hlt | hge
        · rw [Array.getElem?_append_left (by omega), hfirst i hlt, Option.getD_some]
        · obtain ⟨i, rfl⟩ := Nat.exists_eq_add_of_le hge
          rw [Array.getElem?_append_right (by omega), hsize, Nat.add_sub_cancel_left,
            hlevels i (by omega), soundAt_behind h hf hp]

/-- The samples of a recording that was made to its full length. -/
theorem getElem?_padded (hr : rec.runner.Unfailing) (hp : 0 < perFrame) (hs : rec.samples = #[])
    (n : ℕ) :
    let done := (addFrames perFrame n rec).2.padded (n * perFrame)
    done.size = n * perFrame ∧
      ∀ i < n * perFrame, done[i]? = some (soundAt rec.runner rec.tone perFrame i) := by
  intro done
  obtain ⟨_, samples, hsamples, hsize, hlevels⟩ := addFrames_recorded hr hp n
  rw [hs, Array.empty_append] at hsamples
  have hdone : done = samples ++ Array.replicate (n * perFrame - samples.size) 0 := by
    simp only [done, padded, hsamples]
  rw [hdone]
  refine ⟨?_, fun i hi => ?_⟩
  · rw [Array.size_append, Array.size_replicate]
    omega
  · rw [← hlevels i hi, Array.getElem?_append]
    split
    case isTrue hlt => simp [hlt]
    case isFalse hge =>
      rw [Array.getElem?_replicate, if_pos (by omega), Array.getElem?_eq_none (by omega)]
      rfl

/-- The recording, but faults are raised. -/
def raising (rec : Recording) : Recording :=
  { rec with runner := rec.runner.raising }

/-- Without a fault, a frame is recorded in the same way if faults are raised. -/
theorem addFrame_raising (hr : rec.runner.mode = .record)
    (hh : rec.runner.machine.isHalted = false) (h : rec.runner.frame.1 = .ok f)
    (hf : f.fault? = none) :
    rec.raising.addFrame perFrame = (.complete, (rec.addFrame perFrame).2.raising) := by
  have hframe : rec.runner.frame = (.ok f, rec.runner.frame.2) := Prod.ext h rfl
  unfold addFrame raising
  dsimp only
  rw [Runner.frame_raising_of_none hr hh h hf, hframe]
  simp only [hf]

/-- A fault that would be recorded in one of the frames ends a recording that raises it. -/
theorem addFrames_raising (hr : rec.runner.Unfailing) (hh : rec.runner.machine.isHalted = false)
    (hf : ∃ j < n, ∃ f, rec.runner.frameAt? j = some f ∧ f.fault? ≠ none) :
    ∃ e, (rec.raising.addFrames perFrame n).1 = .raised e := by
  induction n generalizing rec with
  | zero =>
    obtain ⟨j, hj, _⟩ := hf
    omega
  | succ n ih =>
    obtain ⟨f, h⟩ := hr.frame_ok
    rw [addFrames]
    cases hfault : f.fault? with
    | some e =>
      have hraised := Runner.frame_raising_of_some hr.mode hh h hfault
      have hframe : rec.runner.raising.frame = (.error (.fault e), rec.runner.raising.frame.2) :=
        Prod.ext hraised rfl
      refine ⟨.fault e, ?_⟩
      unfold addFrame raising
      dsimp only
      rw [hframe]
    | none =>
      rw [addFrame_raising hr.mode hh h hfault]
      obtain ⟨samples, _, _, hframe⟩ := addFrame_of_ok h perFrame
      have hrunner : (rec.addFrame perFrame).2.runner = rec.runner.frame.2 := by rw [hframe]
      apply ih
      · rw [hrunner]
        exact hr.frame
      · rw [hrunner]
        exact Runner.not_halted_of_frame hh h hfault
      · obtain ⟨j, hj, g, hg, hgf⟩ := hf
        cases j with
        | zero =>
          rw [Runner.frameAt?_zero h, Option.some.injEq] at hg
          exact absurd hfault (hg ▸ hgf)
        | succ j =>
          rw [hrunner]
          exact ⟨j, by omega, g, hg, hgf⟩

end Command.Recording

end Chip8
