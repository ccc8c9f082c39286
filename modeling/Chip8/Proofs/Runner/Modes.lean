import Chip8.Proofs.Runner.Halts

/-! Frames under the two modes for faults: alike up to a fault, which one of them records and the other
raises. -/
namespace Chip8

namespace Runner

open Machine

variable {r : Runner} {f : Frame} {e : Fault} {n : ℕ}

/-- The runner, but faults are raised. -/
def raising (r : Runner) : Runner :=
  { r with mode := .raise }

theorem traceBehind_raising (r : Runner) : r.raising.traceBehind = r.traceBehind := by
  have htraced (q : Runner) : q.raising.traced.trace = q.traced.trace := by
    unfold traced
    change (if q.traceDue then _ else _ : Runner).trace = _
    split <;> rfl
  unfold traceBehind
  change (if _ then _ else (r.stepped r.trace).raising.traced.trace) = _
  rw [htraced]
  rfl

/-- Where a fault is recorded, it is raised. -/
theorem steps_raising (hr : r.mode = .record) (hl : r.lastFault? = none) (n : ℕ) :
    steps n r.raising =
      (((steps n r).2.lastFault?.map Failure.fault).or (steps n r).1, (steps n r).2.raising) := by
  induction n generalizing r with
  | zero => simp [steps, hl]
  | succ n ih =>
    cases hf : failureAt r.state 1 with
    | some failure =>
      rw [steps_succ_of_some hf, steps_succ_of_some (r := r.raising) hf]
      have hmode : r.raising.mode = .raise := rfl
      have hlast : r.raising.lastFault? = none := hl
      rw [hr, hl, hmode, hlast, Option.or_none]
      cases failure <;> rfl
    | none =>
      have hstepped : r.raising.stepped r.raising.traceBehind =
          (r.stepped r.traceBehind).raising := by
        rw [traceBehind_raising]
        rfl
      rw [steps_succ_of_none hf, steps_succ_of_none (r := r.raising) hf, hstepped]
      change (if (r.stepped r.traceBehind).machine.isAwaitingKey then _ else _) = _
      split
      · simp [stepped, hl]
      · exact ih (r := r.stepped r.traceBehind) hr hl

theorem work_raising (hr : r.mode = .record) (hh : r.machine.isHalted = false) :
    r.raising.work =
      ((r.work.2.lastFault?.map Failure.fault).or r.work.1, r.work.2.raising) := by
  have hbegun : r.raising.begun = r.begun.raising := rfl
  have hlast : r.begun.lastFault? = none := by simp [begun, hh]
  rw [work_eq_steps hh, work_eq_steps (r := r.raising) hh, hbegun]
  exact steps_raising (r := r.begun) hr hlast _

theorem frame_raising_of_none (hr : r.mode = .record) (hh : r.machine.isHalted = false)
    (h : r.frame.1 = .ok f) (hf : f.fault? = none) :
    r.raising.frame = (.ok f, r.frame.2.raising) := by
  cases hwork : r.work.1 with
  | some failure => simp [frame_of_work_some hwork] at h
  | none =>
    rw [fault?_of_frame h] at hf
    have hraising := work_raising hr hh
    rw [hf, hwork] at hraising
    rw [frame_of_work_none hwork] at h ⊢
    rw [frame_of_work_none (congrArg Prod.fst hraising), hraising, ← h]
    rfl

theorem frame_raising_of_some (hr : r.mode = .record) (hh : r.machine.isHalted = false)
    (h : r.frame.1 = .ok f) (hf : f.fault? = some e) :
    r.raising.frame.1 = .error (.fault e) := by
  rw [fault?_of_frame h] at hf
  have hraising := work_raising hr hh
  rw [hf] at hraising
  rw [frame_of_work_some (congrArg Prod.fst hraising)]

theorem not_halted_of_frame (hh : r.machine.isHalted = false) (h : r.frame.1 = .ok f)
    (hf : f.fault? = none) : r.frame.2.machine.isHalted = false := by
  have hhalt : r.frame.2.machine.haltFault? = none := by
    rw [← recorded_frame hh, (frame_keeps r).2, ← fault?_of_frame h, hf]
  cases hhalted : r.frame.2.machine.isHalted with
  | false => rfl
  | true =>
    obtain ⟨e, he⟩ := exists_of_isHalted hhalted
    rw [haltFault?_eq_some_iff.mpr he] at hhalt
    cases hhalt

/-- An instruction that is refused first ends the steps of a frame. The frame tells of its fault, and
the timers go on. -/
theorem frame_of_fault {i : Instruction ℕ} (hb : r.budget = some (n + 1)) (hr : r.mode = .record)
    (hm : r.machine.run = .running) (hi : r.machine.Reads i) (hf : r.machine.fault? i = some e) :
    ∃ f, r.frame.1 = .ok f ∧ f.fault? = some e ∧
      r.frame.2.machine.timers = r.machine.timers.tick := by
  have hh : r.machine.isHalted = false := by simp [isHalted, hm]
  have hstep := step_of_fault? (s := r.source) hm hi hf
  have hbegun : failureAt r.begun.state 1 = some (.fault e) := congrArg Outcome.failure? hstep
  have hmode : r.begun.mode = .record := hr
  have hwork := work_of_not_halted hb hh
  rw [steps_succ_of_some hbegun, hmode] at hwork
  have hmachine : r.work.2.machine = (r.machine.fetched r.machine.opcode).halt e := by
    rw [hwork]
    exact congrArg Outcome.machine hstep
  have hframe := frame_of_work_none (congrArg Prod.fst hwork)
  refine ⟨_, congrArg Prod.fst hframe, ?_, ?_⟩
  · rw [fault?_of_frame (congrArg Prod.fst hframe), hwork]
    rfl
  · rw [hframe]
    change r.work.2.machine.timers.tick = _
    rw [hmachine]
    rfl

end Runner

end Chip8
