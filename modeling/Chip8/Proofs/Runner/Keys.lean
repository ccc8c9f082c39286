import Chip8.Proofs.Runner.Frames

/-! A program has no way to the keys that are down. -/
namespace Chip8

namespace Machine

variable {m : Machine} {s : Source}

theorem held_step (m : Machine) (s : Source) :
    (m.step s).machine.keypad.held = m.keypad.held := by
  generalize ho : m.step s = o
  have hstepped := stepped_step m s
  rw [ho] at hstepped
  cases hstepped with
  | refused => rfl
  | @polled register =>
    rcases pollKey_eq m register with ⟨_, hp⟩ | ⟨_, _, hp⟩ <;> rw [hp]
    rfl
  | beyond => rfl
  | unknown => rfl
  | faulted => rfl
  | @unrolled _ e => cases e <;> rfl
  | @completed i roll => exact held_apply (m.fetched m.opcode) i roll

theorem held_iterate (p : Machine × Source) (j : ℕ) :
    (next^[j] p).1.keypad.held = p.1.keypad.held := by
  induction j with
  | zero => rfl
  | succ j ih =>
    rw [Function.iterate_succ_apply', ← ih]
    exact held_step _ _

end Machine

namespace Runner

open Machine

theorem held_frame (r : Runner) : r.frame.2.machine.keypad.held = r.machine.keypad.held := by
  obtain ⟨j, hj⟩ := work_state r
  have hwork : r.work.2.machine.keypad.held = r.machine.keypad.held := by
    have hmachine : r.work.2.machine = (next^[j] r.state).1 := congrArg Prod.fst hj
    rw [hmachine]
    exact held_iterate r.state j
  cases hend : r.work.1 with
  | some e => rwa [frame_of_work_some hend]
  | none => rwa [frame_of_work_none hend]

end Runner

end Chip8
