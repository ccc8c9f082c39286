import Chip8.Proofs.Machine.Sprites
import Chip8.Proofs.Runner.Interference
import Chip8.Proofs.Runner.Screen

/-! What the mark of a frame says of the instructions that the frame completed. -/
namespace Chip8

namespace Machine

/-- A step marks the screen exactly if it completes an instruction that does. -/
theorem dirty_next (p : Machine × Source) :
    (next p).1.display.dirty = true ↔
      p.1.display.dirty = true ∨ completes p = true ∧ p.1.Redraws := by
  obtain ⟨m, s⟩ := p
  have hcompletes : completes (m, s) = (!m.isAwaitingKey && (m.step s).failure?.isNone) := rfl
  rw [hcompletes]
  simp only [next]
  generalize ho : m.step s = o
  have hstepped := stepped_step m s
  rw [ho] at hstepped
  cases hstepped with
  | refused => simp
  | @polled register hr =>
    have hawait : m.isAwaitingKey = true := by simp [isAwaitingKey, hr]
    rcases pollKey_cases m register with hp | ⟨_, _, hp⟩ <;> simp [hp, hawait]
  | beyond => simp [halt]
  | unknown => simp [halt, fetched]
  | faulted => simp [halt, fetched]
  | @unrolled _ e => cases e <;> simp [settle, halt, fetched]
  | @completed i roll _ hr hi =>
    have hawait : m.isAwaitingKey = false := by simp [isAwaitingKey, hr]
    simp only [hawait, Bool.not_false, Option.isNone_none, Bool.and_self, true_and]
    exact dirty_apply (m := m.fetched m.opcode) hi roll

end Machine

namespace Runner

open Machine

variable {r : Runner} {f : Frame}

theorem stepwise_dirty : Stepwise fun r xs q =>
    q.machine.display.dirty = true ↔
      r.machine.display.dirty = true ∨ ∃ p ∈ xs, completes p = true ∧ p.1.Redraws where
  nil r := by simp
  failed {r _} _ := by
    simp only [List.mem_singleton, exists_eq_left]
    exact dirty_next r.state
  cons {r q xs} _ h := by
    have hstep : (r.stepped r.traceBehind).machine.display.dirty = true ↔ _ := dirty_next r.state
    rw [h, hstep]
    simp only [List.mem_cons, exists_eq_or_imp, or_assoc]
    rfl
  begun h := h

/-- A frame that begins without a mark is marked exactly if some instruction that it completed
cleared the screen or drew a sprite that is not blank. Otherwise it shows what was on the screen
before. A frame and a reset leave no mark behind them. -/
theorem displayChanged_iff (hd : r.machine.display.dirty = false) (hf : r.frame.1 = .ok f) :
    (f.displayChanged = true ↔ ∃ p ∈ r.frameStarts, completes p = true ∧ p.1.Redraws) ∧
      (f.displayChanged = false → f.pixels = r.machine.display.pixels) ∧
      r.frame.2.machine.display.dirty = false ∧ r.machine.reset.display.dirty = false := by
  obtain ⟨hpixels, hmark, hdisplay⟩ := frame_ok hf
  refine ⟨?_, ?_, ?_, rfl⟩
  · rw [hmark, stepwise_dirty.work r, hd]
    simp
  · intro hunmarked
    rcases noted_work r with hdirty | hsame
    · rw [hmark, hdirty] at hunmarked
      exact absurd hunmarked.symm Bool.false_ne_true
    · rw [hpixels, hsame]
  · rw [hdisplay]

/-- A frame of one step that clears a screen on which nothing is lit. -/
def blanking : Runner :=
  make (powerOn .standard (some ⟨#[0x00, 0xe0], "blank", by decide, by decide⟩)) (.seeded 0)
    (some 1) .record 0 false

theorem displayChanged_iff_blanking :
    blanking.machine.display.dirty = false ∧
      ∃ f, blanking.frame.1 = .ok f ∧ f.displayChanged = true ∧
        blanking.frame.2.machine.display.dirty = false := by
  have hreads : blanking.machine.Reads .clear := reads_of_image rfl rfl trivial (by decide)
  have hcompletes : completes blanking.state = true := completes_of_rolled rfl hreads rfl rfl
  have hhalted : blanking.machine.isHalted = false := rfl
  have hwork := work_of_one rfl hhalted (completes_iff.mp hcompletes).2
  have hframe := frame_of_work_none (congrArg Prod.fst hwork)
  have hstarts : blanking.state ∈ blanking.frameStarts := by
    rw [frameStarts_of_one rfl hhalted]
    exact List.mem_singleton_self _
  obtain ⟨hchanged, _, hleft, _⟩ := displayChanged_iff (r := blanking) rfl (congrArg Prod.fst hframe)
  exact ⟨rfl, _, congrArg Prod.fst hframe, hchanged.mpr ⟨_, hstarts, hcompletes, .inl hreads⟩, hleft⟩

end Runner

end Chip8
