import Chip8.Proofs.Machine.Bounds
import Chip8.Proofs.Runner.Operations

/-! What holds of every machine that a run from power-on reaches. -/
namespace Chip8

namespace Machine

theorem enduring_sound : Enduring Sound where
  step s h := (stepped_step _ s).sound h
  withKeypad _ h := sound_of_eq h rfl rfl rfl
  withTimers _ h := sound_of_eq h rfl rfl rfl
  withDisplay _ h := sound_of_eq h rfl rfl rfl
  reset _ := by
    rw [reset_eq_powerOn]
    exact sound_powerOn _ _
  insert _ _ := by
    rw [insert_eq_powerOn]
    exact sound_powerOn _ _

end Machine

namespace Runner

open Machine

/-- From power-on, whatever the program, the dialect and the random numbers, and whatever is done:
any state after any number of further steps, and so any state in which a frame takes a step, keeps
to the bounds, and the step from there cuts no address. -/
theorem inBounds_uncut_run (dialect : Dialect) (cartridge : Option Cartridge) (source : Source)
    (budget : Option ℕ) (mode : FaultMode) (traceEvery : ℤ) (tracing : Bool)
    (ops : List Operation) (j : ℕ) :
    let r := make (powerOn dialect cartridge) source budget mode traceEvery tracing
    let p := next^[j] (r.run ops).state
    InBounds p.1 ∧ Uncut p.1 p.2 := by
  intro r p
  have hstart : Sound r.machine := sound_powerOn dialect cartridge
  have hops : Sound (r.run ops).machine := enduring_run enduring_sound hstart ops
  have hp : Sound p.1 := enduring_sound.iterate (p := (r.run ops).state) hops j
  exact ⟨hp.inBounds, hp.uncut p.2⟩

end Runner

end Chip8
