import Chip8.Proofs.Runner.Deeds

/-! A reset, and a cartridge put in, undo all that was done before. -/
namespace Chip8

namespace Machine

variable {m : Machine} {s : Source} {o : Outcome}

/-- A program has no way to its dialect and its cartridge. -/
theorem Stepped.fixed (h : Stepped m s o) :
    o.machine.dialect = m.dialect ∧ o.machine.cartridge = m.cartridge := by
  cases h with
  | refused => exact ⟨rfl, rfl⟩
  | @polled register =>
    rcases pollKey_cases m register with hp | ⟨v, k, hp⟩ <;> simp [hp]
  | beyond => exact ⟨rfl, rfl⟩
  | unknown => exact ⟨rfl, rfl⟩
  | faulted => exact ⟨rfl, rfl⟩
  | @unrolled i e => cases e <;> exact ⟨rfl, rfl⟩
  | @completed i roll =>
    have h := completes_apply (m.fetched m.opcode) i roll
    exact ⟨h.dialect, h.cartridge⟩

theorem dialect_powerOn (d : Dialect) (c : Option Cartridge) : (powerOn d c).dialect = d :=
  rfl

theorem cartridge_powerOn (d : Dialect) (c : Option Cartridge) : (powerOn d c).cartridge = c :=
  rfl

theorem fixed_reset (m : Machine) :
    m.reset.dialect = m.dialect ∧ m.reset.cartridge = m.cartridge := by
  rw [reset_eq_powerOn]
  exact ⟨dialect_powerOn _ _, cartridge_powerOn _ _⟩

theorem fixed_insert (m : Machine) (c : Cartridge) :
    (m.insert c).dialect = m.dialect ∧ (m.insert c).cartridge = some c := by
  rw [insert_eq_powerOn]
  exact ⟨dialect_powerOn _ _, cartridge_powerOn _ _⟩

theorem enduring_dialect (d : Dialect) : Enduring (·.dialect = d) where
  step s h := (stepped_step _ s).fixed.1.trans h
  withKeypad _ h := h
  withTimers _ h := h
  withDisplay _ h := h
  reset h := (fixed_reset _).1.trans h
  insert c h := (fixed_insert _ c).1.trans h

theorem steady_cartridge (c : Option Cartridge) : Steady (·.cartridge = c) where
  step s h := (stepped_step _ s).fixed.2.trans h
  withKeypad _ h := h
  withTimers _ h := h
  withDisplay _ h := h

end Machine

namespace Runner

open Machine

variable {r : Runner}

/-- The cartridge behind a deed, if `c` was in before. An image that does not fit leaves it in. -/
def Deed.cartridge (c : Option Cartridge) : Deed → Option Cartridge
  | .operation (.insert d) => some d
  | .operation (.load image) => (Cartridge.make image Cartridge.defaultName).toOption.or c
  | _ => c

theorem cartridge_enact (r : Runner) (d : Deed) :
    (r.enact d).2.machine.cartridge = d.cartridge r.machine.cartridge := by
  have hsteady := steady_cartridge r.machine.cartridge
  cases d with
  | write f => rfl
  | operation o =>
    cases o with
    | frame => exact steady_frame hsteady rfl
    | frames count => exact steady_runFrames hsteady rfl count none
    | setBudget x => rfl
    | input e => exact hsteady.feed (p := r.state) rfl e
    | reset => exact (fixed_reset _).2
    | insert c => exact (fixed_insert _ c).2
    | load image =>
      simp only [enact, operate, loadImage, Deed.cartridge]
      cases Cartridge.make image Cartridge.defaultName with
      | error f => rfl
      | ok c => exact (fixed_insert _ c).2

theorem cartridge_after (r : Runner) (ds : List Deed) :
    (r.after ds).machine.cartridge = ds.foldl Deed.cartridge r.machine.cartridge := by
  induction ds generalizing r with
  | nil => rfl
  | cons d ds ih =>
    rw [List.foldl_cons, ← cartridge_enact]
    exact ih (r.enact d).2

theorem dialect_after (r : Runner) (ds : List Deed) :
    (r.after ds).machine.dialect = r.machine.dialect := by
  induction ds generalizing r with
  | nil => rfl
  | cons d ds ih =>
    have henact : (r.enact d).2.machine.dialect = r.machine.dialect := by
      cases d with
      | operation o => exact enduring_operate (enduring_dialect _) rfl o
      | write f => rfl
    exact (ih (r.enact d).2).trans henact

/-- The operation answers nothing and puts this machine in the place of the other. Whatever is done
then is answered as from this machine, with any source of the same numbers. -/
structure Restores (r : Runner) (o : Operation) (fresh : Machine) : Prop where
  state : r.operate o = (.ok none, { r with machine := fresh })
  answers : ∀ t, r.source.Alike t → ∀ later,
    (r.operate o).2.answers later = { r with machine := fresh, source := t : Runner }.answers later

theorem restores_of_eq {o : Operation} {fresh : Machine}
    (h : r.operate o = (.ok none, { r with machine := fresh })) : r.Restores o fresh := by
  refine ⟨h, ?_⟩
  intro t ht later
  rw [h]
  exact (answers_withSource (r := { r with machine := fresh }) ht later).symm

/-- A new machine, with a cartridge if there is one. -/
def fresh (dialect : Dialect) : Option Cartridge → Machine
  | some c => ofCartridge dialect c
  | none => powerOn dialect none

theorem fresh_eq_powerOn (dialect : Dialect) (c : Option Cartridge) :
    fresh dialect c = powerOn dialect c := by
  cases c with
  | none => rfl
  | some c => exact insert_eq_powerOn _ c

theorem restores_reset (r : Runner) :
    r.Restores .reset (fresh r.machine.dialect r.machine.cartridge) := by
  apply restores_of_eq
  rw [operate, reset_eq_powerOn, fresh_eq_powerOn]

theorem restores_insert (r : Runner) (c : Cartridge) :
    r.Restores (.insert c) (ofCartridge r.machine.dialect c) := by
  apply restores_of_eq
  rw [operate, ofCartridge, insert_eq_powerOn, insert_eq_powerOn, dialect_powerOn]

/-- Whatever was done before, with steps, frames, keys, writes from outside and earlier images: a
reset leaves a new machine with the cartridge that was put in last, and an image that fits leaves
the new machine that starts with it. Every other image is refused, and nothing changes. -/
theorem powerOn_restored (r : Runner) (history : List Deed) :
    let q := r.after history
    let dialect := r.machine.dialect
    q.Restores .reset (fresh dialect (history.foldl Deed.cartridge r.machine.cartridge)) ∧
      ∀ image : Array UInt8,
        if 1 ≤ image.size ∧ image.size ≤ 3584 then
          ∃ started, ofImage dialect image = .ok started ∧ q.Restores (.load image) started
        else
          ∃ f, q.operate (.load image) = (.error (.fault f), q) ∧ f.family = "RomLoadError" ∧
            f.fatal = false := by
  intro q dialect
  have hdialect : q.machine.dialect = dialect := dialect_after r history
  constructor
  · rw [← hdialect, ← cartridge_after]
    exact restores_reset q
  · intro image
    split
    case isTrue hfits =>
      obtain ⟨c, hc, hload⟩ := operate_load_of_fits hfits q
      have hstarted : ofImage dialect image = .ok (ofCartridge dialect c) := by
        simp only [ofImage, hc]
        rfl
      refine ⟨_, hstarted, restores_of_eq ?_⟩
      rw [hload, ← hdialect]
      exact (restores_insert q c).state
    case isFalse hfits => exact operate_load_of_not_fits hfits q

end Runner

end Chip8
