import Chip8.Proofs.Runner.Frames

/-! Whether the mark of a frame tells that the screen changed since the frame before. -/
namespace Chip8

namespace Runner

open Machine

/-- What can be done to a runner. -/
inductive Act where
  | frame
  | step
  | reset
  | insert (c : Cartridge)
  | load (image : Array UInt8)
  | draw (x y : Float) (sprite : List UInt8)
  | clear
  /-- Anything that leaves the screen alone. -/
  | other (q : Runner)

/-- Empties the screen as at power-on, without a mark. -/
def Act.wipes : Act → Bool
  | reset => true
  | insert _ => true
  | load image => (Cartridge.make image Cartridge.defaultName).isOk
  | _ => false

def withDisplay (r : Runner) (d : Display) : Runner :=
  { r with machine := { r.machine with display := d } }

def act (r : Runner) : Act → Runner
  | .frame => r.frame.2
  | .step => r.stepped r.trace
  | .reset => { r with machine := r.machine.reset }
  | .insert c => { r with machine := r.machine.insert c }
  | .load image =>
    match r.machine.loadImage image with
    | .ok m => { r with machine := m }
    | .error _ => r
  | .draw x y sprite => r.withDisplay (r.machine.display.draw x y sprite).1
  | .clear => r.withDisplay r.machine.display.clear
  | .other q => q.withDisplay r.machine.display

def acts (r : Runner) (ys : List Act) : Runner :=
  ys.foldl act r

/-- No frame was handed out: those that were tried ended in a failure. -/
def Unseen (r : Runner) (ys : List Act) : Prop :=
  ∀ before after, ys = before ++ .frame :: after → ∀ f, (r.acts before).frame.1 ≠ .ok f

/-- The mark is on the screen, or it shows what was there at first, or nothing if it was wiped. -/
def Current (old : Vector Bool 2048) (ys : List Act) (d : Display) : Prop :=
  d.dirty = true ∨ d.pixels = if ys.any Act.wipes then Display.initial.pixels else old

variable {r : Runner} {ys : List Act} {y : Act} {f g : Frame} {old : Vector Bool 2048}
  {d d' : Display}

theorem display_act_draw (r : Runner) (x y : Float) (sprite : List UInt8) :
    (r.act (.draw x y sprite)).machine.display = (r.machine.display.draw x y sprite).1 :=
  rfl

theorem budget_acts_reset (r : Runner) : (r.acts [.reset]).budget = r.budget :=
  rfl

theorem acts_concat (r : Runner) (ys : List Act) (y : Act) :
    r.acts (ys ++ [y]) = (r.acts ys).act y := by
  simp [acts]

theorem Current.noted (h : Current old ys d) (hd : d.Noted d') : Current old ys d' := by
  rcases hd with hd | rfl
  · exact .inl hd
  · exact h

theorem Current.concat (h : Current old ys d) (hy : y.wipes = false) : Current old (ys ++ [y]) d := by
  simpa [Current, hy] using h

theorem current_initial (old : Vector Bool 2048) (ys : List Act) (hy : y.wipes = true) :
    Current old (ys ++ [y]) Display.initial := by
  simp [Current, hy]

theorem noted_work (r : Runner) : r.machine.display.Noted r.work.2.machine.display := by
  obtain ⟨j, hj⟩ := work_state r
  have hmachine : r.work.2.machine = (next^[j] r.state).1 := congrArg Prod.fst hj
  rw [hmachine]
  exact noted_iterate _ j

/-- What a frame that is handed out says of the screen. -/
theorem frame_ok (h : r.frame.1 = .ok f) :
    f.pixels = r.work.2.machine.display.pixels ∧ f.displayChanged = r.work.2.machine.display.dirty ∧
      r.frame.2.machine.display = ⟨f.pixels, false⟩ := by
  cases hwork : r.work.1 with
  | some e => simp [frame_of_work_some hwork] at h
  | none =>
    rw [frame_of_work_none hwork] at h ⊢
    obtain rfl := Except.ok.inj h
    exact ⟨rfl, rfl, rfl⟩

theorem current_act (h : Current old ys r.machine.display)
    (hy : y = .frame → ∀ f, r.frame.1 ≠ .ok f) :
    Current old (ys ++ [y]) (r.act y).machine.display := by
  cases y with
  | frame =>
    -- a frame that fails takes its steps and leaves the mark where it is
    cases hwork : r.work.1 with
    | some e =>
      have hact : r.act .frame = r.work.2 := congrArg Prod.snd (frame_of_work_some hwork)
      rw [hact]
      exact (h.noted (noted_work r)).concat rfl
    | none =>
      have := congrArg Prod.fst (frame_of_work_none hwork)
      exact absurd this (hy rfl _)
  | step => exact (h.noted (stepped_step _ _).noted).concat rfl
  | reset => exact current_initial old ys rfl
  | insert c => exact current_initial old ys rfl
  | load image =>
    cases hc : Cartridge.make image Cartridge.defaultName with
    | error e =>
      have hact : r.act (.load image) = r := by simp only [act, loadImage, hc, error_bind]
      rw [hact]
      exact h.concat (by simp [Act.wipes, hc, Except.isOk, Except.toBool])
    | ok c =>
      have hact : r.act (.load image) = r.act (.insert c) := by
        simp only [act, loadImage, hc, ok_bind, pure, Except.pure]
      rw [hact]
      exact current_initial old ys (by simp [Act.wipes, hc, Except.isOk, Except.toBool])
  | draw x y sprite => exact (h.noted (Display.noted_draw _ x y sprite)).concat rfl
  | clear => exact (h.noted (Display.noted_clear _)).concat rfl
  | other q => exact h.concat rfl

theorem current_acts (h : r.machine.display = ⟨old, false⟩) (hys : Unseen r ys) :
    Current old ys (r.acts ys).machine.display := by
  induction ys using List.reverseRecOn with
  | nil => exact .inr (congrArg Display.pixels h)
  | append_singleton ys y ih =>
    have hbefore : Unseen r ys := by
      intro before after heq
      exact hys before (after ++ [y]) (by simp [heq])
    rw [acts_concat]
    apply current_act (ih hbefore)
    rintro rfl
    exact hys ys [] rfl

/-- A frame that is not marked shows what the frame before it showed, unless the machine was reset
or reloaded since: the screen is empty then, and without a mark. -/
theorem pixels_ne_iff (hf : r.frame.1 = .ok f) (hys : Unseen r.frame.2 ys)
    (hg : (r.frame.2.acts ys).frame.1 = .ok g) (hd : g.displayChanged = false) :
    g.pixels ≠ f.pixels ↔ ys.any Act.wipes = true ∧ f.pixels ≠ Display.initial.pixels := by
  obtain ⟨_, _, hbegin⟩ := frame_ok hf
  obtain ⟨hpixels, hmark, _⟩ := frame_ok hg
  have hcurrent := (current_acts hbegin hys).noted (noted_work _)
  have hshown : g.pixels = if ys.any Act.wipes then Display.initial.pixels else f.pixels := by
    rcases hcurrent with hdirty | hshown
    · simp [hmark, hdirty] at hd
    · exact hpixels.trans hshown
  rw [hshown]
  cases ys.any Act.wipes <;> simp [eq_comm]

/-! A program that jumps in place, one step a frame, under a screen with a pixel drawn from
outside. -/

/-- The work of a frame of one step that completes an instruction. -/
theorem work_of_completed {i : Instruction ℕ} {roll : UInt8} {s' : Source}
    (hb : r.budget = some 1) (hr : r.machine.run = .running) (hi : r.machine.Reads i)
    (hf : r.machine.fault? i = none) (hroll : rolled r.source i = (.ok roll, s')) :
    r.work.1 = none ∧ r.work.2.budget = some 1 ∧ r.work.2.lastFault? = none ∧
      r.work.2.machine = ((r.machine.fetched r.machine.opcode).apply i roll).counted := by
  have hstep := step_of_rolled (s := r.source) hr hi hf hroll
  have hh : r.machine.isHalted = false := by simp [isHalted, hr]
  have hnone : failureAt r.state 1 = none := congrArg Outcome.failure? hstep
  rw [work_of_one hb hh hnone]
  exact ⟨rfl, hb, by simp [stepped, begun, hh], congrArg Outcome.machine hstep⟩

/-- The frame of one step that completes an instruction tells what the instruction left. -/
theorem frame_of_completed {i : Instruction ℕ} {roll : UInt8} {s' : Source}
    (hb : r.budget = some 1) (hr : r.machine.run = .running) (hi : r.machine.Reads i)
    (hf : r.machine.fault? i = none) (hroll : rolled r.source i = (.ok roll, s')) :
    let m := ((r.machine.fetched r.machine.opcode).apply i roll).counted
    ∃ f, r.frame.1 = .ok f ∧ f.pixels = m.display.pixels ∧ f.displayChanged = m.display.dirty ∧
      f.awaitingKey = m.isAwaitingKey ∧ f.fault? = none ∧ r.frame.2.budget = some 1 ∧
      r.frame.2.machine = { m.tick with display := ⟨m.display.pixels, false⟩ } := by
  intro m
  obtain ⟨hwork, hbudget, hfault, hmachine⟩ := work_of_completed hb hr hi hf hroll
  rw [frame_of_work_none hwork]
  refine ⟨_, rfl, ?_, ?_, ?_, hfault, hbudget, ?_⟩
  · change r.work.2.machine.display.pixels = _
    rw [hmachine]
  · change r.work.2.machine.display.dirty = _
    rw [hmachine]
  · change r.work.2.machine.isAwaitingKey = _
    rw [hmachine]
  · simp only [close, hmachine]
    rfl

/-- A jump leaves the screen alone. -/
theorem frame_jump {a : ℕ} (hr : r.machine.run = .running) (hi : r.machine.Reads (.jump a))
    (hb : r.budget = some 1) :
    ∃ f, r.frame.1 = .ok f ∧ f.pixels = r.machine.display.pixels ∧
      f.displayChanged = r.machine.display.dirty ∧ r.frame.2.budget = some 1 ∧
      r.frame.2.machine.reset = r.machine.reset := by
  obtain ⟨f, hframe, hpixels, hmark, -, -, hbudget, hmachine⟩ :=
    frame_of_completed hb hr hi rfl rfl
  refine ⟨f, hframe, hpixels, hmark, hbudget, ?_⟩
  rw [hmachine]
  rfl

def parked : Runner :=
  make (powerOn .standard (some ⟨#[0x12, 0x00], "park", by decide, by decide⟩)) (.seeded 0)
    (some 1) .record 0 false

def dotted : Runner :=
  parked.act (.draw 0 0 [0x80])

theorem pixels_dotted : dotted.machine.display.pixels ≠ Display.initial.pixels := by
  have htargets : Display.targets (0 : Float) 0 [0x80] = [some 0] := by decide +kernel
  have hpixels : dotted.machine.display.pixels = (Display.initial.flip 0).pixels := by
    have hstart : parked.machine.display = Display.initial := rfl
    rw [dotted, display_act_draw, hstart, Display.draw, htargets]
    simp only [List.foldl, Display.plot]
  have hlit : (Display.initial.flip 0).isLit 0 = !Display.initial.isLit 0 := by simp
  intro h
  rw [hpixels] at h
  simp [Display.isLit, h] at hlit

theorem frames_dotted :
    ∃ f g, dotted.frame.1 = .ok f ∧ (dotted.frame.2.acts [.reset]).frame.1 = .ok g ∧
      f.pixels = dotted.machine.display.pixels ∧ g.pixels = Display.initial.pixels ∧
      g.displayChanged = false := by
  have hi : (Instruction.jump 0x200).InRange := show 0x200 < 4096 by decide
  have hreads : dotted.machine.Reads (.jump 0x200) := reads_of_image rfl rfl hi (by decide)
  obtain ⟨f, hf, hpixels, _, hbudget, hreset⟩ := frame_jump (r := dotted) rfl hreads rfl
  have hmachine : (dotted.frame.2.acts [.reset]).machine = parked.machine :=
    hreset.trans (reset_eq_powerOn dotted.machine)
  have hparked : parked.machine.Reads (.jump 0x200) := reads_of_image rfl rfl hi (by decide)
  obtain ⟨g, hg, hblank, hmark, _⟩ := frame_jump (r := dotted.frame.2.acts [.reset])
    (by rw [hmachine]; rfl) (by rw [hmachine]; exact hparked) ((budget_acts_reset _).trans hbudget)
  rw [hmachine] at hblank hmark
  exact ⟨f, g, hf, hg, hpixels, hblank, hmark⟩

theorem unseen_reset (r : Runner) : Unseen r [.reset] := by
  intro before after heq
  cases before with
  | nil => simp at heq
  | cons y before => simp at heq

theorem pixels_ne_dotted :
    ∃ f g, dotted.frame.1 = .ok f ∧ Unseen dotted.frame.2 [.reset] ∧
      (dotted.frame.2.acts [.reset]).frame.1 = .ok g ∧ g.displayChanged = false ∧
      g.pixels ≠ f.pixels := by
  obtain ⟨f, g, hf, hg, hpixels, _, hmark⟩ := frames_dotted
  refine ⟨f, g, hf, unseen_reset _, hg, hmark, ?_⟩
  rw [pixels_ne_iff hf (unseen_reset _) hg hmark, hpixels]
  exact ⟨rfl, pixels_dotted⟩

/-- A reset makes an unmarked frame whose picture differs from the one before. -/
theorem unmarked_after_reset :
    ¬ ∀ (r : Runner) (ys : List Act) (f g : Frame), r.frame.1 = .ok f → Unseen r.frame.2 ys →
      (r.frame.2.acts ys).frame.1 = .ok g → g.pixels ≠ f.pixels → g.displayChanged = true := by
  intro h
  obtain ⟨f, g, hf, hg, hpixels, hblank, hmark⟩ := frames_dotted
  have hne : g.pixels ≠ f.pixels := by
    rw [hblank, hpixels]
    exact pixels_dotted.symm
  have := h dotted [.reset] f g hf (unseen_reset _) hg hne
  rw [hmark] at this
  exact Bool.false_ne_true this

end Runner

end Chip8
