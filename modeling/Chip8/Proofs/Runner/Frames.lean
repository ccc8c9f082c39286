import Chip8.Proofs.Machine.Sequence
import Chip8.Runner

/-! A frame against plain steps of the machine. -/
namespace Chip8

/-- The failure that ends a whole frame. A fault does so only if it is to be raised. -/
def FaultMode.ending (mode : FaultMode) : Option Failure → Option Failure
  | some (.fault f) =>
    match mode with
    | .raise => some (.fault f)
    | .record => none
  | failure? => failure?

def Failure.fault? : Failure → Option Fault
  | .fault f => some f
  | _ => none

namespace Runner

open Machine

variable {r : Runner} {n j : ℕ}

/-- The machine of a runner, with its source. -/
def state (r : Runner) : Machine × Source :=
  (r.machine, r.source)

theorem failureAt_one (r : Runner) :
    failureAt r.state 1 = (r.machine.step r.source).failure? :=
  rfl

/-- What `j` steps make of a runner. -/
structure Worked (r : Runner) (j : ℕ) (q : Runner) : Prop where
  state : q.state = next^[j] r.state
  frames : q.frames = r.frames
  lastFault? : q.lastFault? = ((failureAt r.state j).bind Failure.fault?).or r.lastFault?

/-- The runner after a step that does not fail. -/
def stepped (r : Runner) (trace : Array String) : Runner :=
  { r with machine := (next r.state).1, source := (next r.state).2, trace }

/-- The trace lines behind a step that does not fail. -/
def traceBehind (r : Runner) : Array String :=
  if (next r.state).1.cycles = r.machine.cycles then r.trace else (r.stepped r.trace).traced.trace

/-- Trace lines are all that a look at the registers adds. -/
theorem traced_stepped (r : Runner) :
    (if (next r.state).1.cycles = r.machine.cycles then r.stepped r.trace
      else (r.stepped r.trace).traced) = r.stepped r.traceBehind := by
  unfold traceBehind traced
  split
  · rfl
  · split <;> rfl

theorem steps_succ_of_none (hf : failureAt r.state 1 = none) (n : ℕ) :
    steps (n + 1) r =
      if (r.stepped r.traceBehind).machine.isAwaitingKey then (none, r.stepped r.traceBehind)
      else steps n (r.stepped r.traceBehind) := by
  rw [failureAt_one] at hf
  rw [← traced_stepped]
  simp only [steps, hf]
  rfl

theorem steps_succ_of_some {e : Failure} (hf : failureAt r.state 1 = some e) (n : ℕ) :
    steps (n + 1) r =
      (r.mode.ending (some e),
        { r.stepped r.trace with lastFault? := e.fault?.or r.lastFault? }) := by
  rw [failureAt_one] at hf
  simp only [steps, hf]
  cases e with
  | fault f =>
    obtain ⟨_, _, _, mode, _⟩ := r
    cases mode <;> rfl
  | error name message => rfl
  | value v => rfl

theorem worked_stepped (hf : failureAt r.state 1 = none) (trace : Array String) :
    Worked r 1 (r.stepped trace) :=
  ⟨rfl, rfl, by rw [hf]; rfl⟩

theorem Worked.succ {trace : Array String} {q : Runner} (h : Worked (r.stepped trace) j q)
    (hj : 1 ≤ j) : Worked r (j + 1) q := by
  refine ⟨?_, h.frames, ?_⟩
  · rw [Function.iterate_succ_apply]
    exact h.state
  · rw [failureAt_succ hj]
    exact h.lastFault?

theorem worked_failed {e : Failure} (hf : failureAt r.state 1 = some e) :
    Worked r 1 { r.stepped r.trace with lastFault? := e.fault?.or r.lastFault? } :=
  ⟨rfl, rfl, by rw [hf]; rfl⟩

/-- The steps of a frame are plain steps, up to the first that ends them. -/
theorem steps_worked (hn : 1 ≤ n) (r : Runner) :
    ∃ j, Spans r.state n j ∧ Worked r j (steps n r).2 ∧
      (steps n r).1 = r.mode.ending (failureAt r.state j) := by
  induction n generalizing r with
  | zero => omega
  | succ n ih =>
    cases hf : failureAt r.state 1 with
    | some e =>
      refine ⟨1, spans_one hn (.inl (.inl (by rw [hf]; rfl))), ?_⟩
      rw [hf, steps_succ_of_some hf n]
      exact ⟨worked_failed hf, rfl⟩
    | none =>
      rw [steps_succ_of_none hf n]
      by_cases hawait : (r.stepped r.traceBehind).machine.isAwaitingKey = true
      · rw [if_pos hawait]
        exact ⟨1, spans_one hn (.inl (.inr hawait)), worked_stepped hf _, by rw [hf]; rfl⟩
      · rw [if_neg hawait]
        rcases Nat.eq_zero_or_pos n with rfl | hpos
        · exact ⟨1, spans_one hn (.inr rfl), worked_stepped hf _, by rw [hf]; rfl⟩
        · -- nothing ended the first step, so the rest is a shorter row from the runner after it
          have hnot : ¬ Ends r.state 1 := not_ends_one hf hawait
          obtain ⟨j, hspans, hworked, hends⟩ := ih hpos (r.stepped r.traceBehind)
          refine ⟨j + 1, hspans.succ hnot, hworked.succ hspans.1.1, ?_⟩
          rw [failureAt_succ hspans.1.1]
          exact hends

/-- A frame takes `j` steps: none if the machine is halted. -/
def Takes (r : Runner) (n j : ℕ) : Prop :=
  if r.machine.isHalted then j = 0 else Spans r.state n j

/-- The runner when the steps of a frame begin. -/
def begun (r : Runner) : Runner :=
  { r with lastFault? := if r.machine.isHalted then r.lastFault? else none }

theorem work_of_halted (hh : r.machine.isHalted = true) : r.work = (none, r) := by
  simp [work, hh]

theorem work_eq_steps (hh : r.machine.isHalted = false) :
    r.work = steps (r.budget.getD 0) r.begun := by
  simp [work, begun, hh]

theorem work_of_not_halted (hb : r.budget = some n) (hh : r.machine.isHalted = false) :
    r.work = steps n r.begun := by
  rw [work_eq_steps hh, hb, Option.getD_some]

/-- A frame of a single step that does not fail. -/
theorem work_of_one (hb : r.budget = some 1) (hh : r.machine.isHalted = false)
    (hf : failureAt r.state 1 = none) : r.work = (none, r.begun.stepped r.begun.traceBehind) := by
  have hbegun : failureAt r.begun.state 1 = none := hf
  rw [work_of_not_halted hb hh, steps_succ_of_none hbegun 0]
  simp [steps]

theorem work_worked (hb : r.budget = some n) (hn : 1 ≤ n) :
    ∃ j, Takes r n j ∧ Worked r.begun j r.work.2 ∧
      r.work.1 = r.mode.ending (failureAt r.state j) := by
  cases hh : r.machine.isHalted with
  | true =>
    rw [work_of_halted hh]
    exact ⟨0, by simp [Takes, hh], ⟨rfl, rfl, by simp [begun, failureAt, hh]⟩, rfl⟩
  | false =>
    obtain ⟨j, hspans, hworked⟩ := steps_worked hn r.begun
    refine ⟨j, ?_, ?_⟩
    · rw [Takes, hh]
      exact hspans
    · rw [work_of_not_halted hb hh]
      exact hworked

/-- The steps of a frame are plain steps. -/
theorem work_state (r : Runner) : ∃ j, r.work.2.state = next^[j] r.state := by
  cases hh : r.machine.isHalted with
  | true =>
    rw [work_of_halted hh]
    exact ⟨0, rfl⟩
  | false =>
    rw [work_eq_steps hh]
    rcases Nat.eq_zero_or_pos (r.budget.getD 0) with hn | hn
    · rw [hn]
      exact ⟨0, rfl⟩
    · obtain ⟨j, _, hworked, _⟩ := steps_worked hn r.begun
      exact ⟨j, hworked.state⟩

theorem Takes.cycles (h : Takes r n j) :
    (next^[j] r.state).1.cycles - r.machine.cycles + r.machine.isAwaitingKey.toNat +
      (failureAt r.state j).isSome.toNat = j := by
  unfold Takes at h
  split at h
  case isTrue hh =>
    subst h
    have hawait : r.machine.isAwaitingKey = false := by
      cases hr : r.machine.run <;> simp_all [isHalted, isAwaitingKey]
    simp [state, failureAt, hawait]
  case isFalse hh =>
    have hspans : (next^[j] r.state).1.cycles + r.machine.isAwaitingKey.toNat + _ =
        r.machine.cycles + j := h.cycles (Bool.eq_false_iff.mpr hh)
    have hle : r.machine.cycles ≤ _ := cycles_le_iterate r.state j
    omega

/-- A frame `f` that closes after `j` steps, and the runner behind it. The timers tick once and the
mark on the screen is taken once. What is executed is neither a look at the keypad nor a step that
fails. -/
structure Closes (r : Runner) (j : ℕ) (f : Frame) (q : Runner) : Prop where
  machine : q.machine =
    { (next^[j] r.state).1.tick with display := (next^[j] r.state).1.display.takeDirty.2 }
  source : q.source = (next^[j] r.state).2
  frames : q.frames = r.frames + 1
  number : f.number = r.frames + 1
  executed : f.executed + r.machine.isAwaitingKey.toNat + (failureAt r.state j).isSome.toNat = j
  pixels : f.pixels = (next^[j] r.state).1.display.pixels
  displayChanged : f.displayChanged = (next^[j] r.state).1.display.dirty
  soundActive : f.soundActive = true ↔ 0 < q.machine.timers.sound
  awaitingKey : f.awaitingKey = q.machine.isAwaitingKey
  fault? : f.fault? =
    if r.machine.isHalted then r.lastFault? else (failureAt r.state j).bind Failure.fault?

theorem closes_close {q : Runner} (ht : Takes r n j) (hw : Worked r.begun j q) :
    Closes r j (q.close (q.machine.cycles - r.machine.cycles)).1
      (q.close (q.machine.cycles - r.machine.cycles)).2 := by
  have hmachine : q.machine = (next^[j] r.state).1 := congrArg Prod.fst hw.state
  have hsource : q.source = (next^[j] r.state).2 := congrArg Prod.snd hw.state
  have hframes : q.frames + 1 = r.frames + 1 := congrArg (· + 1) hw.frames
  have hcycles := ht.cycles
  rw [← hmachine] at hcycles
  refine ⟨?_, hsource, hframes, hframes, hcycles, ?_, ?_, ?_, rfl, ?_⟩
  · rw [← hmachine]
    rfl
  · rw [← hmachine]
    rfl
  · rw [← hmachine]
    rfl
  · simp only [close, Timers.soundActive, bne_iff_ne, UInt8.pos_iff_ne_zero]
  · change q.lastFault? = _
    rw [hw.lastFault?]
    unfold Takes at ht
    split at ht
    case isTrue hh =>
      subst ht
      simp [failureAt, begun, hh]
    case isFalse hh =>
      simp only [begun, hh, if_false, Bool.false_eq_true, Option.or_none]
      rfl

theorem frame_of_work_some {e : Failure} (h : r.work.1 = some e) :
    r.frame = (.error e, r.work.2) := by
  rcases hwork : r.work with ⟨failure?, q⟩
  rw [hwork] at h
  subst h
  simp only [frame, hwork]

theorem frame_of_work_none (h : r.work.1 = none) :
    r.frame =
      (.ok (r.work.2.close (r.work.2.machine.cycles - r.machine.cycles)).1,
        (r.work.2.close (r.work.2.machine.cycles - r.machine.cycles)).2) := by
  rcases hwork : r.work with ⟨failure?, q⟩
  rw [hwork] at h
  subst h
  simp only [frame, hwork]

/-- Steps leave the count of frames to the end of the frame. -/
theorem frames_work (r : Runner) : r.work.2.frames = r.frames := by
  cases hh : r.machine.isHalted with
  | true => rw [work_of_halted hh]
  | false =>
    rw [work_eq_steps hh]
    rcases Nat.eq_zero_or_pos (r.budget.getD 0) with hn | hn
    · rw [hn]
      rfl
    · obtain ⟨j, _, hworked, _⟩ := steps_worked hn r.begun
      exact hworked.frames

/-- A frame that is returned is the next by its number. -/
theorem frames_of_ok {f : Frame} (h : r.frame.1 = .ok f) :
    f.number = r.frames + 1 ∧ r.frame.2.frames = r.frames + 1 := by
  cases hwork : r.work.1 with
  | some e => simp [frame_of_work_some hwork] at h
  | none =>
    rw [frame_of_work_none hwork] at h ⊢
    obtain rfl := Except.ok.inj h
    have hframes := congrArg (· + 1) (frames_work r)
    exact ⟨hframes, hframes⟩

/-- A frame that fails is not counted. -/
theorem frames_of_error {e : Failure} (h : r.frame.1 = .error e) : r.frame.2.frames = r.frames := by
  cases hwork : r.work.1 with
  | some e => simp [frame_of_work_some hwork, frames_work r]
  | none => simp [frame_of_work_none hwork] at h

/-- A frame does what some plain steps do, and then one tick of the timers and one look at the
screen. The steps are as many as the budget allows, unless one of them fails or leaves the machine
awaiting a key, and none if it is halted. Where a failure ends the whole frame, the steps have been
taken and nothing else. -/
theorem frame_steps (hb : r.budget = some n) (hn : 1 ≤ n) :
    ∃ j, Takes r n j ∧
      match r.mode.ending (failureAt r.state j) with
      | some e =>
        r.frame.1 = .error e ∧ r.frame.2.state = next^[j] r.state ∧ r.frame.2.frames = r.frames
      | none => ∃ f, r.frame.1 = .ok f ∧ Closes r j f r.frame.2 := by
  obtain ⟨j, htakes, hworked, hends⟩ := work_worked hb hn
  refine ⟨j, htakes, ?_⟩
  rw [← hends]
  cases hwork : r.work.1 with
  | some e =>
    rw [frame_of_work_some hwork]
    exact ⟨rfl, hworked.state, hworked.frames⟩
  | none =>
    rw [frame_of_work_none hwork]
    exact ⟨_, rfl, closes_close htakes hworked⟩

/-- A machine in front of a call of machine code, whose faults are raised. -/
def refusing : Runner :=
  make (powerOn .standard (some ⟨#[0x00, 0x00], "zero", by decide, by decide⟩)) (.seeded 0)
    (some 10) .raise 0 false

/-- A program that sets the sound timer and then waits for a key. -/
def bellImage : Array UInt8 :=
  #[0x60, 0x02, 0xf0, 0x18, 0xf0, 0x0a]

def ringing : Runner :=
  make (powerOn .standard (some ⟨bellImage, "bell", by decide, by decide⟩)) (.seeded 0) (some 10)
    .raise 0 false

/-- The machine is at byte number `k` of the program. -/
structure Ringing (k : ℕ) (p : Machine × Source) : Prop where
  memory : p.1.memory = Memory.initial.withProgram bellImage
  run : p.1.run = .running
  pc : p.1.pc.toNat = 0x200 + k

theorem Ringing.reads {k : ℕ} {p : Machine × Source} {i : Instruction ℕ} (h : Ringing k p)
    (hk : k ≤ 4) (hi : i.InRange)
    (he : i.encode = (bellImage[k]?.getD 0).toNat * 256 + (bellImage[k + 1]?.getD 0).toNat) :
    p.1.Reads i := by
  have hmax : Memory.maxProgram = 3584 := rfl
  exact reads_of_image_at h.memory h.pc (by omega) hi he

/-- An instruction that leads to the one behind it does not end a frame. -/
theorem Ringing.next {k : ℕ} {p : Machine × Source} {i : Instruction ℕ} (h : Ringing k p)
    (hk : k ≤ 4) (hi : p.1.Reads i) (hf : p.1.fault? i = none)
    (hroll : rolled p.2 i = (.ok 0, p.2))
    (hgoes : ∀ m : Machine, (m.apply i 0).memory = m.memory ∧ (m.apply i 0).run = m.run ∧
      (m.apply i 0).pc = UInt16.ofNat (m.pc.toNat + 2)) :
    ¬ Ends p 1 ∧ Ringing (k + 2) (Machine.next p) ∧
      (Machine.next p).1 = ((p.1.fetched p.1.opcode).apply i 0).counted := by
  obtain ⟨hfailure, hnext⟩ := next_of_rolled h.run hi hf hroll
  obtain ⟨hmemory, hrun, hpc⟩ := hgoes (p.1.fetched p.1.opcode)
  have hplace : p.1.pc.toNat = 0x200 + k := h.pc
  have hring : Ringing (k + 2) (Machine.next p) := by
    rw [hnext]
    refine ⟨hmemory.trans h.memory, hrun.trans h.run, ?_⟩
    change ((p.1.fetched p.1.opcode).apply i 0).pc.toNat = _
    rw [hpc]
    change (UInt16.ofNat (p.1.pc.toNat + 2)).toNat = _
    have hfits : 0x200 + k + 2 < UInt16.size := by
      have hsize : UInt16.size = 0x10000 := rfl
      omega
    rw [hplace, UInt16.toNat_ofNat_of_lt' hfits, Nat.add_assoc]
  exact ⟨not_ends_one hfailure (by simp [isAwaitingKey, hring.run]), hring, by rw [hnext]⟩

/-- The wait for a key is the third step. -/
theorem spans_ringing {p : Machine × Source} (h : Ringing 0 p) :
    Spans p 10 3 ∧ failureAt p 3 = none ∧ (next^[3] p).1.timers.sound = 2 ∧
      (next^[3] p).1.isAwaitingKey = true := by
  have hbyte : p.1.Reads (.setByte 0 2) := h.reads (by decide) ⟨by decide, by decide⟩ (by decide)
  obtain ⟨hnot, h₁, hmachine₁⟩ := h.next (by decide) hbyte rfl rfl fun m => ⟨rfl, rfl, rfl⟩
  have hregister : (next p).1.read (.of 0) = 2 := by
    rw [hmachine₁]
    exact reg_setReg _ 0 2 0
  have hsound : (next p).1.Reads (.setSound 0) :=
    h₁.reads (by decide) (show 0 < 16 by decide) (by decide)
  obtain ⟨hnot₁, h₂, hmachine₂⟩ := h₁.next (by decide) hsound rfl rfl fun m => ⟨rfl, rfl, rfl⟩
  have htimer : (next (next p)).1.timers.sound = 2 := by
    rw [hmachine₂]
    exact hregister
  have hwait : (next (next p)).1.Reads (.waitKey 0) :=
    h₂.reads (by decide) (show 0 < 16 by decide) (by decide)
  obtain ⟨hfailure, hnext⟩ := next_of_rolled (s := (next (next p)).2) h₂.run hwait rfl rfl
  have hlast : (next (next (next p))).1.isAwaitingKey = true ∧
      (next (next (next p))).1.timers.sound = 2 := by
    rw [hnext]
    exact ⟨rfl, htimer⟩
  have hspans : Spans (next (next p)) 8 1 := spans_one (by decide) (.inl (.inr hlast.1))
  exact ⟨(hspans.succ hnot₁).succ hnot, hfailure, hlast.2, hlast.1⟩

theorem frame_steps_refusing :
    (refusing.budget = some 10 ∧ 1 ≤ 10 ∧
      refusing.frame.1 =
        .error (.fault (.unsupportedInstruction (Float.ofNat 0) (Float.ofNat 0x200))) ∧
      refusing.frame.2.state = next refusing.state ∧ refusing.frame.2.frames = 0) ∧
      ringing.budget = some 10 ∧
        ∃ f, ringing.frame.1 = .ok f ∧ f.number = 1 ∧ f.executed = 3 ∧ f.soundActive = true ∧
          f.awaitingKey = true ∧ f.fault? = none ∧ ringing.frame.2.frames = 1 ∧
          ringing.frame.2.source = (next^[3] ringing.state).2 ∧
          ringing.frame.2.machine.timers.sound = 1 := by
  have hi : (Instruction.machineCall 0).InRange := ⟨by decide, by decide, by decide⟩
  have hreads : refusing.machine.Reads (.machineCall 0) := reads_of_image rfl rfl hi (by decide)
  have hf : failureAt refusing.state 1 =
      some (.fault (.unsupportedInstruction (Float.ofNat 0) (Float.ofNat 0x200))) :=
    (failureAt_one refusing).trans
      (congrArg Outcome.failure? (step_of_fault? (s := refusing.source) rfl hreads rfl))
  obtain ⟨j, htakes, hframe⟩ := frame_steps (r := refusing) (n := 10) rfl (by decide)
  have hone : j = 1 :=
    htakes.unique (spans_one (by decide) (.inl (.inl (by rw [hf]; rfl))))
  subst hone
  rw [hf, Function.iterate_one] at hframe
  obtain ⟨herror, hstate, hframes⟩ := hframe
  refine ⟨⟨rfl, by decide, herror, hstate, hframes⟩, rfl, ?_⟩
  obtain ⟨hspans, hnone, htimer, hawait⟩ := spans_ringing (p := ringing.state) ⟨rfl, rfl, rfl⟩
  obtain ⟨i, htakes, hframe⟩ := frame_steps (r := ringing) (n := 10) rfl (by decide)
  obtain rfl : i = 3 := htakes.unique hspans
  rw [hnone] at hframe
  obtain ⟨f, hf, hcloses⟩ := hframe
  have hclosed (m : Machine) (d : Display) :
      ({ m.tick with display := d } : Machine).timers.sound = Timers.countDown m.timers.sound ∧
        ({ m.tick with display := d } : Machine).isAwaitingKey = m.isAwaitingKey := ⟨rfl, rfl⟩
  have hsound : ringing.frame.2.machine.timers.sound = 1 := by
    rw [hcloses.machine, (hclosed _ _).1, htimer]
    rfl
  have hwaits : f.awaitingKey = true := by
    rw [hcloses.awaitingKey, hcloses.machine, (hclosed _ _).2, hawait]
  have hexecuted : f.executed + 0 + 0 = 3 := by
    have := hcloses.executed
    rwa [hnone] at this
  have hfault : f.fault? = none := by
    rw [hcloses.fault?, hnone]
    rfl
  refine ⟨f, hf, hcloses.number, hexecuted, ?_, hwaits, hfault, hcloses.frames, hcloses.source,
    hsound⟩
  rw [hcloses.soundActive, hsound]
  decide

end Runner

end Chip8
