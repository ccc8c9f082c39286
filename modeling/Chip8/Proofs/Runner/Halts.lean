import Chip8.Proofs.Machine.Program
import Chip8.Proofs.Runner.Operations

/-! The fault that a frame tells of, against the fault that its machine is halted with. -/
namespace Chip8

theorem Failure.fault?_eq_some_iff {failure : Failure} {e : Fault} :
    failure.fault? = some e ↔ failure = .fault e := by
  cases failure <;> simp [Failure.fault?]

namespace Machine

/-- The fault that a machine is halted with, if it is halted. -/
def haltFault? (m : Machine) : Option Fault :=
  match m.run with
  | .halted f => some f
  | _ => none

variable {m : Machine} {s : Source} {o : Outcome} {e : Fault}

theorem haltFault?_eq_some_iff : m.haltFault? = some e ↔ m.run = .halted e := by
  unfold haltFault?
  cases m.run <;> simp

theorem haltFault?_of_not_halted (hh : m.isHalted = false) : m.haltFault? = none := by
  cases hr : m.run <;> simp_all [haltFault?, isHalted]

theorem isHalted_of_run (hr : m.run = .halted e) : m.isHalted = true := by
  simp [isHalted, hr]

theorem exists_of_isHalted (hh : m.isHalted = true) : ∃ e, m.run = .halted e := by
  cases hr : m.run <;> simp_all [isHalted]

/-- A step halts a machine with the very fault that it fails with. -/
theorem Stepped.haltFault? (h : Stepped m s o) (hh : m.isHalted = false) :
    o.machine.haltFault? = o.failure?.bind Failure.fault? := by
  cases hf : o.failure? with
  | none => exact haltFault?_of_not_halted (h.isHalted hf)
  | some failure =>
    cases h with
    | refused hr => simp [Machine.isHalted, hr] at hh
    | polled => cases hf
    | beyond => cases hf; rfl
    | unknown => cases hf; rfl
    | faulted => cases hf; rfl
    | @unrolled i e hr =>
      cases e <;> cases hf
      · rfl
      · exact haltFault?_of_not_halted hh
      · exact haltFault?_of_not_halted hh
    | completed => cases hf

/-- Keys and timers do not change what a machine is doing. -/
theorem run_feed {p : Machine × Source} {i : Input} (hi : i ≠ .step) :
    (feed p i).1.run = p.1.run := by
  cases i with
  | key x down =>
    simp only [feed, setKey]
    cases p.1.keypad.setKey x down <;> rfl
  | releaseAll => rfl
  | tick => rfl
  | step => exact absurd rfl hi

end Machine

namespace Runner

open Machine

variable {r : Runner} {f : Frame} {e : Fault} {o : Operation} {ops : List Operation}

/-! Frames. -/

theorem recorded_steps (hh : r.machine.isHalted = false) (hl : r.lastFault? = none) (n : ℕ) :
    (steps n r).2.lastFault? = (steps n r).2.machine.haltFault? := by
  induction n generalizing r with
  | zero => exact hl.trans (haltFault?_of_not_halted hh).symm
  | succ n ih =>
    have hstepped := stepped_step r.machine r.source
    cases hf : failureAt r.state 1 with
    | some failure =>
      rw [failureAt_one] at hf
      have hhalt := hstepped.haltFault? hh
      rw [hf] at hhalt
      rw [steps_succ_of_some hf, hl, Option.or_none]
      exact hhalt.symm
    | none =>
      have hnext : (r.stepped r.traceBehind).machine.isHalted = false := hstepped.isHalted hf
      rw [steps_succ_of_none hf]
      split
      · exact hl.trans (haltFault?_of_not_halted hnext).symm
      · exact ih hnext hl

theorem recorded_work (hh : r.machine.isHalted = false) :
    r.work.2.lastFault? = r.work.2.machine.haltFault? := by
  rw [work_eq_steps hh]
  exact recorded_steps (r := r.begun) hh (by simp [begun, hh]) _

/-- The end of a frame leaves alone what the machine is doing and what is on record. -/
theorem frame_keeps (r : Runner) :
    r.frame.2.machine.run = r.work.2.machine.run ∧ r.frame.2.lastFault? = r.work.2.lastFault? := by
  cases hend : r.work.1 with
  | some failure =>
    rw [frame_of_work_some hend]
    exact ⟨rfl, rfl⟩
  | none =>
    rw [frame_of_work_none hend]
    exact ⟨rfl, rfl⟩

theorem haltFault?_frame (r : Runner) :
    r.frame.2.machine.haltFault? = r.work.2.machine.haltFault? := by
  simp only [haltFault?, (frame_keeps r).1]

theorem recorded_frame (hh : r.machine.isHalted = false) :
    r.frame.2.lastFault? = r.frame.2.machine.haltFault? := by
  rw [(frame_keeps r).2, haltFault?_frame, recorded_work hh]

theorem fault?_of_frame (h : r.frame.1 = .ok f) : f.fault? = r.work.2.lastFault? := by
  cases hend : r.work.1 with
  | some failure => simp [frame_of_work_some hend] at h
  | none =>
    rw [frame_of_work_none hend] at h
    cases h
    rfl

/-- If the machine is halted, its fault is on record. -/
def Recorded (r : Runner) : Prop :=
  ∀ e, r.machine.run = .halted e → r.lastFault? = some e

theorem recorded_of_not_halted (hh : r.machine.isHalted = false) : Recorded r := by
  intro e hr
  simp [isHalted, hr] at hh

theorem recorded_iff (hr : r.machine.run = .halted e) : Recorded r ↔ r.lastFault? = some e := by
  simp [Recorded, hr]

theorem recorded_frame_iff : Recorded r.frame.2 ↔ Recorded r := by
  cases hh : r.machine.isHalted with
  | true =>
    obtain ⟨hrun, hlast⟩ := frame_keeps r
    rw [work_of_halted hh] at hrun hlast
    simp only [Recorded, hrun, hlast]
  | false =>
    refine iff_of_true ?_ (recorded_of_not_halted hh)
    intro e he
    rw [recorded_frame hh, haltFault?_eq_some_iff, he]

/-- A frame tells of a halt as it should exactly if the halt was on record. -/
theorem frame_tells_iff (h : r.frame.1 = .ok f) :
    f.fault? = r.frame.2.machine.haltFault? ↔ Recorded r := by
  rw [fault?_of_frame h, haltFault?_frame]
  cases hh : r.machine.isHalted with
  | true =>
    obtain ⟨e, he⟩ := exists_of_isHalted hh
    rw [work_of_halted hh, recorded_iff he, haltFault?_eq_some_iff.mpr he]
  | false => exact iff_of_true (recorded_work hh) (recorded_of_not_halted hh)

/-- So does the last of some frames. -/
theorem runFrames_tells_iff {last : Option Frame} (n : ℕ)
    (hlast : ∀ g, last = some g → (g.fault? = r.machine.haltFault? ↔ Recorded r))
    (h : (r.runFrames n last).1 = .ok (some f)) :
    f.fault? = (r.runFrames n last).2.machine.haltFault? ↔ Recorded r := by
  induction n generalizing r last with
  | zero => exact hlast f (Except.ok.inj h)
  | succ n ih =>
    have hrecorded := recorded_frame_iff (r := r)
    unfold runFrames at h ⊢
    rcases hframe : r.frame with ⟨failure | g, q⟩
    · simp [hframe] at h
    · have htells := frame_tells_iff (congrArg Prod.fst hframe)
      rw [hframe] at hrecorded htells
      simp only [hframe] at h ⊢
      split at h
      case isTrue hsome =>
        obtain rfl : g = f := by simpa using h
        rwa [if_pos hsome]
      case isFalse hsome =>
        -- the frames go on, with the same on record as a halted machine has
        rw [if_neg hsome, ← hrecorded]
        apply ih _ h
        intro g' hg'
        obtain rfl := Option.some.inj hg'
        rw [htells, hrecorded]

/-! What halted the machine. -/

/-- What makes a machine run, whatever it was doing. -/
def Operation.Renews : Operation → Prop
  | .reset => True
  | .insert _ => True
  | .load image => 1 ≤ image.size ∧ image.size ≤ 3584
  | _ => False

/-- The operation is a single step, outside of any frame, and halts the machine. -/
def HaltsAside (r : Runner) (o : Operation) (e : Fault) : Prop :=
  o = .input .step ∧ r.machine.isHalted = false ∧
    (r.machine.step r.source).failure? = some (.fault e)

/-- A single step halted the machine, or it was halted at the start, and nothing made it run
since. -/
def HaltedAside (r : Runner) (ops : List Operation) (e : Fault) : Prop :=
  Since (fun before o => (r.run before).HaltsAside o e) (fun o => ¬ o.Renews) ops ∨
    r.machine.run = .halted e ∧ ∀ o ∈ ops, ¬ o.Renews

theorem haltedAside_concat :
    HaltedAside r (ops ++ [o]) e ↔
      (r.run ops).HaltsAside o e ∨ HaltedAside r ops e ∧ ¬ o.Renews := by
  simp only [HaltedAside, since_concat, List.forall_mem_append, List.forall_mem_singleton]
  tauto

theorem run_of_renews (ho : o.Renews) : (r.operate o).2.machine.run = .running := by
  cases o with
  | reset => exact congrArg Machine.run (reset_eq_powerOn r.machine)
  | insert c => exact congrArg Machine.run (insert_eq_powerOn r.machine c)
  | load image =>
    obtain ⟨c, _, hload⟩ := operate_load_of_fits ho r
    rw [hload]
    exact congrArg Machine.run (insert_eq_powerOn r.machine c)
  | _ => exact ho.elim

/-- All that is left of what was done to a machine that was halted: keys, timers and the mark on the
screen. -/
structure Stands (r q : Runner) : Prop where
  machine : q.machine.bare = r.machine.bare
  source : q.source = r.source
  lastFault? : q.lastFault? = r.lastFault?

theorem stands_refl (r : Runner) : Stands r r :=
  ⟨rfl, rfl, rfl⟩

theorem Stands.trans {p q : Runner} (h : Stands r p) (h' : Stands p q) : Stands r q :=
  ⟨h'.machine.trans h.machine, h'.source.trans h.source, h'.lastFault?.trans h.lastFault?⟩

theorem Stands.run {q : Runner} (h : Stands r q) : q.machine.run = r.machine.run :=
  (congrArg Machine.run h.machine :)

/-- The frame of a halted machine closes at once. -/
theorem frame_of_halted (hh : r.machine.isHalted = true) :
    r.frame = (.ok (r.close 0).1, (r.close 0).2) := by
  have hwork := work_of_halted hh
  have hend : r.work.1 = none := by rw [hwork]
  rw [frame_of_work_none hend, hwork, Nat.sub_self]

theorem stands_frame (hr : r.machine.run = .halted e) : Stands r r.frame.2 := by
  rw [frame_of_halted (isHalted_of_run hr)]
  exact ⟨rfl, rfl, rfl⟩

theorem stands_runFrames (hr : r.machine.run = .halted e) (n : ℕ) (last : Option Frame) :
    Stands r (r.runFrames n last).2 := by
  apply runFrames_of (G := Stands r) _ (stands_refl r)
  intro q hq
  exact hq.trans (stands_frame (hq.run.trans hr))

/-- What the keys and the timers of a halted machine are fed, and a refused step, reach no more. -/
theorem stands_feed (hr : r.machine.run = .halted e) (i : Input) :
    Stands r (r.withState (feed r.state i)) := by
  cases i with
  | key x down =>
    simp only [feed, setKey, state]
    cases r.machine.keypad.setKey x down <;> exact ⟨rfl, rfl, rfl⟩
  | releaseAll => exact ⟨rfl, rfl, rfl⟩
  | tick => exact ⟨rfl, rfl, rfl⟩
  | step =>
    have hstep : r.machine.step r.source = ⟨some (.fault (.halted e)), r.machine, r.source⟩ := by
      simp only [step, hr]
    simp only [feed, state, hstep]
    exact ⟨rfl, rfl, rfl⟩

/-- Nothing else reaches a machine that is halted. -/
theorem stands_operate (hr : r.machine.run = .halted e) (ho : ¬ o.Renews) :
    Stands r (r.operate o).2 := by
  cases o with
  | frame => exact stands_frame hr
  | frames count => exact stands_runFrames hr count none
  | setBudget x => exact ⟨rfl, rfl, rfl⟩
  | input i => exact stands_feed hr i
  | load image =>
    obtain ⟨f, hload, _⟩ := operate_load_of_not_fits ho r
    rw [hload]
    exact stands_refl r
  | reset => exact absurd trivial ho
  | insert c => exact absurd trivial ho

/-- A machine is halted by a single step, or in a frame, which puts the fault on record. -/
theorem halts_operate (hh : r.machine.isHalted = false)
    (hr : (r.operate o).2.machine.run = .halted e) :
    r.HaltsAside o e ∨ (r.operate o).2.lastFault? = some e := by
  have hrecorded := recorded_of_not_halted hh
  by_cases ho : o.Renews
  · simp [run_of_renews ho] at hr
  cases o with
  | frame => exact .inr (recorded_frame_iff.mpr hrecorded e hr)
  | frames count =>
    exact .inr (runFrames_of (fun _ => recorded_frame_iff.mpr) hrecorded count none e hr)
  | setBudget x => exact .inr (hrecorded e hr)
  | input i =>
    by_cases hi : i = .step
    · subst hi
      have hhalt := (stepped_step r.machine r.source).haltFault? hh
      have hfault? : (r.machine.step r.source).machine.haltFault? = some e :=
        haltFault?_eq_some_iff.mpr hr
      rw [hfault?, eq_comm, Option.bind_eq_some_iff] at hhalt
      obtain ⟨failure, hf, hfault⟩ := hhalt
      rw [Failure.fault?_eq_some_iff.mp hfault] at hf
      exact .inl ⟨rfl, hh, hf⟩
    · exact .inr (hrecorded e ((run_feed hi).symm.trans hr))
  | load image =>
    obtain ⟨f, hload, _⟩ := operate_load_of_not_fits ho r
    rw [hload] at hr
    exact .inr (hload ▸ hrecorded e hr)
  | reset => exact absurd trivial ho
  | insert c => exact absurd trivial ho

theorem HaltsAside.run (h : r.HaltsAside o e) : (r.operate o).2.machine.run = .halted e := by
  obtain ⟨rfl, hh, hf⟩ := h
  have hhalt := (stepped_step r.machine r.source).haltFault? hh
  rw [hf] at hhalt
  exact haltFault?_eq_some_iff.mp hhalt

theorem HaltedAside.run (h : HaltedAside r ops e) : (r.run ops).machine.run = .halted e := by
  induction ops using List.reverseRecOn with
  | nil =>
    rcases h with h | h
    · exact absurd h not_since_nil
    · exact h.1
  | append_singleton ops o ih =>
    rw [run_append_singleton]
    rcases haltedAside_concat.mp h with h | ⟨h, ho⟩
    · exact h.run
    · exact (stands_operate (ih h) ho).run.trans (ih h)

/-- A halt that is not on record came from aside. -/
theorem haltedAside_or_recorded (hr : (r.run ops).machine.run = .halted e) :
    HaltedAside r ops e ∨ (r.run ops).lastFault? = some e := by
  induction ops using List.reverseRecOn with
  | nil => exact .inl (.inr ⟨hr, by simp⟩)
  | append_singleton ops o ih =>
    rw [run_append_singleton] at hr ⊢
    rw [haltedAside_concat]
    by_cases ho : o.Renews
    · simp [run_of_renews ho] at hr
    · cases hh : (r.run ops).machine.isHalted with
      | false => exact (halts_operate hh hr).imp_left .inl
      | true =>
        -- it was halted before, and neither the halt nor the record changed
        obtain ⟨e', he'⟩ := exists_of_isHalted hh
        have hstands := stands_operate he' ho
        obtain rfl : e' = e := RunState.halted.inj ((hstands.run.trans he').symm.trans hr)
        rw [hstands.lastFault?]
        exact (ih he').imp_left fun h => .inr ⟨h, ho⟩

theorem recorded_run_iff :
    Recorded (r.run ops) ↔ ∀ e, HaltedAside r ops e → (r.run ops).lastFault? = some e := by
  constructor
  · intro h e he
    exact h e he.run
  · intro h e he
    exact (haltedAside_or_recorded he).elim (h e) id

/-- Whatever was done before, a frame has the very fault that its machine is halted with, and none
if it is not halted, exactly if a halt from aside finds its fault on record. No frame puts it
there. -/
theorem halt_told_iff (h : ((r.run ops).operate o).1 = .ok (some f)) :
    f.fault? = ((r.run ops).operate o).2.machine.haltFault? ↔
      ∀ e, HaltedAside r ops e → (r.run ops).lastFault? = some e := by
  rw [← recorded_run_iff]
  cases o with
  | frame =>
    have hframe : (r.run ops).frame.1 = .ok f := by
      cases hanswer : (r.run ops).frame.1 with
      | error failure => simp [operate, hanswer, Except.map] at h
      | ok g => simpa [operate, hanswer, Except.map] using h
    exact frame_tells_iff hframe
  | frames count => exact runFrames_tells_iff count (by simp) h
  | input i =>
    simp only [operate] at h
    split at h <;> cases h
  | load image =>
    simp only [operate] at h
    split at h <;> cases h
  | _ => cases h

/-! A return without a call, in a frame. -/

def stuck : Runner :=
  make (powerOn .standard (some ⟨#[0x00, 0xee], "return", by decide, by decide⟩)) (.seeded 0)
    (some 1) .record 0 false

theorem operate_frame_of_fault {n : ℕ} (hb : r.budget = some (n + 1))
    (hh : r.machine.isHalted = false)
    (hf : (r.machine.step r.source).failure? = some (.fault e)) :
    (r.operate .frame).2.machine.run = .halted e ∧ (r.operate .frame).2.lastFault? = some e := by
  have hfailure : failureAt r.begun.state 1 = some (.fault e) := hf
  have hlast : r.frame.2.lastFault? = some e := by
    rw [(frame_keeps r).2, work_of_not_halted hb hh, steps_succ_of_some hfailure]
    rfl
  exact ⟨haltFault?_eq_some_iff.mp ((recorded_frame hh).symm.trans hlast), hlast⟩

/-- A frame of a halted machine tells what is on record. -/
theorem operate_frame_of_halted (hr : r.machine.run = .halted e) :
    ∃ f, (r.operate .frame).1 = .ok (some f) ∧ f.fault? = r.lastFault? ∧
      (r.operate .frame).2.machine.haltFault? = some e := by
  have hframe := congrArg Prod.fst (frame_of_halted (isHalted_of_run hr))
  have hhalt : r.frame.2.machine.haltFault? = some e :=
    haltFault?_eq_some_iff.mpr ((stands_frame hr).run.trans hr)
  exact ⟨_, congrArg (Except.map some) hframe, rfl, hhalt⟩

theorem operate_stuck :
    (stuck.operate .frame).2.machine.run = .halted .stackUnderflow ∧
      (stuck.operate .frame).2.lastFault? = some .stackUnderflow := by
  have hreads : stuck.machine.Reads .ret := reads_of_image rfl rfl trivial (by decide)
  have hstep := step_of_fault? (s := stuck.source) (f := .stackUnderflow) rfl hreads rfl
  have hb : stuck.budget = some (0 + 1) := rfl
  exact operate_frame_of_fault hb rfl (congrArg Outcome.failure? hstep)

theorem halt_told_stuck :
    ∃ f, ((stuck.run [.frame]).operate .frame).1 = .ok (some f) ∧
      f.fault? = ((stuck.run [.frame]).operate .frame).2.machine.haltFault? := by
  have hr : (stuck.run [.frame]).machine.run = .halted .stackUnderflow := by
    rw [run_cons, run_nil]
    exact operate_stuck.1
  obtain ⟨f, hf, _⟩ := operate_frame_of_halted hr
  refine ⟨f, hf, (halt_told_iff hf).mpr ?_⟩
  intro e he
  have hlast : HaltedAside stuck ([] ++ [.frame]) e := he
  rcases haltedAside_concat.mp hlast with ⟨hstep, _⟩ | ⟨hbefore, _⟩
  · cases hstep
  · have := isHalted_of_run hbefore.run
    simp [stuck, make, run, powerOn, isHalted] at this

/-! Then a program of a jump to a call of machine code, step by step. -/

def jumpToCall : Array UInt8 :=
  #[0x12, 0x02, 0x00, 0x00]

/-- The second step of the program is refused. -/
theorem run_two_steps (r : Runner) {m : Machine}
    (hm : m.memory = Memory.initial.withProgram jumpToCall) (hpc : m.pc = 0x200)
    (hr : m.run = .running) :
    let q := { r with machine := m }.run [.input .step, .input .step]
    q.machine.run = .halted (.unsupportedInstruction (Float.ofNat 0) (Float.ofNat 0x202)) ∧
      q.lastFault? = r.lastFault? := by
  have hjump : (Instruction.jump 0x202).InRange := show 0x202 < 4096 by decide
  have hcall : (Instruction.machineCall 0).InRange := ⟨by decide, by decide, by decide⟩
  have hfirst := step_of_rolled (s := r.source) hr (reads_of_image hm hpc hjump (by decide)) rfl rfl
  refine ⟨?_, rfl⟩
  change ((m.step r.source).machine.step (m.step r.source).source).machine.run = _
  rw [hfirst]
  generalize hq : ((m.fetched m.opcode).apply (.jump 0x202) 0).counted = q
  have hqr : q.run = .running := by rw [← hq]; exact hr
  have hqpc : q.pc.toNat = 0x200 + 2 := by rw [← hq]; rfl
  have hqm : q.memory = Memory.initial.withProgram jumpToCall := by rw [← hq]; exact hm
  have hreads := reads_of_image_at hqm hqpc (by decide) hcall (by decide)
  rw [step_of_fault? hqr hreads rfl, hqpc]
  rfl

/-- What is done aside: the program is put in and takes two steps. -/
def aside : List Operation :=
  [.load jumpToCall, .input .step, .input .step]

theorem run_aside (r : Runner) :
    (r.run aside).machine.run =
        .halted (.unsupportedInstruction (Float.ofNat 0) (Float.ofNat 0x202)) ∧
      (r.run aside).lastFault? = r.lastFault? := by
  let c : Cartridge := ⟨jumpToCall, Cartridge.defaultName, by decide, by decide⟩
  have hmake : Cartridge.make jumpToCall Cartridge.defaultName = .ok c := rfl
  have hload : (r.operate (.load jumpToCall)).2 = { r with machine := r.machine.insert c } := by
    simp only [operate, loadImage, hmake, ok_bind, pure, Except.pure]
  have hnew := insert_eq_powerOn r.machine c
  rw [aside, run_cons, hload]
  refine run_two_steps r ?_ ?_ ?_
  · simp only [hnew, powerOn, c]
  · simp only [hnew, powerOn]
    rfl
  · simp only [hnew, powerOn]

/-- The fault in the frame stays on record while the steps aside come to another one. -/
theorem frame_stuck :
    ∃ f, ((stuck.run (.frame :: aside)).operate .frame).1 = .ok (some f) ∧
      f.fault? = some .stackUnderflow ∧
      ((stuck.run (.frame :: aside)).operate .frame).2.machine.haltFault? =
        some (.unsupportedInstruction (Float.ofNat 0) (Float.ofNat 0x202)) := by
  obtain ⟨hrun, hlast⟩ := run_aside (stuck.operate .frame).2
  obtain ⟨f, hf, hfault, hhalt⟩ := operate_frame_of_halted hrun
  rw [run_cons]
  exact ⟨f, hf, hfault.trans (hlast.trans operate_stuck.2), hhalt⟩

theorem untold_after_load :
    ¬ ∀ (r : Runner) (ops : List Operation) (o : Operation) (f : Frame),
      ((r.run ops).operate o).1 = .ok (some f) →
        f.fault? = ((r.run ops).operate o).2.machine.haltFault? := by
  intro h
  obtain ⟨f, hf, hfault, hhalt⟩ := frame_stuck
  have := h stuck (.frame :: aside) .frame f hf
  simp [hfault, hhalt] at this

end Runner

end Chip8
