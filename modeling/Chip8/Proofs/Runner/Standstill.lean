import Chip8.Proofs.Runner.Halts

/-! A machine that is halted stands still, and goes on telling the fault that it was halted with. -/
namespace Chip8

namespace Machine

variable {m : Machine} {s : Source} {o : Outcome} {i : Instruction ℕ} {c : Fault}

theorem results_of_rolled {e : Failure} {t : Source} (h : rolled s i = (.error e, t)) :
    s.results s.used = .error e := by
  cases i with
  | random x nn =>
    cases hs : s.results s.used with
    | error failure => simpa [rolled, Source.next, hs, Except.map] using congrArg Prod.fst h
    | ok x => simp [rolled, Source.next, hs, Except.map] at h
  | _ => simp [rolled] at h

/-- What a source hands out was settled from the start. -/
theorem results_rolled (s : Source) (i : Instruction ℕ) : (rolled s i).2.results = s.results := by
  cases i <;> rfl

theorem Stepped.results (h : Stepped m s o) : o.source.results = s.results := by
  cases h with
  | @unrolled i e t hr hi he =>
    have ht := results_rolled s i
    rw [he] at ht
    cases e <;> exact ht
  | @completed i roll t hr hi hf hroll =>
    have ht := results_rolled s i
    rwa [hroll] at ht
  | _ => rfl

/-- No instruction has the fault of a machine that is halted. -/
theorem fault?_ne_halted {f : Fault} (hi : i.InRange) (hf : m.fault? i = some f) (c : Fault) :
    f ≠ .halted c := by
  rintro rfl
  have hrefuses : m.Refuses i "cpu-halted" := (ofKind_fault?_iff hi).mp ⟨_, hf, rfl⟩
  generalize hk : "cpu-halted" = kind at hrefuses
  cases hrefuses <;> simp at hk

/-- What a machine refuses while it is halted halts one only if the source hands it out. -/
theorem Stepped.run_eq_halted_halted (h : Stepped m s o)
    (hc : o.machine.run = .halted (.halted c)) :
    m.run = .halted (.halted c) ∨ s.results s.used = .error (.fault (.halted c)) := by
  have hfail : o.failure? ≠ none := by
    intro hf
    have := h.isHalted hf
    simp [isHalted_of_run hc] at this
  cases h with
  | refused hr => exact .inl hc
  | polled hr => exact absurd rfl hfail
  | beyond hr => cases hc
  | unknown hr => cases hc
  | faulted hr hi hf => exact absurd (RunState.halted.inj hc) (fault?_ne_halted hi.2.1 hf c)
  | @unrolled i e t hr hi he =>
    cases e with
    | fault f =>
      obtain rfl : f = .halted c := RunState.halted.inj hc
      exact .inr (results_of_rolled he)
    | error name message => exact .inl hc
    | value v => exact .inl hc
  | completed hr => exact absurd rfl hfail

end Machine

namespace Runner

open Machine

variable {r : Runner} {e : Fault} {o : Operation} {ops : List Operation} {n : ℕ}

/-! The first cause. -/

/-- A source hands out what it did in `r`, and a machine is halted by the refusal of a halted one
only if that was handed out, or there already in `r`. -/
structure Candid (r : Runner) (p : Machine × Source) : Prop where
  results : p.2.results = r.source.results
  cause : ∀ c, p.1.run = .halted (.halted c) →
    r.machine.run = .halted (.halted c) ∨ ∃ i, r.source.results i = .error (.fault (.halted c))

theorem candid_of_run {p : Machine × Source} (hs : p.2.results = r.source.results)
    (hr : p.1.run = .running) : Candid r p := by
  refine ⟨hs, ?_⟩
  intro c hc
  simp [hr] at hc

theorem permanent_candid (r : Runner) : Permanent (Candid r) where
  next {p} h := by
    have hstepped := stepped_step p.1 p.2
    refine ⟨hstepped.results.trans h.results, ?_⟩
    intro c hc
    rcases hstepped.run_eq_halted_halted hc with hc | hs
    · exact h.cause c hc
    · exact .inr ⟨p.2.used, h.results ▸ hs⟩
  withKeypad _ h := ⟨h.results, h.cause⟩
  withTimers _ h := ⟨h.results, h.cause⟩
  withDisplay _ h := ⟨h.results, h.cause⟩
  reset {m s} h := candid_of_run h.results (congrArg Machine.run (reset_eq_powerOn m))
  insert {m s} c h := candid_of_run h.results (congrArg Machine.run (insert_eq_powerOn m c))

theorem candid_run (r : Runner) (ops : List Operation) : Candid r (r.run ops).state :=
  permanent_run (permanent_candid r) ⟨rfl, fun _ hc => .inl hc⟩ ops

/-! Frames of a halted machine. -/

def Operation.TakesFrames : Operation → Prop
  | .frame => True
  | .frames _ => True
  | _ => False

/-- A frame, or one of some frames, halts the machine. -/
def HaltsInFrame (r : Runner) (o : Operation) (e : Fault) : Prop :=
  o.TakesFrames ∧ r.machine.isHalted = false ∧ (r.operate o).2.machine.run = .halted e

/-- A frame halted the machine, and nothing made it run since. -/
def HaltedInFrame (r : Runner) (ops : List Operation) (e : Fault) : Prop :=
  Since (fun before o => (r.run before).HaltsInFrame o e) (fun o => ¬ o.Renews) ops

theorem haltedInFrame_singleton (h : r.HaltsInFrame o e) : HaltedInFrame r [o] e :=
  ⟨[], o, [], rfl, h, by simp⟩

theorem HaltsInFrame.lastFault? (h : r.HaltsInFrame o e) :
    (r.operate o).2.lastFault? = some e := by
  obtain ⟨ho, hh, hr⟩ := h
  rcases halts_operate hh hr with ⟨rfl, _⟩ | hlast
  · exact ho.elim
  · exact hlast

theorem HaltedInFrame.recorded (h : HaltedInFrame r ops e) :
    (r.run ops).machine.run = .halted e ∧ (r.run ops).lastFault? = some e := by
  induction ops using List.reverseRecOn with
  | nil => exact absurd h not_since_nil
  | append_singleton ops o ih =>
    rw [run_append_singleton]
    rcases since_concat.mp h with h | ⟨h, ho⟩
    · exact ⟨h.2.2, h.lastFault?⟩
    · obtain ⟨hr, hlast⟩ := ih h
      have hstands := stands_operate hr ho
      exact ⟨hstands.run.trans hr, hstands.lastFault?.trans hlast⟩

theorem stands_run (hr : r.machine.run = .halted e) (hops : ∀ o ∈ ops, ¬ o.Renews) :
    Stands r (r.run ops) := by
  induction ops using List.reverseRecOn with
  | nil => exact stands_refl r
  | append_singleton ops o ih =>
    rw [List.forall_mem_append, List.forall_mem_singleton] at hops
    have hstands := ih hops.1
    rw [run_append_singleton]
    exact hstands.trans (stands_operate (hstands.run.trans hr) hops.2)

/-- With a fault on record, the first of some frames of a halted machine is the last. -/
theorem runFrames_of_halted (hh : r.machine.isHalted = true) (hl : r.lastFault?.isSome = true)
    (last : Option Frame) :
    r.runFrames (n + 1) last = (.ok (some (r.close 0).1), (r.close 0).2) := by
  have hfault : (r.close 0).1.fault?.isSome = true := hl
  simp only [runFrames, frame_of_halted hh, hfault, if_true]

/-- Whatever is done to a halted machine but to make it run again, only keys, timers and the mark on
the screen are reached by it. A step answers with the fault of the halt and changes nothing; that
fault is no such answer itself, unless the source handed one out or it was there in `r`. A frame
executes nothing and ticks the timers. If the halt came in a frame, each frame tells it, and of some
frames only one is run. -/
theorem halt_lasts (r : Runner) (before later : List Operation) (e : Fault)
    (hr : (r.run before).machine.run = .halted e) (hlater : ∀ o ∈ later, ¬ o.Renews) :
    let p := r.run before
    let q := p.run later
    q.machine.bare = p.machine.bare ∧
      q.operate (.input .step) = (.error (.fault (.halted e)), q) ∧
      (∀ c, e = .halted c →
        r.machine.run = .halted e ∨ ∃ i, r.source.results i = .error (.fault e)) ∧
      ∃ f q', q.operate .frame = (.ok (some f), q') ∧ f.executed = 0 ∧
        q'.machine.timers.delay.toNat = q.machine.timers.delay.toNat - 1 ∧
        q'.machine.timers.sound.toNat = q.machine.timers.sound.toNat - 1 ∧
        q'.frames = q.frames + 1 ∧
        (HaltedInFrame r before e →
          f.fault? = some e ∧ ∀ n, q.operate (.frames (n + 1)) = (.ok (some f), q')) := by
  intro p q
  have hstands : Stands p q := stands_run hr hlater
  have hq : q.machine.run = .halted e := hstands.run.trans hr
  have hh := isHalted_of_run hq
  have hstep : q.machine.step q.source = ⟨some (.fault (.halted e)), q.machine, q.source⟩ := by
    simp only [step, hq]
  refine ⟨hstands.machine, ?_, ?_, (q.close 0).1, (q.close 0).2, ?_, rfl, ?_, ?_, rfl, ?_⟩
  · simp only [operate, inputFailure?, feed, state, hstep]
    rfl
  · rintro c rfl
    exact (candid_run r before).cause c hr
  · simp only [operate, frame_of_halted hh]
    rfl
  · exact Timers.toNat_countDown _
  · exact Timers.toNat_countDown _
  · intro hframe
    have hlast : q.lastFault? = some e := hstands.lastFault?.trans hframe.recorded.2
    refine ⟨hlast, ?_⟩
    intro n
    exact runFrames_of_halted hh (by rw [hlast]; rfl) none

/-- What is done to a machine that is halted: a step, a key that is pressed, and frames. -/
def pokes : List Operation :=
  [.input .step, .input (.key 5 true), .frames 3, .frame]

/-- A return without a call halts the machine in a frame. -/
theorem halt_lasts_stuck :
    let p := stuck.run [.frame]
    let q := p.run pokes
    p.machine.run = .halted .stackUnderflow ∧ (∀ o ∈ pokes, ¬ o.Renews) ∧
      HaltedInFrame stuck [.frame] .stackUnderflow ∧ q.machine.bare = p.machine.bare ∧
      q.operate (.input .step) = (.error (.fault (.halted .stackUnderflow)), q) ∧
      ∃ f q', q.operate .frame = (.ok (some f), q') ∧ f.executed = 0 ∧
        f.fault? = some .stackUnderflow ∧ q.operate (.frames 4) = (.ok (some f), q') := by
  have hhalts : stuck.HaltsInFrame .frame .stackUnderflow := ⟨trivial, rfl, operate_stuck.1⟩
  have hframe : HaltedInFrame stuck [.frame] .stackUnderflow := haltedInFrame_singleton hhalts
  have hr := hframe.recorded.1
  have hpokes : ∀ o ∈ pokes, ¬ o.Renews := by simp [pokes, Operation.Renews]
  have hlasts := halt_lasts stuck [.frame] pokes .stackUnderflow hr hpokes
  dsimp only at hlasts ⊢
  obtain ⟨hbare, hstep, _, f, q', hanswer, hexecuted, _, _, _, htold⟩ := hlasts
  obtain ⟨hfault, hframes⟩ := htold hframe
  exact ⟨hr, hpokes, hframe, hbare, hstep, f, q', hanswer, hexecuted, hfault, hframes 3⟩

end Runner

end Chip8
