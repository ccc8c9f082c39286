import Chip8.Proofs.Runner.Operations

/-! All that is done to a runner in the course of a run, writes from outside included, and what it
answers. The random numbers to come are all that a source adds to it. -/
namespace Chip8

/-- Two sources that return the same from now on. -/
def Source.Alike (s t : Source) : Prop :=
  ∀ i, s.results (s.used + i) = t.results (t.used + i)

variable {s t : Source}

theorem Source.Alike.next (h : s.Alike t) : s.next.2.Alike t.next.2 := by
  intro i
  have hnext := h (i + 1)
  rwa [Nat.add_comm i 1, ← Nat.add_assoc, ← Nat.add_assoc] at hnext

def Outcome.withSource (o : Outcome) (t : Source) : Outcome :=
  { o with source := t }

namespace Machine

theorem settle_withSource (o : Outcome) (t : Source) :
    settle (o.withSource t) = (settle o).withSource t := by
  rcases o with ⟨_ | e, m, s⟩
  · rfl
  · cases e <;> rfl

theorem source_settle (o : Outcome) : (settle o).source = o.source := by
  rcases o with ⟨_ | e, m, s⟩
  · rfl
  · cases e <;> rfl

theorem execute_alike (h : s.Alike t) (m : Machine) (i : Instruction ℕ) :
    ∃ u, m.execute t i = (m.execute s i).withSource u ∧ (m.execute s i).source.Alike u := by
  unfold execute
  cases rowsFailure? i with
  | some f => exact ⟨t, rfl, h⟩
  | none =>
    cases i with
    | random x nn =>
      have hnow : t.results t.used = s.results s.used := (h 0).symm
      simp only [Source.next, hnow]
      cases s.results s.used with
      | error failure => exact ⟨_, rfl, h.next⟩
      | ok x => exact ⟨_, rfl, h.next⟩
    | _ => exact ⟨t, rfl, h⟩

theorem fetchAndExecute_alike (h : s.Alike t) (m : Machine) :
    ∃ u, m.fetchAndExecute t = (m.fetchAndExecute s).withSource u ∧
      (m.fetchAndExecute s).source.Alike u := by
  unfold fetchAndExecute
  cases m.memory.readWord (m.pc.toNat : ℤ) with
  | error f => exact ⟨t, rfl, h⟩
  | ok word =>
    cases hi : Instruction.ofWord? word.toNat with
    | none =>
      simp only [hi]
      exact ⟨t, rfl, h⟩
    | some i =>
      obtain ⟨u, hexecute, hu⟩ := execute_alike h { m with lastPc := m.pc, lastOpcode := word } i
      refine ⟨u, ?_, ?_⟩
      · simp only [hi, hexecute, settle_withSource]
      · simpa only [hi, source_settle] using hu

/-- A step from sources that are alike does the same and leaves sources that are alike. -/
theorem step_alike (h : s.Alike t) (m : Machine) :
    ∃ u, m.step t = (m.step s).withSource u ∧ (m.step s).source.Alike u := by
  unfold step
  cases m.run with
  | running => exact fetchAndExecute_alike h m
  | awaitingKey register => exact ⟨t, rfl, h⟩
  | halted f => exact ⟨t, rfl, h⟩

end Machine

namespace Runner

open Machine

def withSource (r : Runner) (t : Source) : Runner :=
  { r with source := t }

@[simp] theorem machine_withSource (r : Runner) (t : Source) :
    (r.withSource t).machine = r.machine :=
  rfl

/-- The same answer, and the same runner behind it but for a source that is alike. -/
def Agree {α : Type} (a b : α × Runner) : Prop :=
  ∃ t, b = (a.1, a.2.withSource t) ∧ a.2.source.Alike t

variable {r : Runner}

theorem traced_withSource (r : Runner) (t : Source) :
    (r.withSource t).traced = r.traced.withSource t := by
  have hdue : (r.withSource t).traceDue = r.traceDue := rfl
  unfold traced
  rw [hdue]
  split <;> rfl

theorem failureAt_withSource (h : r.source.Alike t) :
    failureAt (r.withSource t).state 1 = failureAt r.state 1 := by
  obtain ⟨u, hstep, _⟩ := step_alike h r.machine
  rw [failureAt_one, failureAt_one]
  exact (congrArg Outcome.failure? hstep :)

theorem stepped_withSource (h : r.source.Alike t) :
    ∃ u, (∀ trace, (r.withSource t).stepped trace = (r.stepped trace).withSource u) ∧
      (next r.state).2.Alike u := by
  obtain ⟨u, hstep, hu⟩ := step_alike h r.machine
  refine ⟨u, ?_, hu⟩
  intro trace
  simp only [stepped, state, next, withSource, hstep]
  rfl

theorem traceBehind_withSource (h : r.source.Alike t) :
    (r.withSource t).traceBehind = r.traceBehind := by
  obtain ⟨u, hstepped, _⟩ := stepped_withSource h
  have hmachine : (next (r.withSource t).state).1 = (next r.state).1 :=
    congrArg Runner.machine (hstepped #[])
  simp only [traceBehind, hmachine, hstepped, traced_withSource]
  rfl

theorem steps_agree (h : r.source.Alike t) (n : ℕ) :
    Agree (steps n r) (steps n (r.withSource t)) := by
  induction n generalizing r t with
  | zero => exact ⟨t, rfl, h⟩
  | succ n ih =>
    have hfailure := failureAt_withSource h
    obtain ⟨u, hstepped, hu⟩ := stepped_withSource h
    cases hf : failureAt r.state 1 with
    | some e =>
      rw [steps_succ_of_some hf, steps_succ_of_some (hfailure.trans hf), hstepped]
      exact ⟨u, rfl, hu⟩
    | none =>
      rw [steps_succ_of_none hf, steps_succ_of_none (hfailure.trans hf), hstepped,
        traceBehind_withSource h, machine_withSource]
      split
      · exact ⟨u, rfl, hu⟩
      · exact ih hu

theorem work_agree (h : r.source.Alike t) : Agree r.work (r.withSource t).work := by
  unfold work
  rw [machine_withSource]
  split
  · exact ⟨t, rfl, h⟩
  · exact steps_agree (r := { r with lastFault? := none }) h _

theorem frame_agree (h : r.source.Alike t) : Agree r.frame (r.withSource t).frame := by
  obtain ⟨u, hwork, hu⟩ := work_agree h
  unfold frame
  rw [hwork]
  generalize r.work = w at hu
  obtain ⟨_ | e, q⟩ := w
  · exact ⟨u, rfl, hu⟩
  · exact ⟨u, rfl, hu⟩

theorem runFrames_agree (h : r.source.Alike t) (n : ℕ) (last : Option Frame) :
    Agree (r.runFrames n last) ((r.withSource t).runFrames n last) := by
  induction n generalizing r t last with
  | zero => exact ⟨t, rfl, h⟩
  | succ n ih =>
    obtain ⟨u, hframe, hu⟩ := frame_agree h
    unfold runFrames
    rw [hframe]
    rcases hr : r.frame with ⟨e | f, q⟩
    · exact ⟨u, rfl, by rwa [hr] at hu⟩
    · rw [hr] at hu
      dsimp only
      split
      · exact ⟨u, rfl, hu⟩
      · exact ih hu _

theorem answer_agree {α : Type} (h : r.source.Alike t) (a : α) (m : Machine) :
    Agree (a, { r with machine := m }) (a, { r.withSource t with machine := m }) :=
  ⟨t, rfl, h⟩

theorem input_agree (h : r.source.Alike t) (e : Input) :
    Agree (r.operate (.input e)) ((r.withSource t).operate (.input e)) := by
  cases e with
  | key x down =>
    cases hkey : r.machine.setKey x down <;>
      simp only [operate, inputFailure?, state, machine_withSource, feed, hkey] <;>
      exact ⟨t, rfl, h⟩
  | releaseAll => exact ⟨t, rfl, h⟩
  | tick => exact ⟨t, rfl, h⟩
  | step =>
    obtain ⟨u, hstep, hu⟩ := step_alike h r.machine
    refine ⟨u, ?_, hu⟩
    simp only [operate, inputFailure?, state, feed, withSource, hstep]
    rfl

theorem operate_agree (h : r.source.Alike t) (o : Operation) :
    Agree (r.operate o) ((r.withSource t).operate o) := by
  cases o with
  | frame =>
    obtain ⟨u, hframe, hu⟩ := frame_agree h
    simp only [operate, hframe]
    exact ⟨u, rfl, hu⟩
  | frames count => exact runFrames_agree h count none
  | setBudget x => exact ⟨t, rfl, h⟩
  | input e => exact input_agree h e
  | reset => exact answer_agree h _ _
  | insert c => exact answer_agree h _ _
  | load image =>
    simp only [operate, machine_withSource]
    split
    · exact ⟨t, rfl, h⟩
    · exact ⟨t, rfl, h⟩

/-- Besides the operations, anything can be written from outside to the parts of a machine, and a
write may fail. Its dialect stays, and there is no other way to a cartridge than to put one in. -/
inductive Deed where
  | operation (o : Operation)
  | write (f : Machine → Except Failure Unit × Machine)

def enact (r : Runner) : Deed → Except Failure (Option Frame) × Runner
  | .operation o => r.operate o
  | .write f =>
    ((f r.machine).1.map fun _ => none,
      { r with
        machine :=
          { (f r.machine).2 with dialect := r.machine.dialect, cartridge := r.machine.cartridge } })

def after (r : Runner) (ds : List Deed) : Runner :=
  ds.foldl (fun r d => (r.enact d).2) r

/-- The answer to one deed after the other, and the machine to be looked at behind each. -/
def answers (r : Runner) : List Deed → List (Except Failure (Option Frame) × Machine)
  | [] => []
  | d :: ds => ((r.enact d).1, (r.enact d).2.machine) :: (r.enact d).2.answers ds

theorem enact_agree (h : r.source.Alike t) (d : Deed) :
    Agree (r.enact d) ((r.withSource t).enact d) := by
  cases d with
  | operation o => exact operate_agree h o
  | write f => exact answer_agree h _ _

/-- The numbers to come are all that the answers take from a source. -/
theorem answers_withSource (h : r.source.Alike t) (ds : List Deed) :
    (r.withSource t).answers ds = r.answers ds := by
  induction ds generalizing r t with
  | nil => rfl
  | cons d ds ih =>
    obtain ⟨u, henact, hu⟩ := enact_agree h d
    rw [answers, answers, henact, machine_withSource, ih hu]

end Runner

end Chip8
