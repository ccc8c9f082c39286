import Chip8.Proofs.Machine.KeyWait
import Chip8.Proofs.Runner.Frames

/-! What is done to a runner in the course of a run, and what comes back. -/
namespace Chip8

namespace Machine

/-- Why an input failed, if it did. -/
def inputFailure? (p : Machine × Source) : Input → Option Failure
  | .key x down =>
    match p.1.setKey x down with
    | .ok _ => none
    | .error f => some (.fault f)
  | .step => (p.1.step p.2).failure?
  | _ => none

/-- Whatever a program does, and whatever happens to the parts that a frame and the keys reach, the
property of a machine with its source lasts. -/
structure Steadfast (G : Machine × Source → Prop) : Prop where
  next : ∀ {p : Machine × Source}, G p → G (next p)
  withKeypad : ∀ {m : Machine} {s : Source} (keypad : Keypad), G (m, s) → G ({ m with keypad }, s)
  withTimers : ∀ {m : Machine} {s : Source} (timers : Timers), G (m, s) → G ({ m with timers }, s)
  withDisplay : ∀ {m : Machine} {s : Source} (display : Display),
    G (m, s) → G ({ m with display }, s)

/-- Whatever happens to a machine in the course of a run, the property lasts. -/
structure Permanent (G : Machine × Source → Prop) : Prop extends Steadfast G where
  reset : ∀ {m : Machine} {s : Source}, G (m, s) → G (m.reset, s)
  insert : ∀ {m : Machine} {s : Source} (c : Cartridge), G (m, s) → G (m.insert c, s)

/-- The property lasts as a steadfast one does, whatever the random numbers are. -/
structure Steady (P : Machine → Prop) : Prop where
  step : ∀ {m : Machine} (s : Source), P m → P (m.step s).machine
  withKeypad : ∀ {m : Machine} (keypad : Keypad), P m → P { m with keypad }
  withTimers : ∀ {m : Machine} (timers : Timers), P m → P { m with timers }
  withDisplay : ∀ {m : Machine} (display : Display), P m → P { m with display }

/-- The property lasts as a permanent one does, whatever the random numbers are. -/
structure Enduring (P : Machine → Prop) : Prop extends Steady P where
  reset : ∀ {m : Machine}, P m → P m.reset
  insert : ∀ {m : Machine} (c : Cartridge), P m → P (m.insert c)

variable {G : Machine × Source → Prop} {P : Machine → Prop} {p : Machine × Source}

theorem Steady.steadfast (hP : Steady P) : Steadfast fun p => P p.1 where
  next h := hP.step _ h
  withKeypad keypad h := hP.withKeypad keypad h
  withTimers timers h := hP.withTimers timers h
  withDisplay display h := hP.withDisplay display h

theorem Enduring.permanent (hP : Enduring P) : Permanent fun p => P p.1 where
  toSteadfast := hP.toSteady.steadfast
  reset h := hP.reset h
  insert c h := hP.insert c h

theorem Steadfast.iterate (hG : Steadfast G) (h : G p) (j : ℕ) : G (Machine.next^[j] p) := by
  induction j with
  | zero => exact h
  | succ j ih =>
    rw [Function.iterate_succ_apply']
    exact hG.next ih

theorem Steady.iterate (hP : Steady P) (h : P p.1) (j : ℕ) : P (next^[j] p).1 :=
  hP.steadfast.iterate h j

theorem Steadfast.feed (hG : Steadfast G) (h : G p) (e : Input) : G (feed p e) := by
  cases e with
  | key x down =>
    simp only [Machine.feed, setKey]
    cases p.1.keypad.setKey x down with
    | error f => exact h
    | ok keypad => exact hG.withKeypad keypad h
  | releaseAll => exact hG.withKeypad _ h
  | tick => exact hG.withTimers _ h
  | step => exact hG.next h

theorem Steady.feed (hP : Steady P) (h : P p.1) (e : Input) : P (feed p e).1 :=
  hP.steadfast.feed h e

end Machine

namespace Runner

open Machine

inductive Operation where
  | frame
  | frames (count : ℕ)
  | setBudget (x : Float)
  | input (e : Input)
  | reset
  | insert (c : Cartridge)
  | load (image : Array UInt8)

def withState (r : Runner) (p : Machine × Source) : Runner :=
  { r with machine := p.1, source := p.2 }

/-- What an operation answers, which may be a frame or a failure, and the runner after it. -/
def operate (r : Runner) : Operation → Except Failure (Option Frame) × Runner
  | .frame => (r.frame.1.map some, r.frame.2)
  | .frames count => r.runFrames count none
  | .setBudget x => (.ok none, { r with budget := Budget.ofNumber x })
  | .input e =>
    (match inputFailure? r.state e with
      | some failure => .error failure
      | none => .ok none,
      r.withState (feed r.state e))
  | .reset => (.ok none, { r with machine := r.machine.reset })
  | .insert c => (.ok none, { r with machine := r.machine.insert c })
  | .load image =>
    match r.machine.loadImage image with
    | .ok machine => (.ok none, { r with machine })
    | .error f => (.error (.fault f), r)

def run (r : Runner) (ops : List Operation) : Runner :=
  ops.foldl (fun r o => (r.operate o).2) r

variable {G : Machine × Source → Prop} {P : Machine → Prop} {r : Runner} {o : Operation}

theorem run_nil (r : Runner) : r.run [] = r :=
  rfl

theorem run_cons (r : Runner) (o : Operation) (ops : List Operation) :
    r.run (o :: ops) = (r.operate o).2.run ops :=
  rfl

theorem run_append_singleton (r : Runner) (ops : List Operation) (o : Operation) :
    r.run (ops ++ [o]) = ((r.run ops).operate o).2 := by
  simp [run]

/-- Frames, as many as are run, keep what one frame keeps. -/
theorem runFrames_of {G : Runner → Prop} (hframe : ∀ r, G r → G r.frame.2) (h : G r) (n : ℕ)
    (last : Option Frame) : G (r.runFrames n last).2 := by
  induction n generalizing r last with
  | zero => exact h
  | succ n ih =>
    have hnext := hframe r h
    unfold runFrames
    split
    case h_1 q hq =>
      rw [hq] at hnext
      exact hnext
    case h_2 f q hq =>
      rw [hq] at hnext
      split
      · exact hnext
      · exact ih hnext _

theorem steadfast_frame (hG : Steadfast G) (h : G r.state) : G r.frame.2.state := by
  obtain ⟨j, hj⟩ := work_state r
  have hwork : G r.work.2.state := by
    rw [hj]
    exact hG.iterate h j
  cases hend : r.work.1 with
  | some e => rwa [frame_of_work_some hend]
  | none =>
    rw [frame_of_work_none hend]
    exact hG.withDisplay _ (hG.withTimers _ hwork)

theorem steadfast_runFrames (hG : Steadfast G) (h : G r.state) (n : ℕ) (last : Option Frame) :
    G (r.runFrames n last).2.state :=
  runFrames_of (G := fun r => G r.state) (fun _ => steadfast_frame hG) h n last

theorem steady_frame (hP : Steady P) (h : P r.machine) : P r.frame.2.machine :=
  steadfast_frame (r := r) hP.steadfast h

theorem steady_runFrames (hP : Steady P) (h : P r.machine) (n : ℕ) (last : Option Frame) :
    P (r.runFrames n last).2.machine :=
  steadfast_runFrames (r := r) hP.steadfast h n last

theorem operate_load_of_fits {image : Array UInt8} (h : 1 ≤ image.size ∧ image.size ≤ 3584)
    (r : Runner) :
    ∃ c, Cartridge.make image Cartridge.defaultName = .ok c ∧
      r.operate (.load image) = r.operate (.insert c) := by
  obtain ⟨c, hc⟩ := Cartridge.make_of_fits h Cartridge.defaultName
  refine ⟨c, hc, ?_⟩
  simp only [operate, loadImage, hc, ok_bind, pure, Except.pure]

theorem operate_load_of_not_fits {image : Array UInt8}
    (h : ¬ (1 ≤ image.size ∧ image.size ≤ 3584)) (r : Runner) :
    ∃ f, r.operate (.load image) = (.error (.fault f), r) ∧ f.family = "RomLoadError" ∧
      f.fatal = false := by
  obtain ⟨f, hf, hfamily, hfatal⟩ := Cartridge.make_of_not_fits h Cartridge.defaultName
  refine ⟨f, ?_, hfamily, hfatal⟩
  simp only [operate, loadImage, hf, error_bind]

theorem state_withMachine (r : Runner) (m : Machine) :
    { r with machine := m }.state = (m, r.source) :=
  rfl

theorem permanent_insert (hG : Permanent G) (h : G r.state) (c : Cartridge) :
    G (r.operate (.insert c)).2.state := by
  rw [operate, state_withMachine]
  exact hG.insert c h

theorem permanent_operate (hG : Permanent G) (h : G r.state) (o : Operation) :
    G (r.operate o).2.state := by
  cases o with
  | frame => exact steadfast_frame hG.toSteadfast h
  | frames count => exact steadfast_runFrames hG.toSteadfast h count none
  | setBudget x => exact h
  | input e => exact hG.feed h e
  | reset => exact hG.reset h
  | insert c => exact permanent_insert hG h c
  | load image =>
    by_cases hfits : 1 ≤ image.size ∧ image.size ≤ 3584
    · obtain ⟨c, _, hload⟩ := operate_load_of_fits hfits r
      rw [hload]
      exact permanent_insert hG h c
    · obtain ⟨f, hload, _⟩ := operate_load_of_not_fits hfits r
      rwa [hload]

theorem permanent_run (hG : Permanent G) (h : G r.state) (ops : List Operation) :
    G (r.run ops).state := by
  induction ops using List.reverseRecOn with
  | nil => exact h
  | append_singleton ops o ih =>
    rw [run_append_singleton]
    exact permanent_operate hG ih o

theorem enduring_operate (hP : Enduring P) (h : P r.machine) (o : Operation) :
    P (r.operate o).2.machine :=
  permanent_operate (r := r) hP.permanent h o

theorem enduring_run (hP : Enduring P) (h : P r.machine) (ops : List Operation) :
    P (r.run ops).machine :=
  permanent_run (r := r) hP.permanent h ops

end Runner

end Chip8
