import Chip8.Proofs.Machine.Effects
import Chip8.Proofs.Runner.Interference
import Chip8.Proofs.Runner.Screen
import Chip8.Proofs.Runner.Standstill

/-! The timers over a run of frames, and the frames that tell of a tone. -/
namespace Chip8

inductive Timer where
  | delay
  | sound

namespace Timer

def level : Timer → Timers → UInt8
  | delay, t => t.delay
  | sound, t => t.sound

/-- The instruction that sets the timer from a register. -/
def setter : Timer → ℕ → Instruction ℕ
  | delay => .setDelay
  | sound => .setSound

variable {k : Timer}

theorem toNat_level_tick (k : Timer) (t : Timers) :
    (k.level t.tick).toNat = (k.level t).toNat - 1 := by
  cases k <;> exact Timers.toNat_countDown _

end Timer

namespace Machine

variable {m : Machine} {s : Source} {o : Outcome} {p : Machine × Source} {k : Timer} {x : ℕ}
  {i : Instruction ℕ}

/-- The next step sets the timer. -/
def Sets (m : Machine) (k : Timer) : Prop :=
  ∃ x, m.Executes (k.setter x)

theorem level_apply_setter (m : Machine) (k : Timer) (x : ℕ) (roll : UInt8) :
    k.level (m.apply (k.setter x) roll).timers = m.read (.of x) := by
  cases k <;> rfl

theorem level_apply (h : ∀ x, i ≠ k.setter x) (roll : UInt8) :
    k.level (m.apply i roll).timers = k.level m.timers := by
  by_contra hne
  cases k with
  | delay =>
    obtain ⟨x, hi⟩ := delay_apply_ne hne
    exact h x hi
  | sound =>
    obtain ⟨x, hi⟩ := sound_apply_ne hne
    exact h x hi

/-- A step moves a timer only if it sets it. -/
theorem Stepped.level (h : Stepped m s o) (hk : ¬ m.Sets k) :
    k.level o.machine.timers = k.level m.timers := by
  cases h with
  | refused => rfl
  | @polled register =>
    rcases pollKey_cases m register with hp | ⟨_, _, hp⟩ <;> rw [hp]
  | beyond => rfl
  | unknown => rfl
  | faulted => rfl
  | @unrolled _ e => cases e <;> rfl
  | @completed i roll _ hr hi =>
    have hset : ∀ x, i ≠ k.setter x := by
      rintro x rfl
      exact hk ⟨x, hr, hi⟩
    exact level_apply (m := m.fetched m.opcode) hset roll

theorem level_next (hk : ¬ p.1.Sets k) : k.level (next p).1.timers = k.level p.1.timers :=
  (stepped_step p.1 p.2).level hk

theorem level_next_of_executes (h : p.1.Executes (k.setter x)) :
    k.level (next p).1.timers = p.1.read (.of x) := by
  have hf : p.1.fault? (k.setter x) = none := by cases k <;> rfl
  have hroll : rolled p.2 (k.setter x) = (.ok 0, p.2) := by cases k <;> rfl
  have hnext : (next p).1 = ((p.1.fetched p.1.opcode).apply (k.setter x) 0).counted :=
    congrArg Outcome.machine (step_of_rolled h.1 h.2 hf hroll)
  rw [hnext]
  exact level_apply_setter (p.1.fetched p.1.opcode) k x 0

/-- On the way from `t` to `t'` nothing moves the timers but the steps that begin in the states
`xs`. -/
def Steered (t : Timers) : List (Machine × Source) → Timers → Prop
  | [], t' => t' = t
  | x :: xs, t' => x.1.timers = t ∧ Steered (next x).1.timers xs t'

variable {t t' : Timers} {xs before after : List (Machine × Source)}

theorem Steered.level (h : Steered t xs t') (hxs : ∀ x ∈ xs, ¬ x.1.Sets k) :
    k.level t' = k.level t := by
  induction xs generalizing t with
  | nil => rw [show t' = t from h]
  | cons x xs ih =>
    obtain ⟨rfl, hrest⟩ := h
    rw [ih hrest fun y hy => hxs y (by simp [hy]), level_next (hxs x (by simp))]

theorem Steered.behind (h : Steered t (before ++ p :: after) t') :
    Steered (next p).1.timers after t' := by
  induction before generalizing t with
  | nil => exact h.2
  | cons x before ih => exact ih h.2

/-- The last step that sets a timer decides what the timer is at the end. -/
theorem Steered.level_of_last (h : Steered t (before ++ p :: after) t')
    (hp : p.1.Executes (k.setter x)) (hafter : ∀ y ∈ after, ¬ y.1.Sets k) :
    k.level t' = p.1.read (.of x) := by
  rw [h.behind.level hafter, level_next_of_executes hp]

/-- A step with random numbers at hand fails with nothing but a fault. -/
theorem fault?_of_reliable {e : Failure} (hs : s.Reliable) (he : (m.step s).failure? = some e) :
    ∃ f, e = .fault f := by
  have hstepped := stepped_step m s
  generalize m.step s = o at he hstepped
  cases hstepped with
  | refused => exact ⟨_, (Option.some.inj he).symm⟩
  | polled => cases he
  | beyond => exact ⟨_, (Option.some.inj he).symm⟩
  | unknown => exact ⟨_, (Option.some.inj he).symm⟩
  | faulted => exact ⟨_, (Option.some.inj he).symm⟩
  | unrolled _ _ hroll => exact absurd hroll (rolled_ne_error hs)
  | completed => cases he

theorem reliable_iterate (hs : p.2.Reliable) (j : ℕ) : (next^[j] p).2.Reliable := by
  induction j with
  | zero => exact hs
  | succ j ih =>
    rw [Function.iterate_succ_apply']
    intro i
    rw [next, (stepped_step _ _).results]
    exact ih i

end Machine

namespace Runner

open Machine

variable {r q : Runner} {k : Timer} {o : Operation} {ops : List Operation} {n : ℕ}
  {fs gs : List Frame} {a b c : ℕ}

/-- The operation is a frame, or some frames, or what a caller does between frames to keys and
budget. It neither starts the program again nor moves the timers from outside. -/
def Operation.Plays : Operation → Prop
  | .input .tick => False
  | o => o.Drives

def triedIn (r : Runner) : Operation → List (Except Failure Frame)
  | .frame => [r.frame.1]
  | .frames count => framesTried count r
  | _ => []

/-- The answers of all frames of a run, in their order. -/
def tried (r : Runner) : List Operation → List (Except Failure Frame)
  | [] => []
  | o :: ops => r.triedIn o ++ (r.operate o).2.tried ops

def handedOut (answers : List (Except Failure Frame)) : List Frame :=
  answers.filterMap Except.toOption

/-- While the frames are handed out a timer goes from `a` to `b`, down by one for each of them, and
they tell how long the sound timer runs. -/
structure WindsDown (k : Timer) (a : ℕ) (fs : List Frame) (b : ℕ) : Prop where
  level : b = a - fs.length
  tells : k = .sound → ∀ i f, fs[i]? = some f → (f.soundActive = true ↔ i < a - 1)

theorem windsDown_nil (k : Timer) (a : ℕ) : WindsDown k a [] a :=
  ⟨rfl, by simp⟩

/-- The frames further on begin at a lower level. -/
theorem WindsDown.append (hfs : WindsDown k a fs b) (hgs : WindsDown k b gs c) :
    WindsDown k a (fs ++ gs) c := by
  refine ⟨?_, fun hk i f hf => ?_⟩
  · rw [hgs.level, hfs.level, List.length_append]
    omega
  · have hlevel := hfs.level
    rcases Nat.lt_or_ge i fs.length with hi | hi
    · rw [List.getElem?_append_left hi] at hf
      exact hfs.tells hk i f hf
    · rw [List.getElem?_append_right hi] at hf
      rw [hgs.tells hk _ f hf]
      omega

def levelOf (k : Timer) (r : Runner) : ℕ :=
  (k.level r.machine.timers).toNat

theorem stepwise_steered :
    Stepwise fun r xs q => Steered r.machine.timers xs q.machine.timers where
  nil _ := rfl
  failed _ := ⟨rfl, rfl⟩
  cons _ h := ⟨rfl, h⟩
  begun h := h

theorem soundActive_close (r : Runner) (executed : ℕ) :
    (r.close executed).1.soundActive = true ↔ 0 < (r.machine.timers.tick.sound).toNat := by
  have hactive : (r.close executed).1.soundActive = (r.machine.timers.tick.sound != 0) := rfl
  rw [hactive, bne_iff_ne, ← UInt8.pos_iff_ne_zero, UInt8.lt_iff_toNat_lt, UInt8.toNat_zero]

/-- A frame that is handed out tells of the timer as it leaves it. -/
theorem soundActive_of_frame {f : Frame} (h : r.frame.1 = .ok f) :
    f.soundActive = r.frame.2.machine.timers.soundActive := by
  cases hwork : r.work.1 with
  | some e => simp [frame_of_work_some hwork] at h
  | none =>
    rw [frame_of_work_none hwork] at h ⊢
    obtain rfl := Except.ok.inj h
    rfl

/-- The end of a frame ticks once, and asks after the tick whether the tone goes on. A frame that
fails does neither. -/
theorem windsDown_close (k : Timer) (r : Runner) :
    WindsDown k (levelOf k r.work.2) (handedOut [r.frame.1]) (levelOf k r.frame.2) := by
  cases hend : r.work.1 with
  | some e =>
    rw [frame_of_work_some hend]
    exact windsDown_nil k _
  | none =>
    rw [frame_of_work_none hend]
    have htick := Timer.toNat_level_tick k r.work.2.machine.timers
    refine ⟨htick, ?_⟩
    rintro rfl i f hf
    cases i with
    | succ i => cases hf
    | zero =>
      obtain rfl := Option.some.inj hf
      rw [soundActive_close]
      exact htick ▸ Iff.rfl

theorem windsDown_frame (hk : ∀ x ∈ r.frameStarts, ¬ x.1.Sets k) :
    WindsDown k (levelOf k r) (handedOut [r.frame.1]) (levelOf k r.frame.2) := by
  have hwork : levelOf k r.work.2 = levelOf k r :=
    congrArg UInt8.toNat ((stepwise_steered.work r).level hk)
  rw [← hwork]
  exact windsDown_close k r

theorem handedOut_append (xs ys : List (Except Failure Frame)) :
    handedOut (xs ++ ys) = handedOut xs ++ handedOut ys :=
  List.filterMap_append

theorem windsDown_frames (n : ℕ) (last : Option Frame) (r : Runner)
    (hk : ∀ x ∈ framesStarts n r, ¬ x.1.Sets k) :
    WindsDown k (levelOf k r) (handedOut (framesTried n r)) (levelOf k (r.runFrames n last).2) := by
  refine runFrames_through (R := fun r xs answers q => (∀ x ∈ xs, ¬ x.1.Sets k) →
    WindsDown k (levelOf k r) (handedOut answers) (levelOf k q)) ?_ ?_ ?_ n last r hk
  · exact fun r _ => windsDown_nil k _
  · exact fun r => windsDown_frame
  · intro r q p xs ys answers answers' hfirst hrest hxs
    rw [List.forall_mem_append] at hxs
    rw [handedOut_append]
    exact (hfirst hxs.1).append (hrest hxs.2)

theorem windsDown_operate (ho : o.Plays) (hk : ∀ x ∈ r.startsIn o, ¬ x.1.Sets k) :
    WindsDown k (levelOf k r) (handedOut (r.triedIn o)) (levelOf k (r.operate o).2) := by
  cases o with
  | frame => exact windsDown_frame hk
  | frames count => exact windsDown_frames count none r hk
  | setBudget x => exact windsDown_nil k _
  | input e =>
    cases e with
    | key x down =>
      have hkey : levelOf k (r.operate (.input (.key x down))).2 = levelOf k r := by
        simp only [operate, levelOf, withState, feed, setKey]
        cases r.state.1.keypad.setKey x down <;> rfl
      rw [hkey]
      exact windsDown_nil k _
    | releaseAll => exact windsDown_nil k _
    | tick => exact ho.elim
    | step =>
      have hstep : levelOf k (r.operate (.input .step)).2 = levelOf k r :=
        congrArg UInt8.toNat (level_next (hk r.state (by simp [startsIn])))
      rw [hstep]
      exact windsDown_nil k _
  | reset => exact ho.elim
  | insert c => exact ho.elim
  | load image => exact ho.elim

theorem windsDown_run (hops : ∀ o ∈ ops, o.Plays) (hk : ∀ x ∈ r.starts ops, ¬ x.1.Sets k) :
    WindsDown k (levelOf k r) (handedOut (r.tried ops)) (levelOf k (r.run ops)) := by
  induction ops generalizing r with
  | nil => exact windsDown_nil k _
  | cons o ops ih =>
    rw [run_cons, tried, handedOut_append]
    have hfirst := windsDown_operate (hops o (by simp))
      fun x hx => hk x (List.mem_append_left _ hx)
    exact hfirst.append
      (ih (fun o ho => hops o (by simp [ho])) fun x hx => hk x (List.mem_append_right _ hx))

/-- Behind the last instruction of a frame that sets the sound timer only the ticks are left. -/
theorem windsDown_sound {before after : List (Machine × Source)} {x : Machine × Source} {y : ℕ}
    (hstarts : r.frameStarts = before ++ x :: after) (hx : x.1.Executes (.setSound y))
    (hafter : ∀ z ∈ after, ¬ z.1.Sets .sound) :
    WindsDown .sound (x.1.read (.of y)).toNat (handedOut [r.frame.1])
      (levelOf .sound r.frame.2) := by
  have hsteered : Steered r.machine.timers r.frameStarts r.work.2.machine.timers :=
    stepwise_steered.work r
  rw [hstarts] at hsteered
  have hwork : levelOf .sound r.work.2 = (x.1.read (.of y)).toNat :=
    congrArg UInt8.toNat (hsteered.level_of_last (k := .sound) hx hafter)
  rw [← hwork]
  exact windsDown_close .sound r

/-! Frames that are all handed out. -/

/-- Faults are recorded, and random numbers are at hand. -/
structure Unfailing (r : Runner) : Prop where
  mode : r.mode = .record
  source : r.source.Reliable

theorem stepwise_mode : Stepwise fun r _ q => q.mode = r.mode where
  nil _ := rfl
  failed _ := rfl
  cons _ h := h
  begun h := h

theorem mode_frame (r : Runner) : r.frame.2.mode = r.mode := by
  have hwork : r.work.2.mode = r.mode := stepwise_mode.work r
  cases hend : r.work.1 with
  | some e => rwa [frame_of_work_some hend]
  | none => rwa [frame_of_work_none hend]

theorem steadfast_reliable : Steadfast fun p => p.2.Reliable where
  next h := reliable_iterate h 1
  withKeypad _ h := h
  withTimers _ h := h
  withDisplay _ h := h

theorem Unfailing.frame (h : r.Unfailing) : r.frame.2.Unfailing :=
  ⟨(mode_frame r).trans h.mode, steadfast_frame (r := r) steadfast_reliable h.source⟩

theorem Unfailing.ending (h : r.Unfailing) (j : ℕ) :
    r.mode.ending (failureAt r.state j) = none := by
  rw [h.mode]
  cases hf : failureAt r.state j with
  | none => rfl
  | some e =>
    cases j with
    | zero => cases hf
    | succ i =>
      obtain ⟨f, rfl⟩ := fault?_of_reliable (reliable_iterate h.source i) hf
      rfl

theorem Unfailing.frame_ok (h : r.Unfailing) : ∃ f, r.frame.1 = .ok f := by
  have hwork : r.work.1 = none := by
    cases hh : r.machine.isHalted with
    | true => rw [work_of_halted hh]
    | false =>
      rw [work_eq_steps hh]
      rcases Nat.eq_zero_or_pos (r.budget.getD 0) with hn | hn
      · rw [hn]
        rfl
      · obtain ⟨j, _, _, hends⟩ := steps_worked hn r.begun
        exact hends.trans (Unfailing.ending (r := r) h j)
  exact ⟨_, congrArg Prod.fst (frame_of_work_none hwork)⟩

/-- Every frame of a row is handed out, and the next one will be. -/
theorem Unfailing.runFrames (h : r.Unfailing) (n : ℕ) (last : Option Frame) :
    (r.runFrames n last).2.Unfailing ∧ ∀ answer ∈ framesTried n r, ∃ f, answer = .ok f := by
  refine runFrames_through (R := fun r _ answers q => r.Unfailing →
    q.Unfailing ∧ ∀ answer ∈ answers, ∃ f, answer = .ok f) ?_ ?_ ?_ n last r h
  · exact fun r hr => ⟨hr, by simp⟩
  · exact fun r hr => ⟨hr.frame, by simpa using hr.frame_ok⟩
  · intro r q p _ _ answers answers' hfirst hrest hr
    rw [List.forall_mem_append]
    obtain ⟨hq, hanswers⟩ := hfirst hr
    obtain ⟨hp, hanswers'⟩ := hrest hq
    exact ⟨hp, hanswers, hanswers'⟩

theorem Unfailing.triedIn (h : r.Unfailing) (o : Operation) :
    ∀ answer ∈ r.triedIn o, ∃ f, answer = .ok f := by
  cases o with
  | frame => simpa [Runner.triedIn] using h.frame_ok
  | frames count => exact (h.runFrames count none).2
  | _ => simp [Runner.triedIn]

theorem Unfailing.operate (h : r.Unfailing) (ho : o.Plays) : (r.operate o).2.Unfailing := by
  cases o with
  | frame => exact h.frame
  | frames count => exact (h.runFrames count none).1
  | setBudget x => exact ⟨h.mode, h.source⟩
  | input e => exact ⟨h.mode, steadfast_reliable.feed (p := r.state) h.source e⟩
  | reset => exact ho.elim
  | insert c => exact ho.elim
  | load image => exact ho.elim

theorem Unfailing.tried (h : r.Unfailing) (hops : ∀ o ∈ ops, o.Plays) :
    ∀ answer ∈ r.tried ops, ∃ f, answer = .ok f := by
  induction ops generalizing r with
  | nil => simp [Runner.tried]
  | cons o ops ih =>
    unfold Runner.tried
    rw [List.forall_mem_append]
    have hrest := h.operate (hops o (by simp))
    exact ⟨h.triedIn o, ih hrest fun o ho => hops o (by simp [ho])⟩

theorem length_handedOut {answers : List (Except Failure Frame)}
    (h : ∀ answer ∈ answers, ∃ f, answer = .ok f) : (handedOut answers).length = answers.length := by
  induction answers with
  | nil => rfl
  | cons answer answers ih =>
    rw [List.forall_mem_cons] at h
    obtain ⟨⟨f, rfl⟩, hrest⟩ := h
    exact congrArg (· + 1) (ih hrest)

/-- Over any run that goes on with the program, a timer that no instruction sets goes down by one
for each frame that is handed out, through key waits, faults and halts, and every frame that is
tried is handed out if faults are recorded and random numbers are at hand. Where a frame sets the
sound timer, and nothing sets it later, as many frames from that one on tell of a tone as the value
says, less one. -/
theorem timers_wind_down (hops : ∀ o ∈ ops, o.Plays) :
    (r.mode = .record → r.source.Reliable →
      (handedOut (r.tried ops)).length = (r.tried ops).length) ∧
    (∀ k : Timer, (∀ x ∈ r.starts ops, ¬ x.1.Sets k) →
      (k.level (r.run ops).machine.timers).toNat =
        (k.level r.machine.timers).toNat - (handedOut (r.tried ops)).length) ∧
    ∀ before x after y, r.frameStarts = before ++ x :: after → x.1.Executes (.setSound y) →
      (∀ z ∈ after, ¬ z.1.Sets .sound) → (∀ z ∈ r.frame.2.starts ops, ¬ z.1.Sets .sound) →
      ∀ i f, (handedOut (r.frame.1 :: r.frame.2.tried ops))[i]? = some f →
        (f.soundActive = true ↔ i < (x.1.read (.of y)).toNat - 1) := by
  refine ⟨?_, ?_, ?_⟩
  · intro hmode hsource
    have h : r.Unfailing := ⟨hmode, hsource⟩
    exact length_handedOut (h.tried hops)
  · intro k hk
    exact (windsDown_run hops hk).level
  · intro before x after y hstarts hx hafter hlater
    have hframe := windsDown_sound hstarts hx hafter
    have hrun := hframe.append (windsDown_run hops hlater)
    rw [← handedOut_append] at hrun
    exact hrun.tells rfl

/-- A program that sets the sound timer to two and then jumps in place, at one step a frame, while
the delay timer runs. -/
def buzzing : Runner :=
  let c : Cartridge := ⟨#[0xf0, 0x18, 0x12, 0x02], "buzz", by decide, by decide⟩
  let m := (powerOn .standard (some c)).setReg 0 2
  make { m with timers := ⟨1, 0⟩ } (.seeded 0) (some 1) .record 0 false

theorem starts_of_one {i : Instruction ℕ} (hb : r.budget = some 1) (hx : r.machine.Executes i) :
    r.starts [.frame] = [r.state] := by
  have hh : r.machine.isHalted = false := by simp [isHalted, hx.1]
  rw [starts, starts, startsIn, frameStarts_of_one hb hh, List.append_nil]

/-- A frame of one step leaves the timer alone if it executes anything but its instruction. -/
theorem not_sets_of_one {i : Instruction ℕ} (hb : r.budget = some 1) (hx : r.machine.Executes i)
    (hi : ∀ x, i ≠ k.setter x) : ∀ z ∈ r.starts [.frame], ¬ z.1.Sets k := by
  rw [starts_of_one hb hx]
  simp only [List.mem_singleton, forall_eq]
  rintro ⟨x, hset⟩
  exact hi x (hx.unique hset)

theorem executes_buzzing : buzzing.machine.Executes (.setSound 0) :=
  ⟨rfl, reads_of_image rfl rfl (show 0 < 16 by decide) (by decide)⟩

/-- A frame of one step has gone well, and the machine is at the next instruction. -/
structure Passed (r : Runner) : Prop where
  frame : ∃ f, r.frame.1 = .ok f ∧ f.fault? = none
  budget : r.frame.2.budget = some 1
  run : r.frame.2.machine.run = .running
  memory : r.frame.2.machine.memory = r.machine.memory
  pc : r.frame.2.machine.pc = UInt16.ofNat (r.machine.pc.toNat + 2)

theorem frame_setByte {x n : ℕ} (hb : r.budget = some 1) (hx : r.machine.Executes (.setByte x n)) :
    r.Passed ∧ r.frame.2.machine.timers = r.machine.timers.tick ∧
      r.frame.2.machine.read (.of x) = Scalar.toByte n := by
  obtain ⟨f, hf, -, -, -, hfault, hbudget, hmachine⟩ := frame_of_completed hb hx.1 hx.2 rfl rfl
  have hlt : x < 16 := hx.2.2.1.1
  refine ⟨⟨⟨f, hf, hfault⟩, hbudget, ?_, ?_, ?_⟩, ?_, ?_⟩
  all_goals rw [hmachine]
  · change ((r.machine.fetched r.machine.opcode).assign (.of x) (Scalar.toByte n)).run = .running
    rw [Register.of_nat hlt]
    exact hx.1
  · change ((r.machine.fetched r.machine.opcode).assign (.of x) (Scalar.toByte n)).memory = _
    rw [Register.of_nat hlt]
    rfl
  · rfl
  · change ((r.machine.fetched r.machine.opcode).assign (.of x) (Scalar.toByte n)).timers.tick = _
    rw [Register.of_nat hlt]
    rfl
  · change ((r.machine.fetched r.machine.opcode).assign (.of x) (Scalar.toByte n)).read (.of x) = _
    rw [Register.of_nat hlt, read_assign_known, if_pos rfl]

theorem frame_setSound {y : ℕ} (hb : r.budget = some 1) (hx : r.machine.Executes (.setSound y)) :
    r.Passed ∧
      r.frame.2.machine.timers.sound = Timers.countDown (r.machine.read (.of y)) := by
  obtain ⟨f, hf, -, -, -, hfault, hbudget, hmachine⟩ := frame_of_completed hb hx.1 hx.2 rfl rfl
  have hlt : y < 16 := hx.2.2.1
  refine ⟨⟨⟨f, hf, hfault⟩, hbudget, ?_, ?_, ?_⟩, ?_⟩
  all_goals rw [hmachine]
  · exact hx.1
  · rfl
  · rfl
  · change Timers.countDown ((r.machine.fetched r.machine.opcode).read (.of y)) = _
    rw [read_of_lt _ hlt, read_of_lt _ hlt]
    rfl

theorem frame_buzzing :
    (∃ f, buzzing.frame.1 = .ok f) ∧ buzzing.frame.2.budget = some 1 ∧
      buzzing.frame.2.machine.Executes (.jump 0x202) := by
  obtain ⟨⟨⟨f, hf, -⟩, hbudget, hrun, hmemory, hpc⟩, -⟩ := frame_setSound rfl executes_buzzing
  have himage : buzzing.machine.memory = Memory.initial.withProgram #[0xf0, 0x18, 0x12, 0x02] := rfl
  have hnext : buzzing.frame.2.machine.pc.toNat = 0x200 + 2 := congrArg UInt16.toNat hpc
  exact ⟨⟨f, hf⟩, hbudget, hrun, reads_of_image_at (hmemory.trans himage) hnext (by decide)
    (show 0x202 < 4096 by decide) (by decide)⟩

theorem timers_wind_down_buzzing :
    (∀ o ∈ [Operation.frame], o.Plays) ∧
      (Timer.delay.level (buzzing.run [.frame]).machine.timers).toNat = 0 ∧
      ∃ f g, handedOut (buzzing.frame.1 :: buzzing.frame.2.tried [.frame]) = [f, g] ∧
        f.soundActive = true ∧ g.soundActive = false := by
  have hops : ∀ o ∈ [Operation.frame], o.Plays := by simp [Operation.Plays, Operation.Drives]
  obtain ⟨⟨f, hf⟩, hbudget, hjump⟩ := frame_buzzing
  obtain ⟨g, hg, _⟩ := frame_jump hjump.1 hjump.2 hbudget
  have hfirst : buzzing.frameStarts = [] ++ buzzing.state :: [] :=
    (List.append_nil _).symm.trans (starts_of_one rfl executes_buzzing)
  obtain ⟨_, hdown, htells⟩ := timers_wind_down (r := buzzing) hops
  have hlevel := hdown .delay (not_sets_of_one rfl executes_buzzing (by simp [Timer.setter]))
  have htone := htells [] buzzing.state [] 0 hfirst executes_buzzing (by simp)
    (not_sets_of_one hbudget hjump (by simp [Timer.setter]))
  have hanswers : handedOut (buzzing.frame.1 :: buzzing.frame.2.tried [.frame]) = [f, g] := by
    simp [handedOut, tried, triedIn, hf, hg, Except.toOption]
  rw [hanswers] at htone
  have hcount : (handedOut (buzzing.tried [.frame])).length = 1 := by
    simp [handedOut, tried, triedIn, hf, Except.toOption]
  have hdelay : (Timer.delay.level buzzing.machine.timers).toNat = 1 := rfl
  rw [hcount, hdelay] at hlevel
  have hreg : buzzing.state.1.reg 0 = 2 := reg_setReg _ 0 2 0
  have hread : buzzing.state.1.read (.of 0) = 2 := by
    rw [Machine.read, value?_of_lt _ (by decide), hreg]
    rfl
  rw [hread] at htone
  refine ⟨hops, hlevel, f, g, hanswers, ?_, ?_⟩
  · exact (htone 0 f rfl).mpr (by decide)
  · simpa using htone 1 g rfl

end Runner

end Chip8
