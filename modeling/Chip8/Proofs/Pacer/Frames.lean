import Chip8.Proofs.Pacer.Run
import Chip8.Proofs.Runner.Frames

/-! When a loop takes frames, and the order in which it hands them out. -/
namespace Chip8

def Event.frame? : Event → Option Frame
  | .present f => some f
  | _ => none

namespace Pacer

variable {τ : Type} {p q : Pacer τ} {fs : List Frame} {before : List (Pacer τ)}

/-- The frames that the screen was handed so far. -/
def presented (p : Pacer τ) : List Frame :=
  p.events.toList.filterMap Event.frame?

/-- The frame that is begun here, unless it fails. -/
def frame? (p : Pacer τ) : Option Frame :=
  p.runner.frame.1.toOption

/-- A loop that has got the frames `fs` from its runner: they are numbered from one on, the screen
was handed each of them once, in their order, and the last of them is kept. -/
structure Ordered (fs : List Frame) (p : Pacer τ) : Prop where
  numbers : fs.map Frame.number = List.range' 1 p.runner.frames
  shown : p.adapters.present?.isSome = true → p.presented = fs
  latest : p.latest? = fs.getLast?

theorem presented_switch (p : Pacer τ) (on : Bool) : (p.switch on).presented = p.presented := by
  cases h : p.adapters.tone? <;> simp [presented, switch, Event.frame?, h]

theorem presented_noteFrame (p : Pacer τ) (f : Frame) :
    (p.noteFrame f).presented = p.presented ++ [f] := by
  simp [presented, noteFrame, record, Event.frame?]

theorem presented_noteFault (p : Pacer τ) (error : Failure) (frame? : Option Frame) :
    (p.noteFault error frame?).presented = p.presented := by
  simp [presented, noteFault, record, Event.frame?]

theorem Ordered.noteFault (h : Ordered fs p) (error : Failure) (frame? : Option Frame) :
    Ordered fs (p.noteFault error frame?) :=
  ⟨h.numbers, (presented_noteFault p error frame?).trans ∘ h.shown, h.latest⟩

variable [Scalar τ]

theorem calling_ordered (fs : List Frame) : Calling (Ordered (τ := τ) fs) where
  start t h := by
    unfold start
    split
    · exact h
    · exact ⟨h.numbers, h.shown, h.latest⟩
  halt h := ⟨h.numbers, h.shown, h.latest⟩
  switch on h := ⟨h.numbers, (presented_switch _ on).trans ∘ h.shown, h.latest⟩

/-! Frames. -/

/-- A frame is the latest from the moment it is there, and the screen is handed it before anything
can go wrong with it. -/
theorem ordered_present {f : Frame} {runner : Runner} (h : Ordered fs p)
    (hf : p.runner.frame = (.ok f, runner)) (t : Moment τ) :
    Ordered (fs ++ [f]) ({ p with runner, latest? := some f }.present t f).2 := by
  obtain ⟨hnumber, hframes⟩ := Runner.frames_of_ok (congrArg Prod.fst hf)
  rw [hf] at hframes
  have hnumbers : (fs ++ [f]).map Frame.number = List.range' 1 runner.frames := by
    rw [hframes, List.range'_concat, List.map_append, h.numbers]
    simp [hnumber, Nat.add_comm]
  have hlatest : some f = (fs ++ [f]).getLast? := by simp
  unfold present
  split
  · rename_i hnone
    exact ⟨hnumbers, by simp_all, hlatest⟩
  · rename_i reaction hsome
    apply (calling_ordered (fs ++ [f])).react
    refine ⟨hnumbers, fun _ => ?_, hlatest⟩
    have hshown : p.presented = fs := h.shown (by simp_all)
    rw [presented_noteFrame, ← hshown]
    rfl

theorem ordered_tryFrame (h : Ordered fs p) (t : Moment τ) :
    Ordered (fs ++ p.frame?.toList) (p.tryFrame t).2 := by
  unfold tryFrame
  split
  · rename_i e runner hf
    have hframes := Runner.frames_of_error (congrArg Prod.fst hf)
    rw [hf] at hframes
    have hnumbers : fs.map Frame.number = List.range' 1 runner.frames := by
      rw [hframes]
      exact h.numbers
    simpa [frame?, hf, Except.toOption] using (⟨hnumbers, h.shown, h.latest⟩ : Ordered fs { p with runner })
  · rename_i f runner hf
    have hpresent := ordered_present h hf t
    have hdeliver : Ordered (fs ++ [f]) ({ p with runner, latest? := some f }.deliver t f).2 := by
      unfold deliver
      split
      · simp_all
      · rename_i q hq
        rw [hq] at hpresent
        exact (calling_ordered _).setTone t _ hpresent
    have hframe : p.frame? = some f := by simp [frame?, hf, Except.toOption]
    rw [hframe]
    split <;> simp_all

theorem ordered_fail (h : Ordered fs p) (t : Moment τ) (error : Failure) (frame? : Option Frame) :
    Ordered fs (p.fail t error frame?).2 := by
  have hs := (calling_ordered fs).stop t h
  unfold fail
  split
  · simp_all
  · rename_i q hq
    rw [hq] at hs
    exact (calling_ordered fs).react t _ (hs.noteFault error frame?)

theorem ordered_runFrame (h : Ordered fs p) (t : Moment τ) :
    Ordered (fs ++ p.frame?.toList) (p.runFrame t).2 := by
  have ht := ordered_tryFrame h t
  unfold runFrame
  split
  · rename_i error frame? q hq
    rw [hq] at ht
    exact ordered_fail ht t error frame?
  · rename_i q hq
    rwa [hq] at ht

/-! Runs. -/

/-- Frames that were begun one after the other by a loop that had got the frames `fs` before. -/
def BegunInOrder (fs : List Frame) (qs : List (Pacer τ)) : Prop :=
  ∀ before q, before ++ [q] <+: qs → q.running = true ∧ Ordered (fs ++ before.filterMap frame?) q

omit [Scalar τ] in
theorem begunInOrder_nil : BegunInOrder fs ([] : List (Pacer τ)) := by
  intro before q h
  simp at h

omit [Scalar τ] in
theorem begunInOrder_cons {qs : List (Pacer τ)} (hr : p.running = true) (h : Ordered fs p)
    (hqs : BegunInOrder (fs ++ p.frame?.toList) qs) : BegunInOrder fs (p :: qs) := by
  intro before q hq
  cases before with
  | nil =>
    obtain rfl : q = p := by simpa using hq
    exact ⟨hr, by simpa using h⟩
  | cons b before =>
    rw [List.cons_append, List.cons_prefix_cons] at hq
    obtain ⟨rfl, hq⟩ := hq
    have hbefore : (b :: before).filterMap frame? = b.frame?.toList ++ before.filterMap frame? := by
      cases hf : b.frame? <;> simp [hf]
    rw [hbefore, ← List.append_assoc]
    exact hqs before q hq

omit [Scalar τ] in
theorem BegunInOrder.append {qs rs : List (Pacer τ)} (hqs : BegunInOrder fs qs)
    (hrs : BegunInOrder (fs ++ qs.filterMap frame?) rs) : BegunInOrder fs (qs ++ rs) := by
  intro before q hq
  rcases List.prefix_or_prefix_of_prefix hq (List.prefix_append qs rs) with hle | hle
  · exact hqs before q hle
  · rcases List.prefix_concat_iff.mp hle with heq | hle
    · exact hqs before q (by rw [heq])
    · obtain ⟨rest, rfl⟩ := hle
      rw [List.append_assoc, List.prefix_append_right_inj] at hq
      rw [List.filterMap_append, ← List.append_assoc]
      exact hrs rest q hq

theorem ordered_runDue (h : Ordered fs p) (hr : p.running = true) (t : Moment τ) (n : ℕ) :
    BegunInOrder fs (frameStarts t n p) ∧
      Ordered (fs ++ (frameStarts t n p).filterMap frame?) (p.runDue t n).2 := by
  induction n generalizing p fs with
  | zero => exact ⟨begunInOrder_nil, by simpa [frameStarts, runDue] using h⟩
  | succ n ih =>
    have hframe := ordered_runFrame h t
    have hfilter (qs : List (Pacer τ)) :
        fs ++ (p :: qs).filterMap frame? = (fs ++ p.frame?.toList) ++ qs.filterMap frame? := by
      cases hf : p.frame? <;> simp [hf]
    unfold frameStarts runDue
    split
    · rcases hq : p.runFrame t with ⟨v, q⟩
      rw [hq] at hframe
      cases v with
      | goOn =>
        have hpost : Ordered (fs ++ p.frame?.toList) q.postpone :=
          ⟨hframe.numbers, hframe.shown, hframe.latest⟩
        obtain ⟨hbegun, hend⟩ := ih hpost (runFrame_eq_goOn hq).2
        rw [hfilter]
        exact ⟨begunInOrder_cons hr h hbegun, hend⟩
      | stopped =>
        rw [hfilter]
        exact ⟨begunInOrder_cons hr h begunInOrder_nil, by simpa using hframe⟩
      | escaped failure =>
        rw [hfilter]
        exact ⟨begunInOrder_cons hr h begunInOrder_nil, by simpa using hframe⟩
    · exact ⟨begunInOrder_nil, by simpa using h⟩

theorem ordered_fire (h : Ordered fs p) (t : Moment τ) (a : Alarm τ) :
    BegunInOrder fs (p.framesOf t a) ∧
      Ordered (fs ++ (p.framesOf t a).filterMap frame?) (p.fire t a).2 := by
  have ht : Ordered fs (p.take a) := ⟨h.numbers, h.shown, h.latest⟩
  cases hr : p.running with
  | false =>
    have hnone : p.framesOf t a = [] := by simp [framesOf, hr]
    rw [fire_of_not_running hr, hnone]
    exact ⟨begunInOrder_nil, by simpa using ht⟩
  | true =>
    obtain ⟨hbegun, hend⟩ := ordered_runDue ht hr t p.catchUp
    rw [framesOf_of_running hr]
    refine ⟨hbegun, ?_⟩
    cases hq : (p.take a).runDue t p.catchUp with
    | mk v q =>
      rw [hq] at hend
      rw [fire_of_runDue hr hq]
      cases v with
      | goOn =>
        obtain ⟨nextAt, delay, hrearm⟩ := rearm_eq q t
        rw [hrearm]
        exact ⟨hend.numbers, hend.shown, hend.latest⟩
      | stopped => exact hend
      | escaped failure => exact hend

theorem ordered_act {x : Action τ} (h : Ordered fs p)
    (hx : ∀ runner, x = .replace runner → runner.frames = p.runner.frames) :
    BegunInOrder fs (p.startsIn x) ∧
      Ordered (fs ++ (p.startsIn x).filterMap frame?) (p.act x) := by
  cases x with
  | start t => exact ⟨begunInOrder_nil, by simpa [startsIn, act] using (calling_ordered fs).start t h⟩
  | stop t => exact ⟨begunInOrder_nil, by simpa [startsIn, act] using (calling_ordered fs).stop t h⟩
  | expire t id =>
    simp only [startsIn, act]
    split
    · exact ordered_fire h t _
    · exact ⟨begunInOrder_nil, by simpa using h⟩
  | replace runner =>
    have hnumbers : fs.map Frame.number = List.range' 1 runner.frames := by
      rw [hx runner rfl]
      exact h.numbers
    refine ⟨begunInOrder_nil, ?_⟩
    simpa [startsIn, act] using (⟨hnumbers, h.shown, h.latest⟩ : Ordered fs { p with runner })

/-- Nobody but the loop runs frames: whatever is done to what is below it, the count of frames
stays what the loop has made it. -/
def Sole (p : Pacer τ) (xs : List (Action τ)) : Prop :=
  ∀ ys runner, ys ++ [.replace runner] <+: xs → runner.frames = (p.run ys).runner.frames

theorem ordered_run {xs : List (Action τ)} (h : Ordered fs p) (hxs : Sole p xs) :
    BegunInOrder fs (p.starts xs) ∧
      Ordered (fs ++ (p.starts xs).filterMap frame?) (p.run xs) := by
  induction xs using List.reverseRecOn with
  | nil => exact ⟨begunInOrder_nil, by simpa [starts, run] using h⟩
  | append_singleton xs x ih =>
    obtain ⟨hbegun, hend⟩ := ih fun ys runner hys => hxs ys runner
      (hys.trans (List.prefix_append xs [x]))
    obtain ⟨hnow, hact⟩ := ordered_act (x := x) hend (by
      rintro runner rfl
      exact hxs xs runner (List.prefix_refl _))
    rw [starts_concat, run_concat, List.filterMap_append, ← List.append_assoc]
    exact ⟨hbegun.append hnow, hact⟩

/-- A loop with a runner that nobody else runs begins frames only while it runs. When it does, and
at any end, the frames that it has got are numbered 1, 2, 3, … up to the count of its runner, the
screen was handed each of them once and in order, whatever else came of them, and the last of them
is the latest. -/
theorem frames_ordered (runner : Runner) (hf : runner.frames = 0) (adapters : Adapters τ)
    (frameTime : τ) (catchUp : ℕ) (xs : List (Action τ))
    (hxs : Sole (make runner adapters frameTime catchUp) xs) :
    let p := make runner adapters frameTime catchUp
    (∀ before q, before ++ [q] <+: p.starts xs →
      q.running = true ∧ Ordered (before.filterMap frame?) q) ∧
    Ordered ((p.starts xs).filterMap frame?) (p.run xs) := by
  intro p
  have hstart : Ordered [] p := ⟨by simp [p, make, hf], fun _ => rfl, rfl⟩
  obtain ⟨hbegun, hend⟩ := ordered_run hstart hxs
  exact ⟨fun before q hq => by simpa using hbegun before q hq, by simpa using hend⟩

/-- A screen that restarts the loop at the first frame and fails at the third. -/
def fickle : Adapters ℤ where
  present? := some fun n =>
    if n = 1 then ⟨[⟨.stop, false, none⟩, ⟨.start, false, none⟩], none⟩
    else if n = 3 then ⟨[], some (.error "Error" "screen lost")⟩
    else .silent
  tone? := none
  onFault _ := .silent

/-- The restart has left two timers that take turns. The one runs when the other has failed
already, and then the loop is started again. -/
def relapse : List (Action ℤ) :=
  opening ++ [.expire ⟨10, 10⟩ 1, .expire ⟨20, 20⟩ 2, .expire ⟨20, 20⟩ 3, .start ⟨30, 30⟩,
    .expire ⟨30, 30⟩ 4]

theorem sole_relapse : Sole (sample fickle) relapse := by
  intro ys runner hys
  have hmem : .replace runner ∈ relapse := hys.subset (by simp)
  simp [relapse, opening] at hmem

theorem frames_ordered_fickle :
    (sample fickle).runner.frames = 0 ∧ Sole (sample fickle) relapse ∧
      ((sample fickle).run relapse).presented.map Frame.number = [1, 2, 3, 4] := by
  refine ⟨rfl, sole_relapse, ?_⟩
  obtain ⟨_, hnumbers, hshown, _⟩ := frames_ordered _ rfl fickle 10 4 relapse sole_relapse
  have hframes : ((sample fickle).run relapse).runner.frames = 4 := by decide
  have hpresented := hshown (by decide)
  change ((sample fickle).run relapse).presented = _ at hpresented
  rw [hpresented, hnumbers]
  change List.range' 1 ((sample fickle).run relapse).runner.frames = [1, 2, 3, 4]
  rw [hframes]
  rfl

end Pacer

end Chip8
