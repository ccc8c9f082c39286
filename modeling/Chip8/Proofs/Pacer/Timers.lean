import Chip8.Proofs.Pacer.Run

/-! How many timers of a loop are pending. -/
namespace Chip8.Pacer

variable {τ : Type} [Scalar τ] {p q : Pacer τ} {a : Alarm τ} {n : ℕ}

/-- One timer is pending while the loop runs, and none while it does not. -/
def SingleTimer (p : Pacer τ) : Prop :=
  p.pending.length = if p.running then 1 else 0

/-- The timer that a stop would cancel is the only one that is pending, and it is there exactly
while the loop runs. -/
structure Settled (p : Pacer τ) : Prop where
  linked : p.pending.map Alarm.id = p.timer?.toList
  armed_iff : p.timer?.isSome = p.running

/-- What holds inside the frames of a timer, which found `n` timers set so far: a loop that runs
holds a timer only if an adapter has set one since. -/
structure Framed (n : ℕ) (p : Pacer τ) : Prop where
  linked : p.pending.map Alarm.id = p.timer?.toList
  running_of_armed : p.timer?.isSome → p.running
  le_nextId : n ≤ p.nextId
  armed_iff : p.running → (p.timer?.isSome ↔ n < p.nextId)

omit [Scalar τ] in
theorem Settled.singleTimer (h : Settled p) : SingleTimer p := by
  have hl := congrArg List.length h.linked
  have ha := h.armed_iff
  cases hr : p.timer? <;> simp_all [SingleTimer]

theorem settled_make (runner : Runner) (adapters : Adapters τ) (frameTime : τ) (catchUp : ℕ) :
    Settled (make runner adapters frameTime catchUp) :=
  ⟨rfl, rfl⟩

omit [Scalar τ] in
theorem settled_halt (h : p.pending.map Alarm.id = p.timer?.toList) : Settled p.halt := by
  refine ⟨?_, rfl⟩
  cases ht : p.timer? with
  | none => simp_all [halt]
  | some id =>
    have hid : ∀ a ∈ p.pending, a.id = id := by
      intro a ha
      have := List.mem_map_of_mem (f := Alarm.id) ha
      simpa [h, ht] using this
    simpa [halt, ht] using hid

theorem settled_start (h : Settled p) (t : Moment τ) : Settled (p.start t) := by
  unfold start
  split
  · exact h
  · rename_i hr
    have hn : p.timer? = none := by simpa [hr] using h.armed_iff
    have hp : p.pending = [] := by simpa [hn] using h.linked
    refine ⟨?_, ?_⟩ <;> simp [arm, hp]

theorem lasting_settled : Lasting (Settled (τ := τ)) where
  start t h := settled_start h t
  halt h := settled_halt h.linked
  switch _ h := ⟨h.linked, h.armed_iff⟩
  noteFrame _ h := ⟨h.linked, h.armed_iff⟩
  advance _ _ h := ⟨h.linked, h.armed_iff⟩

/-! Inside the frames of a timer. -/

omit [Scalar τ] in
theorem Framed.settled (h : Framed n p) (hr : p.running = false) : Settled p := by
  refine ⟨h.linked, ?_⟩
  cases ht : p.timer? with
  | none => simp [hr]
  | some id =>
    have := h.running_of_armed (by simp [ht])
    simp [hr] at this

theorem framed_start (h : Framed n p) (t : Moment τ) : Framed n (p.start t) := by
  unfold start
  split
  · exact h
  · rename_i hr
    have hs := h.settled (by simpa using hr)
    have hn : p.timer? = none := by simpa [hr] using hs.armed_iff
    have hp : p.pending = [] := by simpa [hn] using hs.linked
    have hle := h.le_nextId
    refine ⟨?_, ?_, ?_, ?_⟩ <;> simp [arm, hp] <;> omega

omit [Scalar τ] in
theorem framed_halt (h : Framed n p) : Framed n p.halt :=
  ⟨(settled_halt h.linked).linked, by simp [halt], h.le_nextId, by simp [halt]⟩

theorem lasting_framed : Lasting (Framed (τ := τ) n) where
  start t h := framed_start h t
  halt h := framed_halt h
  switch _ h := ⟨h.linked, h.running_of_armed, h.le_nextId, h.armed_iff⟩
  noteFrame _ h := ⟨h.linked, h.running_of_armed, h.le_nextId, h.armed_iff⟩
  advance _ _ h := ⟨h.linked, h.running_of_armed, h.le_nextId, h.armed_iff⟩

/-- However a loop failed, it is settled once the failure is dealt with. -/
theorem settled_fail (h : Framed n p) (t : Moment τ) (error : Failure) (frame? : Option Frame) :
    Settled (p.fail t error frame?).2 := by
  have hs : Settled (p.stop t).2 := lasting_settled.silence t (settled_halt h.linked)
  unfold fail
  split
  · simp_all
  · rename_i q hq
    rw [hq] at hs
    exact lasting_settled.react t _ ⟨hs.linked, hs.armed_iff⟩

/-- What the frames of a timer end in: the loop goes on, or it is settled. -/
def Ends (n : ℕ) : Verdict × Pacer τ → Prop
  | (.goOn, p) => Framed n p ∧ p.running = true
  | (_, p) => Settled p

theorem ends_runFrame (h : Framed n p) (t : Moment τ) : Ends n (p.runFrame t) := by
  have hq := lasting_framed.tryFrame t h
  unfold runFrame
  split
  · rename_i error frame? q he
    rw [he] at hq
    have hs := settled_fail hq t error frame?
    cases hf : (q.fail t error frame?).1 <;> simpa [verdictOf, Ends, hf] using hs
  · rename_i q he
    rw [he] at hq
    cases hr : q.running with
    | true => exact ⟨hq, hr⟩
    | false => exact hq.settled hr

theorem ends_runDue (h : Framed n p) (hr : p.running = true) (t : Moment τ) (k : ℕ) :
    Ends n (p.runDue t k) := by
  apply runDue_of (G := fun q => Framed n q ∧ q.running = true) ⟨h, hr⟩
  · exact fun q hq => hq
  · intro q _ r hq hv
    have he := ends_runFrame hq.1 t
    rw [hv] at he
    obtain ⟨hf, hr⟩ := he
    exact ⟨⟨hf.linked, hf.running_of_armed, hf.le_nextId, hf.armed_iff⟩, hr⟩
  · intro q _ v r hq _ hv
    rw [← hv]
    exact ends_runFrame hq.1 t

/-! Outside the frames. -/

omit [Scalar τ] in
theorem Settled.pending_eq (h : Settled p) (ha : a ∈ p.pending) :
    p.pending = [a] ∧ p.running = true := by
  have hl := h.linked
  have hr := h.armed_iff
  cases ht : p.timer? with
  | none => simp_all
  | some id =>
    rw [ht] at hl hr
    obtain ⟨b, hb, _⟩ := List.map_eq_singleton_iff.mp hl
    rw [hb, List.mem_singleton] at ha
    exact ⟨by rw [hb, ha], by simpa using hr.symm⟩

omit [Scalar τ] in
theorem framed_take (h : Settled p) (ha : a ∈ p.pending) : Framed p.nextId (p.take a) := by
  obtain ⟨hp, hr⟩ := h.pending_eq ha
  refine ⟨?_, ?_, ?_, ?_⟩ <;> simp [take, hp]

/-- A timer that an adapter doubles: it starts the loop anew inside a frame, and all frames go on
as if it had not. -/
def Doubles (p : Pacer τ) : Action τ → Prop
  | .expire t id => ∃ a q, p.alarm? id = some a ∧ p.running = true ∧
      (p.take a).runDue t p.catchUp = (.goOn, q) ∧ p.nextId < q.nextId
  | _ => False

theorem settled_fire (h : Settled p) (ha : a ∈ p.pending) (t : Moment τ)
    (hd : ∀ q, (p.take a).runDue t p.catchUp = (.goOn, q) → q.nextId ≤ p.nextId) :
    Settled (p.fire t a).2 := by
  obtain ⟨_, hr⟩ := h.pending_eq ha
  have he := ends_runDue (framed_take h ha) hr t p.catchUp
  cases hq : (p.take a).runDue t p.catchUp with
  | mk v q =>
    rw [hq] at he
    rw [fire_of_runDue hr hq]
    cases v with
    | goOn =>
      obtain ⟨hf, hqr⟩ := he
      have hnot : ¬ p.nextId < q.nextId := Nat.not_lt.mpr (hd q hq)
      have hn : q.timer? = none := by simpa using (hf.armed_iff hqr).not.mpr hnot
      have hp : q.pending = [] := by simpa [hn] using hf.linked
      obtain ⟨nextAt, delay, hrearm⟩ := rearm_eq q t
      rw [hrearm]
      refine ⟨?_, ?_⟩ <;> simp [arm, hp, hqr]
    | stopped => exact he
    | escaped failure => exact he

theorem settled_act {x : Action τ} (h : Settled p) (hx : ¬ Doubles p x) : Settled (p.act x) := by
  cases x with
  | start t => exact settled_start h t
  | stop t => exact lasting_settled.stop t h
  | expire t id =>
    simp only [act]
    split
    · rename_i a ha
      have hm := List.mem_of_find?_eq_some ha
      apply settled_fire h hm t
      intro q hq
      by_contra hlt
      exact hx ⟨a, q, ha, (h.pending_eq hm).2, hq, by omega⟩
    · exact h
  | replace runner => exact ⟨h.linked, h.armed_iff⟩

/-- The loop sets its timer although it has one already. -/
theorem not_singleTimer_act {x : Action τ} (h : Settled p) (hx : Doubles p x) :
    ¬ SingleTimer (p.act x) := by
  cases x with
  | expire t id =>
    obtain ⟨a, q, ha, hr, hq, hlt⟩ := hx
    have hm := List.mem_of_find?_eq_some ha
    have he := ends_runDue (framed_take h hm) hr t p.catchUp
    rw [hq] at he
    obtain ⟨hf, hqr⟩ := he
    have hl := congrArg List.length hf.linked
    have hs := (hf.armed_iff hqr).mpr hlt
    obtain ⟨nextAt, delay, hrearm⟩ := rearm_eq q t
    simp only [act, ha, fire_of_runDue hr hq, hrearm]
    cases ht : q.timer? <;> simp_all [SingleTimer, arm]
  | _ => exact hx.elim

/-- Before any timer is doubled there is one pending timer while the loop runs and none while it
does not; a doubled timer breaks this at once. -/
theorem singleTimer_throughout_iff (runner : Runner) (adapters : Adapters τ) (frameTime : τ)
    (catchUp : ℕ) (xs : List (Action τ)) :
    (∀ ys, ys <+: xs → SingleTimer ((make runner adapters frameTime catchUp).run ys)) ↔
      ∀ ys x, ys ++ [x] <+: xs → ¬ Doubles ((make runner adapters frameTime catchUp).run ys) x :=
  throughout_iff (fun _ h => h.singleTimer) (fun _ _ h hx => settled_act h hx)
    (fun _ _ h hx => not_singleTimer_act h hx) (settled_make runner adapters frameTime catchUp)

/-- A screen that stops the loop and starts it again at the first frame. -/
def restarting : Adapters ℤ where
  present? := some fun n =>
    if n = 1 then ⟨[⟨.stop, false, none⟩, ⟨.start, false, none⟩], none⟩ else .silent
  tone? := none
  onFault _ := .silent

theorem not_singleTimer_restarting : ¬ SingleTimer ((sample restarting).run opening) := by
  unfold SingleTimer
  decide

end Chip8.Pacer
