import Chip8.Proofs.Pacer.Quiet

/-! How long a loop sleeps from one timer to the next, whatever the clocks say. -/
namespace Chip8

/-- How long a timer that is set at `t` is to run. -/
def Alarm.delay (a : Alarm ℤ) (t : Moment ℤ) : ℤ :=
  a.due - t.clock

namespace Pacer

variable {p q r : Pacer ℤ} {t : Moment ℤ} {a : Alarm ℤ} {x : Action ℤ} {xs : List (Action ℤ)}
  {id : ℕ}

/-- What a timer has come to when its frames go on: the next of them is due when it was due before,
or one was due and then the next comes after a period at the latest. -/
structure Advanced (p : Pacer ℤ) (t : Moment ℤ) (q : Pacer ℤ) : Prop where
  adapters : q.adapters = p.adapters
  frameTime : q.frameTime = p.frameTime
  running : q.running = p.running
  nextAt : q.nextAt = p.nextAt ∨ p.nextAt ≤ t.now ∧ q.nextAt ≤ t.now + p.frameTime

theorem advanced_refl (p : Pacer ℤ) (t : Moment ℤ) : Advanced p t p :=
  ⟨rfl, rfl, rfl, .inl rfl⟩

/-- A frame is only run when it is due. -/
theorem Advanced.postpone (h : Advanced p t q) (hd : q.nextAt ≤ t.now) (hqr : Undisturbed q r) :
    Advanced p t r.postpone := by
  have hnext : r.postpone.nextAt = q.nextAt + p.frameTime := by
    rw [← hqr.nextAt, ← h.frameTime, ← hqr.frameTime]
    rfl
  refine ⟨hqr.adapters.trans h.adapters, hqr.frameTime.trans h.frameTime,
    hqr.running.trans h.running, .inr ⟨?_, by omega⟩⟩
  rcases h.nextAt with heq | ⟨hle, _⟩
  · rwa [← heq]
  · exact hle

/-- The frames of a timer leave the loop running, or they stop it. No timer is set before they are
over. -/
theorem runDue_of_quiet (hq : p.adapters.Quiet) (hr : p.running = true) (t : Moment ℤ) (n : ℕ) :
    (∃ q, p.runDue t n = (.goOn, q) ∧ Advanced p t q ∧ q.pending = p.pending) ∨
      ∃ q, p.runDue t n = (.stopped, q) ∧ Halted p q := by
  apply runDue_of (p := p) (G := fun q => Advanced p t q ∧ q.pending = p.pending)
    (E := fun o => (∃ q, o = (.goOn, q) ∧ Advanced p t q ∧ q.pending = p.pending) ∨
      ∃ q, o = (.stopped, q) ∧ Halted p q)
  · exact ⟨advanced_refl p t, rfl⟩
  · exact fun q hq => .inl ⟨q, rfl, hq⟩
  · rintro q hmem r ⟨hpq, hpending⟩ hgo
    have hquiet : q.adapters.Quiet := by rwa [hpq.adapters]
    rcases runFrame_of_quiet hquiet (hpq.running.trans hr) t with ⟨s, hrun, hqs⟩ | ⟨s, hrun, _⟩
    · obtain rfl : s = r := by simpa [hrun] using hgo
      exact ⟨hpq.postpone (due_of_mem_frameStarts hmem) hqs, hqs.pending.trans hpending⟩
    · simp [hrun] at hgo
  · rintro q _ v r ⟨hpq, hpending⟩ hv hlast
    have hquiet : q.adapters.Quiet := by rwa [hpq.adapters]
    rcases runFrame_of_quiet hquiet (hpq.running.trans hr) t with ⟨s, hrun, _⟩ | ⟨s, hrun, hqs⟩
    · rw [hrun] at hlast
      exact absurd (congrArg Prod.fst hlast).symm hv
    · refine .inr ⟨s, by rw [← hlast, hrun], hqs.adapters.trans hpq.adapters,
        hqs.frameTime.trans hpq.frameTime, hqs.running, ?_⟩
      rw [← hpending]
      exact hqs.pending

/-- The timer of a loop that runs has set the timer for the next frame. -/
structure Timed (p : Pacer ℤ) (t : Moment ℤ) (q : Pacer ℤ) : Prop extends Advanced p t q where
  now_lt : t.now < q.nextAt
  pending : ∀ a ∈ q.pending, a ∈ p.pending ∨ a.delay t = q.nextAt - t.now

theorem mem_pending_arm {d : ℤ} (hd : 0 ≤ d) (ha : a ∈ (p.arm t d).pending) :
    a ∈ p.pending ∨ a.delay t = d := by
  rcases List.mem_append.mp ha with ha | ha
  · exact .inl ha
  · obtain rfl := List.mem_singleton.mp ha
    right
    have hmax : (if d ≤ 0 then 0 else d) = d := by
      split <;> omega
    exact (add_sub_cancel_left _ _).trans hmax

theorem Advanced.rearm (h : Advanced p t q) (hf : 1 ≤ p.frameTime)
    (hpending : q.pending = p.pending) : Timed p t (q.rearm t) := by
  have hlt := lt_nextAt_rearm (p := q) (by rwa [h.frameTime]) t
  have hnext := nextAt_rearm q t
  have hrearm := rearm_eq_arm q t
  refine ⟨⟨by rw [hrearm]; exact h.adapters, by rw [hrearm]; exact h.frameTime,
    by rw [hrearm]; exact h.running, ?_⟩, hlt, ?_⟩
  · rw [hnext, h.frameTime]
    split
    case isTrue hle =>
      right
      rcases h.nextAt with heq | ⟨hle', _⟩ <;> omega
    case isFalse => exact h.nextAt
  · intro a ha
    rw [hrearm] at ha
    rw [← hpending]
    exact mem_pending_arm (by omega) ha

/-- What an action does to a loop with such adapters. -/
inductive Moved (p : Pacer ℤ) : Action ℤ → Pacer ℤ → Prop where
  | kept {x : Action ℤ} {q : Pacer ℤ} (h : Undisturbed p q) : Moved p x q
  | halted {x : Action ℤ} {q : Pacer ℤ} (h : Halted p q) : Moved p x q
  | started {t : Moment ℤ} (hr : p.running = false) : Moved p (.start t) (p.start t)
  | timed {t : Moment ℤ} {id : ℕ} {a : Alarm ℤ} {q : Pacer ℤ} (hr : p.running = true)
      (ha : p.alarm? id = some a) (h : Timed p t q) : Moved p (.expire t id) q

theorem halted_take (hr : p.running = false) (a : Alarm ℤ) : Halted p (p.take a) :=
  ⟨rfl, rfl, hr, List.filter_subset_self _⟩

theorem Halted.of_take (h : Halted (p.take a) q) : Halted p q :=
  ⟨h.adapters, h.frameTime, h.running, fun _ hb => List.filter_subset_self _ (h.pending hb)⟩

theorem Timed.of_take (h : Timed (p.take a) t q) : Timed p t q :=
  ⟨⟨h.adapters, h.frameTime, h.running, h.nextAt⟩, h.now_lt, fun b hb =>
    (h.pending b hb).imp_left fun hb => List.filter_subset_self _ hb⟩

theorem moved_fire (hq : p.adapters.Quiet) (hf : 1 ≤ p.frameTime) (ha : p.alarm? id = some a) :
    Moved p (.expire t id) (p.fire t a).2 := by
  cases hr : p.running with
  | false =>
    rw [fire_of_not_running hr]
    exact .halted (halted_take hr a)
  | true =>
    rcases runDue_of_quiet (p := p.take a) hq hr t p.catchUp with
      ⟨q, hd, hpq, hpending⟩ | ⟨q, hd, hpq⟩
    · rw [fire_of_runDue hr hd]
      exact .timed hr ha (hpq.rearm hf hpending).of_take
    · rw [fire_of_runDue hr hd]
      exact .halted hpq.of_take

theorem moved_act (hq : p.adapters.Quiet) (hf : 1 ≤ p.frameTime) (x : Action ℤ) :
    Moved p x (p.act x) := by
  cases x with
  | start t =>
    cases hr : p.running with
    | false => exact .started hr
    | true => exact .kept (by simpa [act, start, hr] using undisturbed_refl p)
  | stop t =>
    obtain ⟨q, hs, hpq⟩ := stop_of_quiet hq t
    exact .halted (by simpa [act, hs] using hpq)
  | expire t id =>
    cases ha : p.alarm? id with
    | some a => simpa [act, ha] using moved_fire hq hf ha
    | none => exact .kept (by simpa [act, ha] using undisturbed_refl p)
  | replace runner => exact .kept ⟨rfl, rfl, rfl, rfl, rfl, rfl⟩

theorem Moved.adapters (h : Moved p x q) : q.adapters = p.adapters := by
  cases h with
  | kept h => exact h.adapters
  | halted h => exact h.adapters
  | started hr => simp [start, hr, arm]
  | timed _ _ h => exact h.adapters

theorem Moved.frameTime (h : Moved p x q) : q.frameTime = p.frameTime := by
  cases h with
  | kept h => exact h.frameTime
  | halted h => exact h.frameTime
  | started hr => simp [start, hr, arm]
  | timed _ _ h => exact h.frameTime

/-! Timers that are set. -/

/-- The timer `a` is set in an action at `t`. -/
structure Sets (p : Pacer ℤ) (x : Action ℤ) (t : Moment ℤ) (a : Alarm ℤ) : Prop where
  moment : x.moment? = some t
  mem : a ∈ (p.act x).pending
  notMem : a ∉ p.pending

/-- A timer of a loop that runs finds the next frame more than a period ahead. -/
def TurnedBack (p : Pacer ℤ) (x : Action ℤ) : Prop :=
  ∃ t id a, x = .expire t id ∧ p.alarm? id = some a ∧ p.running = true ∧
    t.now + p.frameTime < p.nextAt

theorem delay_of_sets (hq : p.adapters.Quiet) (hf : 1 ≤ p.frameTime) (h : Sets p x t a) :
    0 ≤ a.delay t ∧ (a.delay t ≤ p.frameTime ↔ ¬ TurnedBack p x) ∧
      (TurnedBack p x → p.running = true ∧ a.delay t = p.nextAt - t.now) := by
  have hmem := h.mem
  have hmoment := h.moment
  have hm := moved_act hq hf x
  generalize p.act x = q at hm hmem
  cases hm with
  | kept hpq => exact absurd (hpq.pending ▸ hmem) h.notMem
  | halted hpq => exact absurd (hpq.pending hmem) h.notMem
  | started hr =>
    obtain rfl := Option.some.inj hmoment
    have hnot (s : Moment ℤ) : ¬ TurnedBack p (.start s) := by
      rintro ⟨_, _, _, hx, _⟩
      simp at hx
    simp only [start, hr, Bool.false_eq_true, if_false] at hmem
    rcases mem_pending_arm le_rfl hmem with ha | hdelay
    · exact absurd ha h.notMem
    · refine ⟨hdelay.ge, iff_of_true ?_ (hnot _), fun hback => absurd hback (hnot _)⟩
      rw [hdelay]
      omega
  | timed hr ha hpq =>
    rename_i t id b
    obtain rfl := Option.some.inj hmoment
    have hback : TurnedBack p (.expire t id) ↔ t.now + p.frameTime < p.nextAt := by
      refine ⟨?_, fun hlt => ⟨t, id, b, rfl, ha, hr, hlt⟩⟩
      rintro ⟨t', id', _, hx, _, _, hlt⟩
      obtain ⟨rfl, rfl⟩ := Action.expire.inj hx
      exact hlt
    have hnow := hpq.now_lt
    have hdelay := (hpq.pending a hmem).resolve_left h.notMem
    rw [hback]
    rcases hpq.nextAt with heq | ⟨hdue, hle⟩
    · exact ⟨by omega, by omega, fun _ => ⟨hr, by omega⟩⟩
    · exact ⟨by omega, by omega, by omega⟩

/-- The loop has been running since some action at `s`. -/
inductive RunsSince (p : Pacer ℤ) (s : Moment ℤ) : List (Action ℤ) → Prop where
  | now {xs : List (Action ℤ)} {x : Action ℤ} (hs : x.moment? = some s)
      (hr : (p.run (xs ++ [x])).running = true) : RunsSince p s (xs ++ [x])
  | earlier {xs : List (Action ℤ)} {x : Action ℤ} (h : RunsSince p s xs)
      (hr : (p.run (xs ++ [x])).running = true) : RunsSince p s (xs ++ [x])

/-- The next frame of a loop that runs is due at most one period after some action since its
start. -/
structure Ahead (p : Pacer ℤ) (xs : List (Action ℤ)) : Prop where
  adapters : (p.run xs).adapters = p.adapters
  frameTime : (p.run xs).frameTime = p.frameTime
  nextAt_le : (p.run xs).running = true →
    ∃ s, RunsSince p s xs ∧ (p.run xs).nextAt ≤ s.now + p.frameTime

theorem Ahead.act (h : Ahead p xs) (hq : p.adapters.Quiet) (hf : 1 ≤ p.frameTime)
    (x : Action ℤ) : Ahead p (xs ++ [x]) := by
  have hm := moved_act (p := p.run xs) (by rwa [h.adapters]) (by rwa [h.frameTime]) x
  rw [← run_concat] at hm
  refine ⟨hm.adapters.trans h.adapters, hm.frameTime.trans h.frameTime, fun hr => ?_⟩
  have hlater (hbefore : (p.run xs).running = true)
      (hnext : (p.run (xs ++ [x])).nextAt = (p.run xs).nextAt) :
      ∃ s, RunsSince p s (xs ++ [x]) ∧ (p.run (xs ++ [x])).nextAt ≤ s.now + p.frameTime := by
    obtain ⟨s, hs, hle⟩ := h.nextAt_le hbefore
    exact ⟨s, hs.earlier hr, by rwa [hnext]⟩
  generalize hrun : p.run (xs ++ [x]) = q at hm hr hlater ⊢
  have hx := h.frameTime
  cases hm with
  | kept hpq => exact hlater (hpq.running ▸ hr) hpq.nextAt
  | halted hpq =>
    rw [hpq.running] at hr
    simp at hr
  | started hbefore =>
    rename_i t
    refine ⟨t, .now rfl (by rw [hrun]; exact hr), ?_⟩
    simp only [start, hbefore, Bool.false_eq_true, if_false, arm]
    omega
  | timed hbefore ha hpq =>
    rename_i t _ _
    rcases hpq.nextAt with heq | ⟨_, hle⟩
    · exact hlater hbefore heq
    · exact ⟨t, .now rfl (by rw [hrun]; exact hr), by rwa [← hx]⟩

theorem ahead_run (hr : p.running = false) (hq : p.adapters.Quiet) (hf : 1 ≤ p.frameTime)
    (xs : List (Action ℤ)) : Ahead p xs := by
  induction xs using List.reverseRecOn with
  | nil => exact ⟨rfl, rfl, fun h => by simp [run, hr] at h⟩
  | append_singleton xs x ih => exact ih.act hq hf x

/-- Whatever the clocks say, no timer of a loop with adapters that only listen is set to run in the
past. It is set to run within one period, unless it is set by a timer that finds the next frame more
than a period ahead. Then the clock has been set back since the loop was started, and the timer
takes longer by no more than the clock has gone back since some action. -/
theorem delay_le_iff (hr : p.running = false) (hq : p.adapters.Quiet) (hf : 1 ≤ p.frameTime)
    (h : Sets (p.run xs) x t a) :
    0 ≤ a.delay t ∧ (a.delay t ≤ p.frameTime ↔ ¬ TurnedBack (p.run xs) x) ∧
      (TurnedBack (p.run xs) x → ∃ s, RunsSince p s xs ∧ t.now < s.now ∧
        a.delay t ≤ p.frameTime + (s.now - t.now)) := by
  have hahead := ahead_run hr hq hf xs
  have htime := hahead.frameTime
  obtain ⟨hnonneg, hiff, hback⟩ := delay_of_sets (by rwa [hahead.adapters]) (by rwa [htime]) h
  rw [htime] at hiff
  refine ⟨hnonneg, hiff, fun hturned => ?_⟩
  obtain ⟨hrunning, hdelay⟩ := hback hturned
  obtain ⟨s, hs, hle⟩ := hahead.nextAt_le hrunning
  have hlong := hiff.not.mpr (not_not.mpr hturned)
  exact ⟨s, hs, by omega, by omega⟩

/-- The clock is set back by a second between the start and the first timer. -/
theorem sets_listening :
    Sets ((sample listening).run [.start ⟨0, 0⟩]) (.expire ⟨0, -1000⟩ 0) ⟨0, -1000⟩ ⟨1, 1000⟩ := by
  have hbefore : ((sample listening).run [.start ⟨0, 0⟩]).pending = [⟨0, 0⟩] := rfl
  have hafter : (((sample listening).run [.start ⟨0, 0⟩]).act (.expire ⟨0, -1000⟩ 0)).pending =
      [⟨1, 1000⟩] := rfl
  exact ⟨rfl, by simp [hafter], by simp [hbefore]⟩

/-- The loop then sleeps a second longer than a period at most. -/
theorem delay_le_iff_listening :
    let p := sample listening
    let xs : List (Action ℤ) := [.start ⟨0, 0⟩]
    p.running = false ∧ p.adapters.Quiet ∧ 1 ≤ p.frameTime ∧
      Sets (p.run xs) (.expire ⟨0, -1000⟩ 0) ⟨0, -1000⟩ ⟨1, 1000⟩ ∧
      TurnedBack (p.run xs) (.expire ⟨0, -1000⟩ 0) ∧
      ∃ s, RunsSince p s xs ∧ -1000 < s.now ∧
        Alarm.delay ⟨1, 1000⟩ ⟨0, -1000⟩ ≤ p.frameTime + (s.now - -1000) := by
  intro p xs
  obtain ⟨_, hiff, hback⟩ :=
    delay_le_iff (p := p) rfl quiet_listening (by decide) sets_listening
  have hturned : TurnedBack (p.run xs) (.expire ⟨0, -1000⟩ 0) := by
    by_contra h
    exact absurd (hiff.mpr h) (by decide)
  exact ⟨rfl, quiet_listening, by decide, sets_listening, hturned, hback hturned⟩

theorem not_delay_le_listening :
    ¬ ∀ (xs : List (Action ℤ)) (x : Action ℤ) (t : Moment ℤ) (a : Alarm ℤ),
      Sets ((sample listening).run xs) x t a →
        0 ≤ a.delay t ∧ a.delay t ≤ (sample listening).frameTime := by
  intro h
  exact absurd (h _ _ _ _ sets_listening).2 (by decide)

end Pacer

end Chip8
