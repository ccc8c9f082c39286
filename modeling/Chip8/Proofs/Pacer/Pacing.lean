import Chip8.Proofs.Pacer.Frames
import Chip8.Proofs.Pacer.Quiet
import Chip8.Proofs.Pacer.Work

/-! How many frames a loop runs on a clock of whole numbers. -/
namespace Chip8

namespace Pacer

variable {p q : Pacer ℤ} {t t₀ : Moment ℤ} {a : Alarm ℤ} {x : Action ℤ} {xs : List (Action ℤ)}
  {id k n : ℕ} {now : ℤ}

/-- How many frames are due: one at `nextAt`, if that is not still to come, and one at the end of
each further period up to now. -/
def due (p : Pacer ℤ) (t : Moment ℤ) : ℕ :=
  if t.now < p.nextAt then 0 else ((t.now - p.nextAt) / p.frameTime).toNat + 1

theorem due_le_iff (hf : 1 ≤ p.frameTime) :
    p.due t ≤ k ↔ t.now < p.nextAt + k * p.frameTime := by
  have hpos : 0 < p.frameTime := by omega
  unfold due
  split
  case isTrue h =>
    have : 0 ≤ (k : ℤ) * p.frameTime := by positivity
    simp only [zero_le, true_iff]
    omega
  case isFalse h =>
    have hnonneg : 0 ≤ (t.now - p.nextAt) / p.frameTime := Int.ediv_nonneg (by omega) (by omega)
    have hlt := Int.ediv_lt_iff_lt_mul (a := t.now - p.nextAt) (b := k) hpos
    omega

/-- A frame that is run is due no more. -/
theorem due_eq_succ (hf : 1 ≤ p.frameTime) (h : p.nextAt ≤ t.now) (hq : Undisturbed p q) :
    p.due t = q.postpone.due t + 1 := by
  have hnext : q.postpone.nextAt = p.nextAt + p.frameTime := by
    rw [← hq.nextAt, ← hq.frameTime]
    rfl
  have htime : q.postpone.frameTime = p.frameTime := hq.frameTime
  have hpos : ¬ p.due t ≤ 0 := by
    rw [due_le_iff hf]
    simpa using h
  have hiff (k : ℕ) : p.due t ≤ k + 1 ↔ q.postpone.due t ≤ k := by
    rw [due_le_iff hf, due_le_iff (by omega), hnext, htime]
    push_cast
    rw [add_mul]
    omega
  have hle := (hiff (p.due t - 1)).mp (by omega)
  have hge := (hiff (q.postpone.due t)).mpr le_rfl
  omega

/-! Timers whose frames have no faults. -/

/-- A loop runs the frames that are due, or as many of them as it may, and counts each period on
from the one before. -/
theorem runDue_of_faultless (hq : p.adapters.Quiet) (hr : p.running = true)
    (hf : 1 ≤ p.frameTime) (hp : ∀ q ∈ frameStarts t n p, Faultless q) :
    (frameStarts t n p).length = min n (p.due t) ∧
      ∃ q, p.runDue t n = (.goOn, q) ∧
        Undisturbed { p with nextAt := p.nextAt + (min n (p.due t) : ℕ) * p.frameTime } q := by
  induction n generalizing p with
  | zero => exact ⟨by simp [frameStarts], p, rfl, by simpa using undisturbed_refl p⟩
  | succ n ih =>
    unfold frameStarts at hp ⊢
    unfold runDue
    by_cases hd : p.nextAt ≤ t.now
    · simp only [hd, if_true] at hp ⊢
      obtain ⟨q, hrun, hpq⟩ := runFrame_of_faultless hq hr (hp p (by simp)) t
      have hadapters : q.postpone.adapters = p.adapters := hpq.adapters
      have htime : q.postpone.frameTime = p.frameTime := hpq.frameTime
      have hrunning : q.postpone.running = p.running := hpq.running
      simp only [hrun] at hp ⊢
      obtain ⟨hlength, r, hdue, hqr⟩ := ih (by rwa [hadapters]) (by rwa [hrunning])
        (by rwa [htime]) fun s hs => hp s (by simp [hs])
      have hmin : min (n + 1) (p.due t) = min n (q.postpone.due t) + 1 := by
        rw [due_eq_succ hf hd hpq]
        omega
      refine ⟨by rw [List.length_cons, hlength, hmin], r, hdue, hqr.adapters.trans hadapters,
        hqr.frameTime.trans htime, hqr.catchUp.trans hpq.catchUp, hqr.running.trans hrunning, ?_,
        hqr.pending.trans hpq.pending⟩
      have hnext : q.postpone.nextAt = p.nextAt + p.frameTime := by
        rw [← hpq.nextAt, ← hpq.frameTime]
        rfl
      have hnextAt := hqr.nextAt
      simp only [hnext, htime] at hnextAt
      rw [hnextAt, hmin]
      push_cast
      ring
    · have hzero : p.due t = 0 := if_pos (by omega)
      simp only [hd, if_false]
      exact ⟨by simp [hzero], p, rfl, by simpa [hzero] using undisturbed_refl p⟩

/-- A timer runs the frames that are due and goes on behind them, or it runs as many as it may and
drops the rest. The next frame is still to come then, and nothing else but the timer has changed. -/
theorem act_of_faultless (hq : p.adapters.Quiet) (hr : p.running = true) (hf : 1 ≤ p.frameTime)
    (ha : p.alarm? id = some a) (hp : ∀ q ∈ p.startsIn (.expire t id), Faultless q) :
    (p.startsIn (.expire t id)).length = min p.catchUp (p.due t) ∧
      t.now < (p.act (.expire t id)).nextAt ∧
      Undisturbed
        { p with
          pending := (p.act (.expire t id)).pending
          nextAt := if p.catchUp < p.due t then t.now + p.frameTime
            else p.nextAt + p.due t * p.frameTime }
        (p.act (.expire t id)) := by
  have hstarts : p.startsIn (.expire t id) = frameStarts t p.catchUp (p.take a) := by
    simp only [startsIn, ha, framesOf_of_running hr]
  rw [hstarts] at hp ⊢
  obtain ⟨hlength, q, hdue, hpq⟩ := runDue_of_faultless (p := p.take a) hq hr hf hp
  have hact : p.act (.expire t id) = q.rearm t := by
    simp only [act, ha, fire_of_runDue hr hdue]
  obtain ⟨nextAt, delay, hrearm⟩ := rearm_eq q t
  have hnext : q.nextAt = p.nextAt + (min p.catchUp (p.due t) : ℕ) * p.frameTime := hpq.nextAt
  have htime : q.frameTime = p.frameTime := hpq.frameTime
  -- a backlog is left exactly if more frames were due than could be run
  have hiff : t.now < q.nextAt ↔ p.due t ≤ min p.catchUp (p.due t) := by
    rw [due_le_iff hf, hnext]
  refine ⟨hlength, ?_, ?_⟩
  · rw [hact]
    exact lt_nextAt_rearm (by rwa [htime]) t
  rw [hact]
  refine ⟨by rw [hrearm]; exact hpq.adapters, by rw [hrearm]; exact hpq.frameTime,
    by rw [hrearm]; exact hpq.catchUp, by rw [hrearm]; exact hpq.running, ?_, rfl⟩
  rw [nextAt_rearm, htime]
  by_cases hlate : p.catchUp < p.due t
  · have hbehind : q.nextAt ≤ t.now := by omega
    rw [if_pos hbehind, if_pos hlate]
  · have hahead : ¬ q.nextAt ≤ t.now := by omega
    have hmin : min p.catchUp (p.due t) = p.due t := by omega
    rw [if_neg hahead, if_neg hlate, hnext, hmin]

/-! Each frame that is begun is one more for the runner to have counted. -/

theorem frames_runDue (hp : ∀ q ∈ frameStarts t n p, Faultless q) :
    (p.runDue t n).2.runner.frames = p.runner.frames + (frameStarts t n p).length := by
  induction n generalizing p with
  | zero => rfl
  | succ n ih =>
    unfold frameStarts at hp ⊢
    unfold runDue
    by_cases hd : p.nextAt ≤ t.now
    · simp only [hd, if_true] at hp ⊢
      obtain ⟨f, hf, -⟩ := hp p (by simp)
      have hframe : (p.runFrame t).2.runner.frames = p.runner.frames + 1 := by
        rw [runner_runFrame]
        exact (Runner.frames_of_ok hf).2
      cases hrun : p.runFrame t with
      | mk v q =>
        rw [hrun] at hframe
        change q.runner.frames = _ at hframe
        simp only [hrun] at hp ⊢
        cases v with
        | goOn =>
          have hrest : (q.postpone.runDue t n).2.runner.frames =
              q.runner.frames + (frameStarts t n q.postpone).length :=
            ih fun s hs => hp s (by simp [hs])
          change (q.postpone.runDue t n).2.runner.frames =
            p.runner.frames + ((frameStarts t n q.postpone).length + 1)
          omega
        | stopped => exact hframe
        | escaped failure => exact hframe
    · simp only [hd, if_false]
      rfl

theorem frames_act (hp : ∀ q ∈ p.startsIn x, Faultless q)
    (hx : ∀ runner, x = .replace runner → runner.frames = p.runner.frames) :
    (p.act x).runner.frames = p.runner.frames + (p.startsIn x).length := by
  cases x with
  | start s =>
    simp only [act, start, startsIn]
    split <;> rfl
  | stop s => exact congrArg Runner.frames ((toggling_runner p.runner).stop s rfl)
  | replace runner => exact hx runner rfl
  | expire s id =>
    cases ha : p.alarm? id with
    | none => simp [act, startsIn, ha]
    | some a =>
      have hstarts : p.startsIn (.expire s id) = p.framesOf s a := by simp [startsIn, ha]
      have hact : p.act (.expire s id) = (p.fire s a).2 := by simp [act, ha]
      rw [hstarts] at hp ⊢
      rw [hact]
      cases hr : p.running with
      | false =>
        rw [fire_of_not_running hr]
        simp [framesOf, hr, take]
      | true =>
        rw [framesOf_of_running hr] at hp ⊢
        have hdue := frames_runDue hp
        cases hq : (p.take a).runDue s p.catchUp with
        | mk v q =>
          rw [hq] at hdue
          rw [fire_of_runDue hr hq]
          cases v with
          | goOn =>
            obtain ⟨nextAt, delay, hrearm⟩ := rearm_eq q s
            rw [hrearm]
            exact hdue
          | stopped => exact hdue
          | escaped failure => exact hdue

/-- Where nobody else runs frames, the runner has counted the frames of a run. -/
theorem frames_run (hp : ∀ q ∈ p.starts xs, Faultless q) (hxs : Sole p xs) :
    (p.run xs).runner.frames = p.runner.frames + (p.starts xs).length := by
  induction xs using List.reverseRecOn with
  | nil => rfl
  | append_singleton xs x ih =>
    simp only [starts_concat, List.mem_append] at hp
    have hbefore := ih (fun q hq => hp q (.inl hq)) fun ys runner hys =>
      hxs ys runner (hys.trans (List.prefix_append xs [x]))
    have hact := frames_act (fun q hq => hp q (.inr hq)) fun runner hx =>
      hxs xs runner (by rw [hx])
    rw [run_concat, starts_concat, List.length_append, hact, hbefore, Nat.add_assoc]

/-! Runs from a start on. -/

/-- A timer that finds more frames due than may be caught up. -/
def Overdue (p : Pacer ℤ) (x : Action ℤ) : Prop :=
  ∃ t id a, x = .expire t id ∧ p.alarm? id = some a ∧ p.catchUp < p.due t

def NeverOverdue (p : Pacer ℤ) (xs : List (Action ℤ)) : Prop :=
  ∀ ys x, ys ++ [x] <+: xs → ¬ Overdue (p.run ys) x

theorem neverOverdue_concat :
    NeverOverdue p (xs ++ [x]) ↔ NeverOverdue p xs ∧ ¬ Overdue (p.run xs) x := by
  constructor
  · intro h
    exact ⟨fun ys y hy => h ys y (hy.trans (List.prefix_append xs [x])),
      h xs x (List.prefix_refl _)⟩
  · rintro ⟨hxs, hx⟩ ys y hy
    rcases List.prefix_concat_iff.mp hy with heq | hy
    · obtain ⟨rfl, hyx⟩ := List.append_inj' heq rfl
      obtain rfl : y = x := by simpa using hyx
      exact hx
    · exact hxs ys y hy

/-- No reading of the clock was later than `now`. -/
def Before (now : ℤ) (xs : List (Action ℤ)) : Prop :=
  ∀ x ∈ xs, ∀ t, x.moment? = some t → t.now ≤ now

/-- A loop that was started at `t₀` and has taken the actions `xs` since: the next frame comes no
earlier than a frame for each period would have it, and just then if no timer was overdue; and so
there were no more frames than that. -/
structure OnPace (p : Pacer ℤ) (t₀ : Moment ℤ) (xs : List (Action ℤ)) : Prop where
  undisturbed : Undisturbed
    { p with nextAt := (p.run xs).nextAt, pending := (p.run xs).pending } (p.run xs)
  le_nextAt : t₀.now + (p.starts xs).length * p.frameTime ≤ (p.run xs).nextAt
  nextAt_le : NeverOverdue p xs →
    (p.run xs).nextAt ≤ t₀.now + (p.starts xs).length * p.frameTime
  frames_le : ∀ now, t₀.now ≤ now → Before now xs →
    (p.starts xs).length * p.frameTime ≤ now - t₀.now + p.frameTime

theorem onPace_nil (hp : p.nextAt = t₀.now) (hf : 1 ≤ p.frameTime) : OnPace p t₀ [] where
  undisturbed := undisturbed_refl p
  le_nextAt := by simp [starts, run, hp]
  nextAt_le _ := by simp [starts, run, hp]
  frames_le now hnow _ := by
    simp only [starts, List.length_nil, Nat.cast_zero, zero_mul]
    omega

theorem before_concat : Before now (xs ++ [x]) ↔
    Before now xs ∧ ∀ t, x.moment? = some t → t.now ≤ now := by
  simp only [Before, List.forall_mem_append, List.forall_mem_singleton]

/-- An action that runs no frame and leaves the schedule alone leaves the loop on pace. -/
theorem OnPace.idle (h : OnPace p t₀ xs) (hx : (p.run xs).startsIn x = [])
    (hact : Undisturbed (p.run xs) ((p.run xs).act x)) : OnPace p t₀ (xs ++ [x]) := by
  have hstarts : p.starts (xs ++ [x]) = p.starts xs := by rw [starts_concat, hx, List.append_nil]
  have hrun := run_concat p xs x
  refine ⟨?_, ?_, ?_, ?_⟩
  · rw [hrun]
    have hu := h.undisturbed
    exact ⟨hact.adapters.trans hu.adapters, hact.frameTime.trans hu.frameTime,
      hact.catchUp.trans hu.catchUp, hact.running.trans hu.running, rfl, rfl⟩
  · rw [hstarts, hrun, hact.nextAt]
    exact h.le_nextAt
  · intro hnever
    rw [hstarts, hrun, hact.nextAt]
    exact h.nextAt_le (neverOverdue_concat.mp hnever).1
  · intro now hnow hbefore
    rw [hstarts]
    exact h.frames_le now hnow (before_concat.mp hbefore).1

/-- What a timer adds to a run of a loop on pace. -/
theorem OnPace.run_expire (h : OnPace p t₀ xs) (hq : p.adapters.Quiet) (hr : p.running = true)
    (hf : 1 ≤ p.frameTime) (ha : (p.run xs).alarm? id = some a)
    (hp : ∀ q ∈ (p.run xs).startsIn (.expire t id), Faultless q) :
    let q := p.run xs
    let r := p.run (xs ++ [.expire t id])
    Undisturbed { p with nextAt := r.nextAt, pending := r.pending } r ∧
      (p.starts (xs ++ [.expire t id])).length =
        (p.starts xs).length + min q.catchUp (q.due t) ∧
      (r.nextAt = if q.catchUp < q.due t then t.now + p.frameTime
        else q.nextAt + q.due t * p.frameTime) ∧
      ∀ k : ℕ, q.due t ≤ k ↔ t.now < q.nextAt + k * p.frameTime := by
  intro q r
  have hu := h.undisturbed
  have hadapters : q.adapters = p.adapters := hu.adapters
  have hrunning : q.running = p.running := hu.running
  have htime : q.frameTime = p.frameTime := hu.frameTime
  obtain ⟨hlength, _, hact⟩ := act_of_faultless (by rwa [hadapters]) (by rwa [hrunning])
    (by rwa [htime]) ha hp
  have hrun : r = q.act (.expire t id) := run_concat p xs (.expire t id)
  refine ⟨?_, ?_, ?_, fun k => ?_⟩
  · rw [hrun]
    exact ⟨hact.adapters.trans hadapters, hact.frameTime.trans htime,
      hact.catchUp.trans hu.catchUp, hact.running.trans hrunning, rfl, rfl⟩
  · rw [starts_concat, List.length_append, hlength]
  · rw [hrun, ← htime]
    exact hact.nextAt
  · rw [due_le_iff (by rwa [htime]), htime]

/-- A timer leaves the loop on pace. -/
theorem OnPace.expire (h : OnPace p t₀ xs) (hq : p.adapters.Quiet) (hr : p.running = true)
    (hf : 1 ≤ p.frameTime) (ha : (p.run xs).alarm? id = some a)
    (hp : ∀ q ∈ (p.run xs).startsIn (.expire t id), Faultless q) :
    OnPace p t₀ (xs ++ [.expire t id]) := by
  obtain ⟨hu, hstarts, hnext, hdue⟩ := h.run_expire hq hr hf ha hp
  have hle := h.le_nextAt
  have hcaught (hnever : NeverOverdue p (xs ++ [.expire t id])) :
      (p.run xs).due t ≤ (p.run xs).catchUp := by
    by_contra hlate
    exact (neverOverdue_concat.mp hnever).2 ⟨t, id, a, rfl, ha, not_le.mp hlate⟩
  generalize (p.run xs).catchUp = m at hstarts hnext hcaught
  generalize (p.run xs).due t = d at hstarts hnext hdue hcaught
  refine ⟨hu, ?_, ?_, ?_⟩
  · rw [hnext, hstarts]
    push_cast
    rw [add_mul]
    split
    case isTrue hlate =>
      have hm : min (m : ℤ) d = m := by omega
      have hbehind := (hdue m).not.mp (by omega)
      rw [hm]
      omega
    case isFalse hlate =>
      have hm : min (m : ℤ) d = d := by omega
      rw [hm]
      omega
  · intro hnever
    have hon := h.nextAt_le (neverOverdue_concat.mp hnever).1
    have hle := hcaught hnever
    have hm : min (m : ℤ) d = d := by omega
    rw [hnext, if_neg (by omega), hstarts]
    push_cast
    rw [add_mul, hm]
    omega
  · intro now hnow hbefore
    obtain ⟨hxs, ht⟩ := before_concat.mp hbefore
    have hearlier := h.frames_le now hnow hxs
    have hnow := ht t rfl
    rw [hstarts]
    cases hk : min m d with
    | zero => simpa using hearlier
    | succ k =>
      -- the last frame of this timer was due
      have hlast := (hdue k).not.mp (by omega)
      push_cast
      rw [add_mul, add_mul]
      omega

theorem OnPace.act (h : OnPace p t₀ xs) (hq : p.adapters.Quiet) (hr : p.running = true)
    (hf : 1 ≤ p.frameTime) (hx : ∀ s, x ≠ .stop s)
    (hp : ∀ q ∈ (p.run xs).startsIn x, Faultless q) : OnPace p t₀ (xs ++ [x]) := by
  have hrunning : (p.run xs).running = true := h.undisturbed.running.trans hr
  cases x with
  | start s =>
    apply h.idle rfl
    simpa [Pacer.act, start, hrunning] using undisturbed_refl (p.run xs)
  | stop s => exact absurd rfl (hx s)
  | expire s id =>
    cases ha : (p.run xs).alarm? id with
    | none =>
      apply h.idle
      · simp [startsIn, ha]
      · simpa [Pacer.act, ha] using undisturbed_refl (p.run xs)
    | some a => exact h.expire hq hr hf ha hp
  | replace runner => exact h.idle rfl ⟨rfl, rfl, rfl, rfl, rfl, rfl⟩

theorem onPace_run (hq : p.adapters.Quiet) (hr : p.running = true) (hf : 1 ≤ p.frameTime)
    (hstart : p.nextAt = t₀.now) (hxs : ∀ s, .stop s ∉ xs)
    (hp : ∀ q ∈ p.starts xs, Faultless q) : OnPace p t₀ xs := by
  induction xs using List.reverseRecOn with
  | nil => exact onPace_nil hstart hf
  | append_singleton xs x ih =>
    simp only [List.mem_append, List.mem_singleton, not_or] at hxs
    simp only [starts_concat, List.mem_append] at hp
    exact (ih (fun s => (hxs s).1) fun q hq => hp q (.inl hq)).act hq hr hf
      (fun s => Ne.symm (hxs s).2) fun q hq => hp q (.inr hq)

/-- A loop that was started just now. -/
structure Started (p : Pacer ℤ) (t₀ : Moment ℤ) (q : Pacer ℤ) : Prop where
  runner : q.runner = p.runner
  adapters : q.adapters = p.adapters
  frameTime : q.frameTime = p.frameTime
  catchUp : q.catchUp = p.catchUp
  running : q.running = true
  nextAt : q.nextAt = t₀.now

theorem started_start (hr : p.running = false) (t₀ : Moment ℤ) : Started p t₀ (p.start t₀) := by
  simp only [start, hr, Bool.false_eq_true, if_false]
  exact ⟨rfl, rfl, rfl, rfl, rfl, rfl⟩

/-- A loop is started at `t₀`, with adapters that only listen, and no frame has a fault. A timer
that reads the clock at `t`, not earlier than any reading since, runs the frames that are due up to
the number that may be caught up, and its runner counts them. Since the start there were then at most
as many frames as periods have begun, and exactly as many if no timer ever found more due than that
number. A timer that does drops the rest: the next frame is due a whole period later. -/
theorem frames_paced (hr : p.running = false) (hq : p.adapters.Quiet) (hf : 1 ≤ p.frameTime)
    (hxs : ∀ s, .stop s ∉ xs) (ht₀ : t₀.now ≤ t.now) (hclock : Before t.now xs)
    (hp : ∀ q ∈ (p.start t₀).starts (xs ++ [.expire t id]), Faultless q)
    (ha : ((p.start t₀).run xs).alarm? id = some a) :
    let q := (p.start t₀).run xs
    let n := ((p.start t₀).starts (xs ++ [.expire t id])).length
    (q.startsIn (.expire t id)).length = min p.catchUp (q.due t) ∧
      (q.act (.expire t id)).runner.frames = q.runner.frames + min p.catchUp (q.due t) ∧
      (Sole (p.start t₀) xs → (q.act (.expire t id)).runner.frames = p.runner.frames + n) ∧
      (n : ℤ) ≤ (t.now - t₀.now) / p.frameTime + 1 ∧
      (NeverOverdue (p.start t₀) (xs ++ [.expire t id]) →
        (n : ℤ) = (t.now - t₀.now) / p.frameTime + 1) ∧
      (p.catchUp < q.due t → (q.act (.expire t id)).nextAt = t.now + p.frameTime) := by
  intro q n
  have hpos : 0 < p.frameTime := by omega
  have hstart := started_start hr t₀
  have hquiet : (p.start t₀).adapters.Quiet := by rwa [hstart.adapters]
  have htime : (p.start t₀).frameTime = p.frameTime := hstart.frameTime
  have hpall := hp
  simp only [starts_concat, List.mem_append] at hpall
  have hpace : OnPace (p.start t₀) t₀ xs := onPace_run hquiet hstart.running (by rwa [htime])
    hstart.nextAt hxs fun q hq => hpall q (.inl hq)
  have hqtime : q.frameTime = p.frameTime := hpace.undisturbed.frameTime.trans htime
  have hqcatchUp : q.catchUp = p.catchUp := hpace.undisturbed.catchUp.trans hstart.catchUp
  obtain ⟨hlength, hahead, hact⟩ := act_of_faultless (p := q)
    (by rw [hpace.undisturbed.adapters]; exact hquiet)
    (hpace.undisturbed.running.trans hstart.running) (by rwa [hqtime]) ha
    fun r hr => hpall r (.inr hr)
  have hend : OnPace (p.start t₀) t₀ (xs ++ [.expire t id]) := hpace.expire hquiet hstart.running
    (by rwa [htime]) ha fun r hr => hpall r (.inr hr)
  have hnext := hact.nextAt
  simp only [hqtime, hqcatchUp] at hnext
  have hlast : Before t.now (xs ++ [.expire t id]) := by
    refine before_concat.mpr ⟨hclock, fun s hs => ?_⟩
    obtain rfl : t = s := by simpa [Action.moment?] using hs
    exact le_rfl
  have hle : (n : ℤ) ≤ (t.now - t₀.now) / p.frameTime + 1 := by
    have hfast : (n : ℤ) * p.frameTime ≤ t.now - t₀.now + p.frameTime := by
      rw [← htime]
      exact hend.frames_le t.now ht₀ hlast
    have hdiv := Int.le_ediv_iff_mul_le (a := (n : ℤ) - 1) (b := t.now - t₀.now) hpos
    rw [sub_mul] at hdiv
    omega
  have hcounted : (q.act (.expire t id)).runner.frames =
      q.runner.frames + (q.startsIn (.expire t id)).length :=
    frames_act (fun r hr => hpall r (.inr hr)) fun _ hx => by cases hx
  refine ⟨by rw [hlength, hqcatchUp], by rw [hcounted, hlength, hqcatchUp], ?_, hle, ?_, ?_⟩
  · intro hsole
    have hbefore : q.runner.frames = p.runner.frames + ((p.start t₀).starts xs).length := by
      rw [← hstart.runner]
      exact frames_run (fun r hr => hpall r (.inl hr)) hsole
    rw [hcounted, hbefore, Nat.add_assoc, ← List.length_append, ← starts_concat]
  · intro hnever
    have hon : (q.act (.expire t id)).nextAt ≤ t₀.now + n * p.frameTime := by
      rw [← htime, ← run_concat]
      exact hend.nextAt_le hnever
    have hdiv := Int.ediv_lt_iff_lt_mul (a := t.now - t₀.now) (b := n) hpos
    omega
  · intro hlate
    rw [hnext, if_pos hlate]

/-- A timer that comes late finds seven frames due, of which it runs four. -/
theorem frames_paced_listening :
    let p := sample listening
    let xs : List (Action ℤ) := [.expire ⟨0, 0⟩ 0]
    p.running = false ∧ p.adapters.Quiet ∧ 1 ≤ p.frameTime ∧ (∀ s, .stop s ∉ xs) ∧
      Before 75 xs ∧ (∀ q ∈ (p.start ⟨0, 0⟩).starts (xs ++ [.expire ⟨75, 75⟩ 1]), Faultless q) ∧
      ((p.start ⟨0, 0⟩).run xs).alarm? 1 = some ⟨1, 10⟩ ∧
      let q := (p.start ⟨0, 0⟩).run xs
      q.due ⟨75, 75⟩ = 7 ∧ (q.startsIn (.expire ⟨75, 75⟩ 1)).length = 4 ∧
        (q.act (.expire ⟨75, 75⟩ 1)).runner.frames = 5 ∧
        (q.act (.expire ⟨75, 75⟩ 1)).nextAt = 85 := by
  intro p xs
  have hxs : ∀ s, .stop s ∉ xs := by simp [xs]
  have hclock : Before 75 xs := by
    intro x hx t ht
    obtain rfl : x = .expire ⟨0, 0⟩ 0 := by simpa [xs] using hx
    obtain rfl : ⟨0, 0⟩ = t := Option.some.inj ht
    decide
  have hgood : ∀ q ∈ (p.start ⟨0, 0⟩).starts (xs ++ [.expire ⟨75, 75⟩ 1]), Faultless q := by
    have hall : ((p.start ⟨0, 0⟩).starts (xs ++ [.expire ⟨75, 75⟩ 1])).all
        (fun q => q.runner.frame.1.toOption.any (·.fault?.isNone)) = true := by decide
    intro q hq
    have := List.all_eq_true.mp hall q hq
    cases hf : q.runner.frame.1 with
    | error e => simp [hf, Except.toOption] at this
    | ok f => exact ⟨f, hf, by simpa [hf, Except.toOption] using this⟩
  have ha : ((p.start ⟨0, 0⟩).run xs).alarm? 1 = some ⟨1, 10⟩ := by
    simp only [p, xs]
    rfl
  obtain ⟨hlength, _, hcounted, _, _, hlate⟩ :=
    frames_paced (p := p) rfl quiet_listening (by decide) hxs (by decide) hclock hgood ha
  have hdue : ((p.start ⟨0, 0⟩).run xs).due ⟨75, 75⟩ = 7 := by decide
  have hsole : Sole (p.start ⟨0, 0⟩) xs := by
    intro ys runner hys
    have hmem : .replace runner ∈ xs := hys.subset (by simp)
    simp [xs] at hmem
  have hmany : ((p.start ⟨0, 0⟩).starts (xs ++ [.expire ⟨75, 75⟩ 1])).length = 5 := by decide
  have hnone : p.runner.frames = 0 := rfl
  have hframes := hcounted hsole
  rw [hmany, hnone] at hframes
  rw [hdue] at hlength hlate
  exact ⟨rfl, quiet_listening, by decide, hxs, hclock, hgood, ha, hdue, hlength, hframes,
    hlate (by decide)⟩

end Pacer

end Chip8
