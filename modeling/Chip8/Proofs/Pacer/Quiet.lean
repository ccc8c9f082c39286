import Chip8.Proofs.Pacer.Run

/-! Loops with adapters that only listen: what their frames leave alone. -/
namespace Chip8

/-- Nobody calls back into the loop, and nobody fails. -/
structure Adapters.Quiet {τ : Type} (a : Adapters τ) : Prop where
  present : ∀ reaction, a.present? = some reaction → ∀ n, reaction n = .silent
  tone : ∀ reaction, a.tone? = some reaction → ∀ n, reaction n = .silent
  onFault : ∀ n, a.onFault n = .silent

theorem Adapters.quiet_silent {τ : Type} :
    Adapters.Quiet (τ := τ) ⟨some fun _ => .silent, some fun _ => .silent, fun _ => .silent⟩ := by
  refine ⟨?_, ?_, fun _ => rfl⟩ <;>
    · rintro reaction hr n
      obtain rfl := Option.some.inj hr
      rfl

namespace Pacer

variable {τ : Type} {p q r : Pacer τ} {t : Moment τ}

/-- The frame that is begun here is returned, and without a fault. -/
def Faultless (p : Pacer τ) : Prop :=
  ∃ f, p.runner.frame.1 = .ok f ∧ f.fault? = none

/-- Nothing of how and when the frames of a loop come has changed. -/
structure Undisturbed (p q : Pacer τ) : Prop where
  adapters : q.adapters = p.adapters
  frameTime : q.frameTime = p.frameTime
  catchUp : q.catchUp = p.catchUp
  running : q.running = p.running
  nextAt : q.nextAt = p.nextAt
  pending : q.pending = p.pending

theorem undisturbed_refl (p : Pacer τ) : Undisturbed p p :=
  ⟨rfl, rfl, rfl, rfl, rfl, rfl⟩

theorem Undisturbed.trans (hpq : Undisturbed p q) (hqr : Undisturbed q r) : Undisturbed p r :=
  ⟨hqr.adapters.trans hpq.adapters, hqr.frameTime.trans hpq.frameTime,
    hqr.catchUp.trans hpq.catchUp, hqr.running.trans hpq.running, hqr.nextAt.trans hpq.nextAt,
    hqr.pending.trans hpq.pending⟩

theorem undisturbed_switch (p : Pacer τ) (on : Bool) : Undisturbed p (p.switch on) :=
  ⟨rfl, rfl, rfl, rfl, rfl, rfl⟩

theorem undisturbed_advance (p : Pacer τ) (runner : Runner) (latest? : Option Frame) :
    Undisturbed p { p with runner, latest? } :=
  ⟨rfl, rfl, rfl, rfl, rfl, rfl⟩

/-- The loop was stopped, and nothing else of how its frames come has changed. No timer was set. -/
structure Halted (p q : Pacer τ) : Prop where
  adapters : q.adapters = p.adapters
  frameTime : q.frameTime = p.frameTime
  running : q.running = false
  pending : q.pending ⊆ p.pending

theorem halted_halt (p : Pacer τ) : Halted p p.halt := by
  refine ⟨rfl, rfl, rfl, ?_⟩
  unfold halt
  cases p.timer? with
  | none => exact fun _ ha => ha
  | some id => exact List.filter_subset_self _

theorem Halted.undisturbed (h : Halted p q) (hqr : Undisturbed q r) : Halted p r :=
  ⟨hqr.adapters.trans h.adapters, hqr.frameTime.trans h.frameTime, hqr.running.trans h.running,
    by rw [hqr.pending]; exact h.pending⟩

theorem Undisturbed.halted (hpq : Undisturbed p q) (h : Halted q r) : Halted p r :=
  ⟨h.adapters.trans hpq.adapters, h.frameTime.trans hpq.frameTime, h.running,
    by rw [← hpq.pending]; exact h.pending⟩

theorem speakerReaction_of_quiet (hq : p.adapters.Quiet) : p.speakerReaction = .silent := by
  unfold speakerReaction
  cases ht : p.adapters.tone? with
  | none => rfl
  | some reaction => exact hq.tone reaction ht _

variable [Scalar τ]

theorem silence_of_quiet (hq : p.adapters.Quiet) (t : Moment τ) :
    ∃ q, p.silence t = (none, q) ∧ Undisturbed p q := by
  unfold silence
  split
  · have hs : (p.switch false).speakerReaction = .silent := speakerReaction_of_quiet hq
    dsimp only
    rw [hs]
    exact ⟨_, rfl, undisturbed_switch p false⟩
  · exact ⟨p, rfl, undisturbed_refl p⟩

theorem setTone_of_quiet (hq : p.adapters.Quiet) (t : Moment τ) (on : Bool) :
    ∃ q, p.setTone t on = (none, q) ∧ Undisturbed p q := by
  unfold setTone sound
  split
  · split
    · exact ⟨p, rfl, undisturbed_refl p⟩
    · have hs : (p.switch true).speakerReaction = .silent := speakerReaction_of_quiet hq
      dsimp only
      rw [hs]
      exact ⟨_, rfl, undisturbed_switch p true⟩
  · exact silence_of_quiet hq t

theorem present_of_quiet (hq : p.adapters.Quiet) (t : Moment τ) (f : Frame) :
    ∃ q, p.present t f = (none, q) ∧ Undisturbed p q := by
  unfold present
  split
  · exact ⟨p, rfl, undisturbed_refl p⟩
  · rename_i reaction hr
    have hs : reaction (p.noteFrame f).presents = .silent := hq.present reaction hr _
    dsimp only
    rw [hs]
    exact ⟨p.noteFrame f, rfl, rfl, rfl, rfl, rfl, rfl, rfl⟩

theorem deliver_of_quiet (hq : p.adapters.Quiet) (t : Moment τ) (f : Frame) :
    ∃ q, p.deliver t f = (none, q) ∧ Undisturbed p q := by
  obtain ⟨q, hpresent, hpq⟩ := present_of_quiet hq t f
  have hadapters : q.adapters.Quiet := by rwa [hpq.adapters]
  obtain ⟨r, htone, hqr⟩ := setTone_of_quiet hadapters t f.soundActive
  exact ⟨r, by simp [deliver, hpresent, htone], hpq.trans hqr⟩

theorem stop_of_quiet (hq : p.adapters.Quiet) (t : Moment τ) :
    ∃ q, p.stop t = (none, q) ∧ Halted p q := by
  obtain ⟨q, hs, hpq⟩ := silence_of_quiet (p := p.halt) hq t
  exact ⟨q, hs, (halted_halt p).undisturbed hpq⟩

theorem fail_of_quiet (hq : p.adapters.Quiet) (t : Moment τ) (error : Failure)
    (frame? : Option Frame) : ∃ q, p.fail t error frame? = (none, q) ∧ Halted p q := by
  obtain ⟨q, hs, hpq⟩ := stop_of_quiet hq t
  have hr : (q.noteFault error frame?).adapters.onFault (q.noteFault error frame?).faults =
      .silent := by
    change q.adapters.onFault _ = _
    rw [hpq.adapters]
    exact hq.onFault _
  refine ⟨q.noteFault error frame?, ?_, hpq.undisturbed ⟨rfl, rfl, rfl, rfl, rfl, rfl⟩⟩
  simp only [fail, hs, hr]
  rfl

theorem undisturbed_tryFrame (hq : p.adapters.Quiet) (t : Moment τ) :
    Undisturbed p (p.tryFrame t).2 := by
  unfold tryFrame
  split
  · exact undisturbed_advance p _ p.latest?
  · rename_i f runner hf
    obtain ⟨q, hd, hpq⟩ := deliver_of_quiet (p := { p with runner, latest? := some f }) hq t f
    rw [hd]
    exact (undisturbed_advance p _ _).trans hpq

theorem tryFrame_eq_none_iff (hq : p.adapters.Quiet) (t : Moment τ) :
    (p.tryFrame t).1 = none ↔ Faultless p := by
  unfold tryFrame Faultless
  split
  · rename_i failure runner hf
    simp [hf]
  · rename_i f runner hf
    obtain ⟨q, hd, _⟩ := deliver_of_quiet (p := { p with runner, latest? := some f }) hq t f
    simp [hd, hf]

/-- A frame without a fault leaves the loop running as it was. -/
theorem runFrame_of_faultless (hq : p.adapters.Quiet) (hr : p.running = true) (hp : Faultless p)
    (t : Moment τ) : ∃ q, p.runFrame t = (.goOn, q) ∧ Undisturbed p q := by
  have hpq := undisturbed_tryFrame hq t
  have hrunning : (p.tryFrame t).2.running = true := hpq.running.trans hr
  have htry : p.tryFrame t = (none, (p.tryFrame t).2) :=
    Prod.ext ((tryFrame_eq_none_iff hq t).mpr hp) rfl
  refine ⟨(p.tryFrame t).2, ?_, hpq⟩
  unfold runFrame
  rw [htry]
  simp [hrunning]

/-- Any other frame stops the loop. -/
theorem runFrame_of_not_faultless (hq : p.adapters.Quiet) (hp : ¬ Faultless p) (t : Moment τ) :
    ∃ q, p.runFrame t = (.stopped, q) ∧ Halted p q := by
  have hpq := undisturbed_tryFrame hq t
  obtain ⟨⟨error, frame?⟩, hfails⟩ :=
    Option.ne_none_iff_exists'.mp ((tryFrame_eq_none_iff hq t).not.mpr hp)
  have htry : p.tryFrame t = (some (error, frame?), (p.tryFrame t).2) := Prod.ext hfails rfl
  have hadapters : (p.tryFrame t).2.adapters.Quiet := by rwa [hpq.adapters]
  obtain ⟨r, hfail, hqr⟩ := fail_of_quiet hadapters t error frame?
  refine ⟨r, ?_, hpq.halted hqr⟩
  unfold runFrame
  rw [htry]
  simp [hfail, verdictOf]

/-- A frame leaves the loop running as it was, or it stops the loop. -/
theorem runFrame_of_quiet (hq : p.adapters.Quiet) (hr : p.running = true) (t : Moment τ) :
    (∃ q, p.runFrame t = (.goOn, q) ∧ Undisturbed p q) ∨
      ∃ q, p.runFrame t = (.stopped, q) ∧ Halted p q := by
  by_cases hp : Faultless p
  · exact .inl (runFrame_of_faultless hq hr hp t)
  · exact .inr (runFrame_of_not_faultless hq hp t)

/-- A timer that finds a single frame due runs it, and sets the timer for the next one. -/
theorem fire_of_one_due (hq : p.adapters.Quiet) (hr : p.running = true) (hp : Faultless p)
    (hc : p.catchUp ≠ 0) (hdue : p.nextAt ≤ t.now) (hlate : ¬ p.nextAt + p.frameTime ≤ t.now)
    (a : Alarm τ) :
    ∃ q, (p.take a).runFrame t = (.goOn, q) ∧ Undisturbed (p.take a) q ∧
      p.fire t a = (none, q.postpone.rearm t) := by
  obtain ⟨q, hrun, hpq⟩ := runFrame_of_faultless (p := p.take a) hq hr hp t
  refine ⟨q, hrun, hpq, ?_⟩
  obtain ⟨n, hn⟩ := Nat.exists_eq_succ_of_ne_zero hc
  have hahead : ¬ q.postpone.nextAt ≤ t.now := by
    have hnext : q.postpone.nextAt = p.nextAt + p.frameTime := by
      change q.nextAt + q.frameTime = _
      rw [hpq.nextAt, hpq.frameTime]
      rfl
    rwa [hnext]
  have hrest : q.postpone.runDue t n = (.goOn, q.postpone) := by
    cases n with
    | zero => rfl
    | succ n => exact if_neg hahead
  have hframes : (p.take a).runDue t p.catchUp = (.goOn, q.postpone) := by
    have hnow : (p.take a).nextAt ≤ t.now := hdue
    rw [hn]
    simp [runDue, hnow, hrun, hrest]
  exact fire_of_runDue hr hframes

/-! The timer for the next frame. -/

theorem nextAt_rearm (p : Pacer τ) (t : Moment τ) :
    (p.rearm t).nextAt = if p.nextAt ≤ t.now then t.now + p.frameTime else p.nextAt := by
  unfold rearm
  split <;> rfl

theorem rearm_eq_arm (p : Pacer τ) (t : Moment τ) :
    p.rearm t = { p with nextAt := (p.rearm t).nextAt }.arm t ((p.rearm t).nextAt - t.now) := by
  unfold rearm
  split <;> rfl

/-- The timer is always set for a time to come. -/
theorem lt_nextAt_rearm {p : Pacer ℤ} (hf : 1 ≤ p.frameTime) (t : Moment ℤ) :
    t.now < (p.rearm t).nextAt := by
  rw [nextAt_rearm]
  split
  case isTrue => omega
  case isFalse h => exact not_le.mp h

def listening : Adapters ℤ where
  present? := some fun _ => .silent
  tone? := some fun _ => .silent
  onFault _ := .silent

theorem quiet_listening : listening.Quiet :=
  Adapters.quiet_silent

end Pacer

end Chip8
