import Chip8.Proofs.Pacer.Run

/-! What a timer of the loop does to the runner: it runs frames, and nothing else. -/
namespace Chip8.Pacer

variable {τ : Type} [Scalar τ] {p : Pacer τ} {G : Runner → Prop}

/-- Adapters do not reach the runner. -/
theorem toggling_runner (r : Runner) : Toggling fun p : Pacer τ => p.runner = r where
  start t h := by
    unfold start
    split <;> exact h
  halt h := h
  toggle h := h

theorem runner_present (p : Pacer τ) (t : Moment τ) (f : Frame) :
    (p.present t f).2.runner = p.runner := by
  unfold present
  split
  · rfl
  · exact (toggling_runner p.runner).react t _ rfl

theorem runner_deliver (p : Pacer τ) (t : Moment τ) (f : Frame) :
    (p.deliver t f).2.runner = p.runner := by
  have hpresent := runner_present p t f
  unfold deliver
  split
  case h_1 q hq => rwa [hq] at hpresent
  case h_2 q hq =>
    rw [hq] at hpresent
    exact (toggling_runner p.runner).setTone t _ hpresent

theorem runner_tryFrame (p : Pacer τ) (t : Moment τ) :
    (p.tryFrame t).2.runner = p.runner.frame.2 := by
  unfold tryFrame
  split
  case h_1 failure runner hf => rw [hf]
  case h_2 f runner hf =>
    have hdeliver := runner_deliver { p with runner, latest? := some f } t f
    rw [hf]
    split
    case h_1 q hq => rwa [hq] at hdeliver
    case h_2 q hq => rwa [hq] at hdeliver

theorem runner_fail (p : Pacer τ) (t : Moment τ) (error : Failure) (frame? : Option Frame) :
    (p.fail t error frame?).2.runner = p.runner := by
  have hstop : (p.stop t).2.runner = p.runner := (toggling_runner p.runner).stop t rfl
  unfold fail
  split
  case h_1 q hq => rwa [hq] at hstop
  case h_2 q hq =>
    rw [hq] at hstop
    exact (toggling_runner p.runner).react t _ hstop

theorem runner_runFrame (p : Pacer τ) (t : Moment τ) :
    (p.runFrame t).2.runner = p.runner.frame.2 := by
  have htry := runner_tryFrame p t
  unfold runFrame
  split
  case h_1 error frame? q hq =>
    rw [hq] at htry
    exact (runner_fail q t error frame?).trans htry
  case h_2 q hq => rwa [hq] at htry

theorem runner_runDue (hframe : ∀ r, G r → G r.frame.2) (t : Moment τ) (n : ℕ) (h : G p.runner) :
    G (p.runDue t n).2.runner := by
  have hnext {q r : Pacer τ} {v : Verdict} (hq : G q.runner) (hr : q.runFrame t = (v, r)) :
      G r.runner := by
    have hrunner := runner_runFrame q t
    rw [hr] at hrunner
    exact hrunner ▸ hframe _ hq
  apply runDue_of (G := fun p => G p.runner) (E := fun o => G o.2.runner) h
  · exact fun _ hq => hq
  · intro q _ r hq hr
    have hr : G r.runner := hnext hq hr
    exact hr
  · exact fun q _ v r hq _ hr => hnext hq hr

/-- What frames keep, a timer keeps, whatever the adapters do. -/
theorem runner_fire (hframe : ∀ r, G r → G r.frame.2) (t : Moment τ) (a : Alarm τ)
    (h : G p.runner) : G (p.fire t a).2.runner := by
  cases hr : p.running with
  | false => rwa [fire_of_not_running hr]
  | true =>
    have hdue : G ((p.take a).runDue t p.catchUp).2.runner := runner_runDue hframe t _ h
    rcases hq : (p.take a).runDue t p.catchUp with ⟨v, q⟩
    rw [hq] at hdue
    rw [fire_of_runDue hr hq]
    cases v with
    | goOn =>
      obtain ⟨nextAt, delay, hrearm⟩ := rearm_eq q t
      rw [hrearm]
      exact hdue
    | stopped => exact hdue
    | escaped failure => exact hdue

/-- Numbers of timers are not given twice. -/
theorem abiding_nextId (n : ℕ) : Abiding fun p : Pacer τ => n ≤ p.nextId where
  start t h := by
    unfold start
    split
    · exact h
    · exact Nat.le_succ_of_le h
  halt h := h
  toggle h := h
  noteFrame _ h := h
  advance _ _ h := h
  noteFault _ _ h := h
  plan _ h := h
  arm _ _ h := Nat.le_succ_of_le h
  take _ h := h

end Chip8.Pacer
