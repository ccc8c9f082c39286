import Chip8.Proofs.Pacer.Alternation
import Chip8.Proofs.Pacer.Reports
import Chip8.Proofs.Pacer.Work
import Chip8.Proofs.Runner.Countdown
import Chip8.Proofs.Runner.Modes

/-! How a timer ends if the adapters only listen: in frames without a fault, or with the report of
the first frame that fails. -/
namespace Chip8

namespace Runner

open Machine

variable {r : Runner} {error failure : Failure} {frame? : Option Frame}

/-- The frame that is begun here fails: there is none, or it carries a fault. -/
inductive Fails (r : Runner) : Failure → Option Frame → Prop
  | raised {failure : Failure} (h : r.frame.1 = .error failure) : Fails r failure.asError none
  | recorded {f : Frame} {e : Fault} (h : r.frame.1 = .ok f) (hf : f.fault? = some e) :
      Fails r (.fault e) (some f)

theorem steps_of_reliable (hs : r.source.Reliable) {n : ℕ} (h : (steps n r).1 = some failure) :
    ∃ e, failure = .fault e ∧ (steps n r).2.lastFault? = some e := by
  induction n generalizing r with
  | zero => cases h
  | succ n ih =>
    cases hf : failureAt r.state 1 with
    | some failure =>
      obtain ⟨e, rfl⟩ : ∃ e, failure = .fault e := by
        rw [failureAt_one] at hf
        exact fault?_of_reliable hs hf
      rw [steps_succ_of_some hf] at h ⊢
      cases hmode : r.mode with
      | raise =>
        rw [hmode] at h
        exact ⟨e, (Option.some.inj h).symm, rfl⟩
      | record =>
        rw [hmode] at h
        cases h
    | none =>
      rw [steps_succ_of_none hf] at h ⊢
      split at h
      · cases h
      next hwaits =>
        rw [if_neg hwaits]
        exact ih (r := r.stepped r.traceBehind) (reliable_iterate (p := r.state) hs 1) h

/-- With random numbers at hand a frame fails with the fault that its machine is halted with,
whether it is raised or recorded. -/
theorem Fails.halted (h : r.Fails error frame?) (hh : r.machine.isHalted = false)
    (hs : r.source.Reliable) : ∃ e, error = .fault e ∧ r.frame.2.machine.run = .halted e := by
  have hhalts {e : Fault} (hlast : r.work.2.lastFault? = some e) :
      r.frame.2.machine.run = .halted e := by
    rw [← haltFault?_eq_some_iff, ← recorded_frame hh, (frame_keeps r).2, hlast]
  cases h with
  | @recorded f e hframe hfault =>
    rw [fault?_of_frame hframe] at hfault
    exact ⟨e, rfl, hhalts hfault⟩
  | @raised failure hframe =>
    cases hwork : r.work.1 with
    | none => simp [frame_of_work_none hwork] at hframe
    | some failure' =>
      rw [frame_of_work_some hwork] at hframe
      obtain rfl : failure' = failure := Except.error.inj hframe
      rw [work_eq_steps hh] at hwork
      obtain ⟨e, rfl, hlast⟩ := steps_of_reliable (r := r.begun) hs hwork
      rw [← work_eq_steps hh] at hlast
      exact ⟨e, rfl, hhalts hlast⟩

end Runner

namespace Pacer

variable {τ : Type} {p q s : Pacer τ} {t : Moment τ} {a : Alarm τ} {error : Failure}
  {frame? : Option Frame} {G : Runner → Prop}

/-- The timer that a stop cancels is the only one that is pending. -/
def Linked (p : Pacer τ) : Prop :=
  ∀ a ∈ p.pending, p.timer? = some a.id

theorem pending_halt (h : Linked p) : p.halt.pending = [] := by
  unfold halt
  cases ht : p.timer? with
  | none =>
    refine List.eq_nil_iff_forall_not_mem.mpr fun a ha => ?_
    cases ht.symm.trans (h a ha)
  | some id =>
    refine List.filter_eq_nil_iff.mpr fun a ha hne => ?_
    have hid : id = a.id := Option.some.inj (ht.symm.trans (h a ha))
    exact bne_iff_ne.mp hne hid.symm

theorem linked_of_pending (h : p.pending = []) : Linked p := by
  intro a ha
  rw [h] at ha
  cases ha

theorem pending_take (h : Linked p) (ha : a ∈ p.pending) : (p.take a).pending = [] := by
  refine List.filter_eq_nil_iff.mpr fun b hb hne => ?_
  have hid : some b.id = some a.id := (h b hb).symm.trans (h a ha)
  exact bne_iff_ne.mp hne (Option.some.inj hid)

variable [Scalar τ]

theorem pending_stop (hq : p.adapters.Quiet) (h : Linked p) (t : Moment τ) :
    (p.stop t).2.pending = [] := by
  obtain ⟨q, hs, hpq⟩ := silence_of_quiet (p := p.halt) hq t
  have hstop : p.stop t = (none, q) := hs
  rw [hstop, hpq.pending]
  exact pending_halt h

/-- The screen and the speaker have nothing to do with it. -/
theorem fails_of_tryFrame (hq : p.adapters.Quiet)
    (h : (p.tryFrame t).1 = some (error, frame?)) : p.runner.Fails error frame? := by
  unfold tryFrame at h
  split at h
  case h_1 failure runner hf =>
    obtain ⟨rfl, rfl⟩ : failure.asError = error ∧ none = frame? := by simpa using h
    exact .raised (congrArg Prod.fst hf)
  case h_2 f runner hf =>
    obtain ⟨q, hd, _⟩ := deliver_of_quiet (p := { p with runner, latest? := some f }) hq t f
    rw [hd] at h
    obtain ⟨e, hfault, rfl, rfl⟩ :
        ∃ e, f.fault? = some e ∧ .fault e = error ∧ some f = frame? := by simpa using h
    exact .recorded (congrArg Prod.fst hf) hfault

/-- A loop in the frames of a timer, of which none has failed yet. -/
structure Going (G : Runner → Prop) (p : Pacer τ) : Prop where
  adapters : p.adapters.Quiet
  running : p.running = true
  pending : p.pending = []
  awake : p.runner.machine.isHalted = false
  kept : G p.runner

theorem Going.faultless (h : Going G p) (hgo : p.runFrame t = (.goOn, q)) : Faultless p := by
  by_contra hnot
  obtain ⟨r, hstopped, _⟩ := runFrame_of_not_faultless h.adapters hnot t
  rw [hgo] at hstopped
  cases hstopped

theorem Going.next (hframe : ∀ r, G r → G r.frame.2) (h : Going G p)
    (hgo : p.runFrame t = (.goOn, q)) : Going G q.postpone := by
  have hfaultless := h.faultless hgo
  obtain ⟨r, hr, hpr⟩ := runFrame_of_faultless h.adapters h.running hfaultless t
  obtain rfl : q = r := congrArg Prod.snd (hgo.symm.trans hr)
  have hrunner : q.runner = p.runner.frame.2 := by
    have hrunner := runner_runFrame p t
    rwa [hgo] at hrunner
  obtain ⟨f, hf, hfault⟩ := hfaultless
  refine ⟨?_, hpr.running.trans h.running, hpr.pending.trans h.pending, ?_, ?_⟩
  · change q.adapters.Quiet
    rw [hpr.adapters]
    exact h.adapters
  · change q.runner.machine.isHalted = false
    rw [hrunner]
    exact Runner.not_halted_of_frame h.awake hf hfault
  · change G q.runner
    rw [hrunner]
    exact hframe _ h.kept

theorem reports_tryFrame (p : Pacer τ) (t : Moment τ) : (p.tryFrame t).2.reports = p.reports :=
  ((lasting_reports p.reports p.faults).tryFrame t ⟨rfl, rfl⟩).1

theorem reports_fail_of_quiet (hq : p.adapters.Quiet) (t : Moment τ) (error : Failure)
    (frame? : Option Frame) :
    (p.fail t error frame?).2.reports = p.reports ++ [(error, frame?, false)] := by
  obtain ⟨q, hstop, hhalted⟩ := stop_of_quiet hq t
  have hclean : StopsCleanly p := by
    rw [stopsCleanly_iff t, hstop]
    exact ⟨rfl, hhalted.running⟩
  exact ((reported_fail_iff t error frame?).mpr hclean).1

/-- The last frame of a timer has failed, and this was added to the reports. -/
def Broken (G : Runner → Prop) (reports : List (Failure × Option Frame × Bool)) (p : Pacer τ) :
    Prop :=
  ∃ r error frame?, r.machine.isHalted = false ∧ G r ∧ r.Fails error frame? ∧
    p.runner = r.frame.2 ∧ p.reports = reports ++ [(error, frame?, false)]

theorem Going.broken (h : Going G p) (hnot : ¬ Faultless p) (t : Moment τ) :
    ∃ q, p.runFrame t = (.stopped, q) ∧ q.pending = [] ∧ Broken G p.reports q := by
  obtain ⟨q, hstopped, hhalted⟩ := runFrame_of_not_faultless h.adapters hnot t
  have hrunner := runner_runFrame p t
  obtain ⟨⟨error, frame?⟩, hfails⟩ :=
    Option.ne_none_iff_exists'.mp ((tryFrame_eq_none_iff h.adapters t).not.mpr hnot)
  have hquiet : (p.tryFrame t).2.adapters.Quiet := by
    rw [(undisturbed_tryFrame h.adapters t).adapters]
    exact h.adapters
  have hfail : (p.runFrame t).2 = ((p.tryFrame t).2.fail t error frame?).2 := by
    have htry : p.tryFrame t = (some (error, frame?), (p.tryFrame t).2) := Prod.ext hfails rfl
    unfold runFrame
    rw [htry]
  have hreports := reports_fail_of_quiet hquiet t error frame?
  rw [reports_tryFrame, ← hfail, hstopped] at hreports
  rw [hstopped] at hrunner
  refine ⟨q, hstopped, List.subset_nil.mp (h.pending ▸ hhalted.pending), ?_⟩
  exact ⟨p.runner, error, frame?, h.awake, h.kept, fails_of_tryFrame h.adapters hfails, hrunner,
    hreports⟩

theorem going_or_broken_runDue (hframe : ∀ r, G r → G r.frame.2) (h : Going G p) (t : Moment τ)
    (n : ℕ) :
    ((p.runDue t n).1 = .goOn ∧ Going G (p.runDue t n).2 ∧
        (p.runDue t n).2.reports = p.reports) ∨
      ((p.runDue t n).1 = .stopped ∧ (p.runDue t n).2.pending = [] ∧
        Broken G p.reports (p.runDue t n).2) := by
  apply runDue_of (G := fun q => Going G q ∧ q.reports = p.reports)
    (E := fun o => (o.1 = .goOn ∧ Going G o.2 ∧ o.2.reports = p.reports) ∨
      (o.1 = .stopped ∧ o.2.pending = [] ∧ Broken G p.reports o.2)) ⟨h, rfl⟩
  · exact fun q hq => .inl ⟨rfl, hq⟩
  · intro q _ r hq hrun
    have hreports := reports_tryFrame q t
    rw [(runFrame_eq_goOn hrun).1] at hreports
    exact ⟨hq.1.next hframe hrun, hreports.trans hq.2⟩
  · intro q _ v r hq hv hrun
    have hnot : ¬ Faultless q := by
      intro hfaultless
      obtain ⟨r', hgo, _⟩ := runFrame_of_faultless hq.1.adapters hq.1.running hfaultless t
      exact hv (congrArg Prod.fst (hrun.symm.trans hgo))
    obtain ⟨r', hstopped, hpending, hbroken⟩ := hq.1.broken hnot t
    obtain ⟨rfl, rfl⟩ := Prod.mk.inj (hrun.symm.trans hstopped)
    exact .inr ⟨rfl, hpending, hq.2 ▸ hbroken⟩

/-- A timer of a loop that only listeners watch leaves at most one other timer, and either nothing
has failed, or the last thing that it did was to report a frame that failed. -/
theorem fire_of_quiet (hframe : ∀ r, G r → G r.frame.2) (hq : p.adapters.Quiet) (hl : Linked p)
    (ha : a ∈ p.pending) (hh : p.runner.machine.isHalted = false) (hG : G p.runner)
    (t : Moment τ) :
    Linked (p.fire t a).2 ∧
      (((p.fire t a).2.reports = p.reports ∧
          (p.fire t a).2.runner.machine.isHalted = false) ∨
        Broken G p.reports (p.fire t a).2) := by
  have htake := pending_take hl ha
  cases hr : p.running with
  | false =>
    rw [fire_of_not_running hr]
    exact ⟨linked_of_pending htake, .inl ⟨rfl, hh⟩⟩
  | true =>
    have hgoing : Going G (p.take a) := ⟨hq, hr, htake, hh, hG⟩
    have hdue := going_or_broken_runDue hframe hgoing t p.catchUp
    rcases hrun : (p.take a).runDue t p.catchUp with ⟨v, q⟩
    rw [hrun] at hdue
    rw [fire_of_runDue hr hrun]
    rcases hdue with ⟨rfl, hq, hreports⟩ | ⟨rfl, hpending, hbroken⟩
    · obtain ⟨nextAt, delay, hrearm⟩ := rearm_eq q t
      have hpending : q.pending = [] := hq.pending
      rw [hrearm]
      refine ⟨?_, .inl ⟨hreports, hq.awake⟩⟩
      intro b hb
      obtain rfl : b = _ := by simpa [arm, hpending] using hb
      rfl
    · exact ⟨linked_of_pending hpending, .inr hbroken⟩

end Pacer

end Chip8
