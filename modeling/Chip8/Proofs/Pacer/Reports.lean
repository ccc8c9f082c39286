import Chip8.Proofs.Pacer.Run

/-! What a loop reports of the frames that fail. -/
namespace Chip8

def Event.report? : Event → Option (Failure × Option Frame × Bool)
  | .fault error frame? running => some (error, frame?, running)
  | _ => none

namespace Pacer

variable {τ : Type} {p q s : Pacer τ} {error : Failure} {frame? : Option Frame} {n : ℕ}

/-- All reports so far: of each the error, its frame, and whether the loop ran. -/
def reports (p : Pacer τ) : List (Failure × Option Frame × Bool) :=
  p.events.toList.filterMap Event.report?

theorem reports_switch (p : Pacer τ) (on : Bool) : (p.switch on).reports = p.reports := by
  cases h : p.adapters.tone? <;> simp [reports, switch, Event.report?, h]

theorem reports_noteFrame (p : Pacer τ) (f : Frame) : (p.noteFrame f).reports = p.reports := by
  simp [reports, noteFrame, record, Event.report?, List.filterMap_cons]

theorem reports_noteFault (p : Pacer τ) (error : Failure) (frame? : Option Frame) :
    (p.noteFault error frame?).reports = p.reports ++ [(error, frame?, p.running)] := by
  simp [reports, noteFault, record, Event.report?]

variable [Scalar τ]

theorem lasting_reports (l : List (Failure × Option Frame × Bool)) (n : ℕ) :
    Lasting (fun p : Pacer τ => p.reports = l ∧ p.faults = n) where
  start t h := by
    unfold start
    split <;> exact h
  halt h := h
  switch on h := ⟨(reports_switch _ on).trans h.1, h.2⟩
  noteFrame f h := ⟨(reports_noteFrame _ f).trans h.1, h.2⟩
  advance _ _ h := h

/-- The four ways in which a frame fails, with the error and the frame to report and what the loop
is then: there is no frame, the screen fails, the speaker fails, or the frame carries a fault. -/
inductive FrameFails (t : Moment τ) (p : Pacer τ) :
    Failure → Option Frame → Pacer τ → Prop
  | frame {failure runner} (hf : p.runner.frame = (.error failure, runner)) :
      FrameFails t p failure.asError none { p with runner }
  | screen {f runner failure s} (hf : p.runner.frame = (.ok f, runner))
      (hs : { p with runner, latest? := some f }.present t f = (some failure, s)) :
      FrameFails t p failure.asError (some f) s
  | speaker {f runner q failure s} (hf : p.runner.frame = (.ok f, runner))
      (hq : { p with runner, latest? := some f }.present t f = (none, q))
      (hs : q.setTone t f.soundActive = (some failure, s)) :
      FrameFails t p failure.asError (some f) s
  | fault {f runner q fault s} (hf : p.runner.frame = (.ok f, runner))
      (hq : { p with runner, latest? := some f }.present t f = (none, q))
      (hs : q.setTone t f.soundActive = (none, s)) (hfault : f.fault? = some fault) :
      FrameFails t p (.fault fault) (some f) s

theorem frameFails_iff {t : Moment τ} :
    FrameFails t p error frame? s ↔ p.tryFrame t = (some (error, frame?), s) := by
  constructor
  · intro h
    cases h with
    | frame hf => simp [tryFrame, hf]
    | screen hf hs => simp [tryFrame, deliver, hf, hs]
    | speaker hf hq hs => simp [tryFrame, deliver, hf, hq, hs]
    | fault hf hq hs hfault => simp [tryFrame, deliver, hf, hq, hs, hfault]
  · intro h
    unfold tryFrame at h
    split at h
    · rename_i failure runner hf
      obtain ⟨⟨rfl, rfl⟩, rfl⟩ : (failure.asError = error ∧ none = frame?) ∧ _ := by simpa using h
      exact .frame hf
    · rename_i f runner hf
      split at h
      · rename_i failure r hd
        obtain ⟨⟨rfl, rfl⟩, rfl⟩ : (failure.asError = error ∧ some f = frame?) ∧ r = s := by
          simpa using h
        rcases deliver_eq_some hd with hs | ⟨q, hq, hs⟩
        · exact .screen hf hs
        · exact .speaker hf hq hs
      · rename_i r hd
        obtain ⟨⟨fault, hfault, rfl, rfl⟩, rfl⟩ :
            (∃ fault, f.fault? = some fault ∧ .fault fault = error ∧ some f = frame?) ∧
              r = s := by simpa using h
        obtain ⟨q, hq, hs⟩ := deliver_eq_none hd
        exact .fault hf hq hs hfault

/-! Stopping. -/

theorem running_performQuiet (t : Moment τ) (calls : List (Call τ)) (hr : p.running = false) :
    (p.performQuiet t calls).running = true ↔
      calls.getLast?.map Call.command = some .start := by
  induction calls using List.reverseRecOn with
  | nil => simp [performQuiet, hr]
  | append_singleton calls c _ =>
    simp only [performQuiet, List.foldl_append, List.foldl_cons, List.foldl_nil,
      List.getLast?_concat, Option.map_some, Option.some.injEq]
    cases c.command with
    | start => simp [running_start]
    | stop => simp [halt]

/-- Nothing stands in the way of a stop: no tone is on, or the speaker takes the end of it without
a failure and without a last call that starts the loop again. -/
def StopsCleanly (p : Pacer τ) : Prop :=
  p.toneOn = true → (p.switch false).speakerReaction.failure? = none ∧
    (p.switch false).speakerReaction.calls.getLast?.map Call.command ≠ some .start

theorem stopsCleanly_iff (t : Moment τ) :
    StopsCleanly p ↔ (p.stop t).1 = none ∧ (p.stop t).2.running = false := by
  cases ht : p.toneOn with
  | false =>
    simp [StopsCleanly, stop, silence, ht, halt]
  | true =>
    have hh : p.halt.toneOn = true := ht
    have hs : (p.halt.switch false).speakerReaction = (p.switch false).speakerReaction := rfl
    have hr := running_performQuiet (p := p.halt.switch false) t
      (p.switch false).speakerReaction.calls rfl
    simp [StopsCleanly, stop, silence, ht, hh, hs, ← hr]

/-! Reports. -/

/-- A timer that ends with the report of an error: it is told once, with its frame, to a loop that
has stopped and keeps the error, and what follows is up to whoever is told. -/
def Reported (t : Moment τ) (p : Pacer τ) (error : Failure) (frame? : Option Frame)
    (o : Option Failure × Pacer τ) : Prop :=
  o.2.reports = p.reports ++ [(error, frame?, false)] ∧
    ∃ q : Pacer τ, q.running = false ∧ q.fault? = some error ∧ q.faults = p.faults + 1 ∧
      q.reports = o.2.reports ∧ o = q.react t (q.adapters.onFault q.faults)

theorem reports_react (p : Pacer τ) (t : Moment τ) (r : Reaction τ) :
    (p.react t r).2.reports = p.reports :=
  ((lasting_reports p.reports p.faults).react t r ⟨rfl, rfl⟩).1

theorem reported_fail_iff (t : Moment τ) (error : Failure) (frame? : Option Frame) :
    Reported t p error frame? (p.fail t error frame?) ↔ StopsCleanly p := by
  have hl := (lasting_reports p.reports p.faults).stop t ⟨rfl, rfl⟩
  rw [stopsCleanly_iff t]
  unfold fail
  split
  · rename_i failure q hq
    rw [hq] at hl
    simp [Reported, hq, hl.1]
  · rename_i q hq
    rw [hq] at hl
    have hreports := (reports_noteFault q error frame?)
    rw [hl.1] at hreports
    constructor
    · intro h
      obtain ⟨h, _⟩ := h
      rw [reports_react, hreports] at h
      simpa [hq] using h
    · intro h
      have hr : q.running = false := by simpa [hq] using h
      rw [hr] at hreports
      refine ⟨(reports_react _ t _).trans hreports, q.noteFault error frame?, hr, rfl, ?_, ?_, rfl⟩
      · simpa [noteFault, record] using hl.2
      · exact (reports_react _ t _).symm

/-! Timers. -/

/-- Frames that go on leave no report. -/
theorem unreported_frameStarts {t : Moment τ} {l : List (Failure × Option Frame × Bool)}
    (hp : p.reports = l ∧ p.faults = n) (k : ℕ) :
    ∀ q ∈ frameStarts t k p, q.reports = l ∧ q.faults = n := by
  apply frameStarts_of (G := fun q : Pacer τ => q.reports = l ∧ q.faults = n) hp
  intro q r hq hr
  have := (lasting_reports l n).tryFrame t hq
  rw [(runFrame_eq_goOn hr).1] at this
  exact this

/-- A frame that fails is the last thing that a timer does before the failure is dealt with, and
nothing was reported until then. -/
theorem fire_of_frameFails {t : Moment τ} {a : Alarm τ} (hq : q ∈ p.framesOf t a)
    (h : FrameFails t q error frame? s) :
    p.fire t a = s.fail t error frame? ∧ s.reports = p.reports ∧ s.faults = p.faults := by
  have hs := frameFails_iff.mp h
  have hr := running_of_mem_framesOf hq
  rw [framesOf_of_running hr] at hq
  constructor
  · have hrun : q.runFrame t =
        (verdictOf (s.fail t error frame?).1, (s.fail t error frame?).2) := by
      simp [runFrame, hs]
    cases hf : s.fail t error frame? with
    | mk escaped? r =>
      rw [hf] at hrun
      have hdue := runDue_eq_of_last hq (by cases escaped? <;> simp [verdictOf]) hrun
      rw [fire_of_runDue hr hdue]
      cases escaped? <;> rfl
  · have hun := unreported_frameStarts (p := p.take a) ⟨rfl, rfl⟩ _ q hq
    have hkept := (lasting_reports p.reports p.faults).tryFrame t hun
    rw [hs] at hkept
    exact hkept

/-- Frames of which none fails report nothing and let nothing escape. -/
theorem runDue_of_no_failure {t : Moment τ} {k : ℕ} {l : List (Failure × Option Frame × Bool)}
    (hp : p.reports = l ∧ p.faults = n)
    (h : ∀ q ∈ frameStarts t k p, ∀ error frame? s, ¬ FrameFails t q error frame? s) :
    (∀ failure, (p.runDue t k).1 ≠ .escaped failure) ∧
      (p.runDue t k).2.reports = l ∧ (p.runDue t k).2.faults = n := by
  apply runDue_of (G := fun q : Pacer τ => q.reports = l ∧ q.faults = n)
    (E := fun o => (∀ failure, o.1 ≠ .escaped failure) ∧ o.2.reports = l ∧ o.2.faults = n) hp
  · exact fun q hq => ⟨by simp, hq⟩
  · intro q _ r hq hr
    have hkept := (lasting_reports l n).tryFrame t hq
    rw [(runFrame_eq_goOn hr).1] at hkept
    exact hkept
  · intro q hm v r hq _ hrun
    have hkept := (lasting_reports l n).tryFrame t hq
    unfold runFrame at hrun
    split at hrun
    · rename_i error frame? s hs
      exact (h q hm error frame? s (frameFails_iff.mpr hs)).elim
    · rename_i s hs
      rw [hs] at hkept
      obtain ⟨rfl, rfl⟩ := Prod.mk.inj hrun
      refine ⟨?_, hkept⟩
      split <;> simp

theorem fire_of_no_failure {t : Moment τ} {a : Alarm τ}
    (h : ∀ q ∈ p.framesOf t a, ∀ error frame? s, ¬ FrameFails t q error frame? s) :
    (p.fire t a).1 = none ∧ (p.fire t a).2.reports = p.reports := by
  cases hr : p.running with
  | false =>
    rw [fire_of_not_running hr]
    exact ⟨rfl, rfl⟩
  | true =>
    rw [framesOf_of_running hr] at h
    obtain ⟨hescape, hreports, _⟩ := runDue_of_no_failure (p := p.take a) ⟨rfl, rfl⟩ h
    cases hq : (p.take a).runDue t p.catchUp with
    | mk v q =>
      rw [hq] at hescape hreports
      rw [fire_of_runDue hr hq]
      cases v with
      | goOn =>
        obtain ⟨nextAt, delay, hrearm⟩ := rearm_eq q t
        rw [hrearm]
        exact ⟨rfl, hreports⟩
      | stopped => exact ⟨rfl, hreports⟩
      | escaped failure => exact absurd rfl (hescape failure)

/-- A timer whose frames go well reports nothing and lets nothing escape. If a frame fails, its
error is reported as it should be exactly if nothing stands in the way of stopping the loop. -/
theorem fire_reported_iff (p : Pacer τ) (t : Moment τ) (a : Alarm τ) :
    ((∀ q ∈ p.framesOf t a, ∀ error frame? s, ¬ FrameFails t q error frame? s) →
      (p.fire t a).1 = none ∧ (p.fire t a).2.reports = p.reports) ∧
    ∀ q ∈ p.framesOf t a, ∀ error frame? s, FrameFails t q error frame? s →
      (Reported t p error frame? (p.fire t a) ↔ StopsCleanly s) := by
  refine ⟨fire_of_no_failure, ?_⟩
  intro q hq error frame? s hs
  obtain ⟨hfire, hreports, hfaults⟩ := fire_of_frameFails hq hs
  rw [hfire, ← reported_fail_iff t error frame?]
  simp only [Reported, hreports, hfaults]

/-- A screen that fails at the second frame, and a speaker. -/
def losing (tone : ℕ → Reaction ℤ) : Adapters ℤ where
  present? := some fun n => if n = 2 then ⟨[], some (.error "Error" "screen lost")⟩ else .silent
  tone? := some tone
  onFault _ := .silent

/-- With a speaker that never fails, the failure of the screen is reported. -/
theorem reported_losing :
    let p := (sample (losing fun _ => .silent)).run opening
    ∃ q ∈ p.framesOf ⟨10, 10⟩ ⟨1, 10⟩, ∃ error frame? s, FrameFails ⟨10, 10⟩ q error frame? s ∧
      Reported ⟨10, 10⟩ p error frame? (p.fire ⟨10, 10⟩ ⟨1, 10⟩) := by
  intro p
  have hf : ((p.take ⟨1, 10⟩).tryFrame ⟨10, 10⟩).1.isSome = true := by decide
  obtain ⟨⟨error, frame?⟩, hs⟩ := Option.isSome_iff_exists.mp hf
  have hq : p.take ⟨1, 10⟩ ∈ p.framesOf ⟨10, 10⟩ ⟨1, 10⟩ := List.mem_of_head? rfl
  have hfails : FrameFails ⟨10, 10⟩ (p.take ⟨1, 10⟩) error frame? _ :=
    frameFails_iff.mpr (Prod.ext hs rfl)
  have hclean : StopsCleanly ((p.take ⟨1, 10⟩).tryFrame ⟨10, 10⟩).2 := by
    unfold StopsCleanly
    decide
  have hiff := (fire_reported_iff p ⟨10, 10⟩ ⟨1, 10⟩).2 _ hq error frame? _ hfails
  exact ⟨_, hq, error, frame?, _, hfails, hiff.mpr hclean⟩

/-- With a speaker that fails when the tone goes off, it is not. -/
theorem not_reported_losing :
    let p := (sample (losing fun n =>
      if n = 2 then ⟨[], some (.error "Error" "speaker lost")⟩ else .silent)).run opening
    ∃ q ∈ p.framesOf ⟨10, 10⟩ ⟨1, 10⟩, ∃ error frame? s, FrameFails ⟨10, 10⟩ q error frame? s ∧
      ¬ Reported ⟨10, 10⟩ p error frame? (p.fire ⟨10, 10⟩ ⟨1, 10⟩) := by
  intro p
  have hf : ((p.take ⟨1, 10⟩).tryFrame ⟨10, 10⟩).1.isSome = true := by decide
  obtain ⟨⟨error, frame?⟩, hs⟩ := Option.isSome_iff_exists.mp hf
  refine ⟨p.take ⟨1, 10⟩, List.mem_of_head? rfl, error, frame?, _,
    frameFails_iff.mpr (Prod.ext hs rfl), ?_⟩
  intro h
  have hl : (p.fire ⟨10, 10⟩ ⟨1, 10⟩).2.reports.length = p.reports.length + 1 := by
    rw [h.1, List.length_append, List.length_singleton]
  revert hl
  decide

end Pacer

end Chip8
