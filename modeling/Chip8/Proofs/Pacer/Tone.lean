import Chip8.Proofs.Pacer.Run

/-! What the speaker was told last, and what a loop that does not run leaves it at. -/
namespace Chip8

def Event.tone? : Event → Option Bool
  | .tone on => some on
  | _ => none

namespace Pacer

variable {τ : Type} {p q : Pacer τ} {t : Moment τ}

/-- The latest tone event, if there was one. -/
def lastTone? (p : Pacer τ) : Option Bool :=
  (p.events.toList.filterMap Event.tone?).getLast?

/-- A loop that does not run has not left the tone on. -/
def Silent (p : Pacer τ) : Prop :=
  p.running = false → p.lastTone? ≠ some true

/-- The flag for the tone agrees with what the speaker was told last. -/
def Told (p : Pacer τ) : Prop :=
  p.lastTone? = some true ↔ p.toneOn = true ∧ p.adapters.tone?.isSome = true

theorem silent_of_running (h : p.running = true) : Silent p := by
  intro hr
  simp [h] at hr

theorem silent_of_toneOn (h : Told p) (ht : p.toneOn = false) : Silent p := by
  intro _ hl
  simpa [ht] using h.mp hl

theorem told_switch (h : Told p) (on : Bool) : Told (p.switch on) := by
  unfold Told switch lastTone? at *
  cases ht : p.adapters.tone? with
  | none => simp_all
  | some reaction => simp [Event.tone?]

variable [Scalar τ]

theorem told_start (h : Told p) (t : Moment τ) : Told (p.start t) := by
  unfold start
  split <;> exact h

theorem lasting_told : Lasting (Told (τ := τ)) where
  start t h := told_start h t
  halt h := h
  switch on h := told_switch h on
  noteFrame f h := by simpa [Told, lastTone?, noteFrame, record, Event.tone?] using h
  advance _ _ h := h

theorem toneOn_start (p : Pacer τ) (t : Moment τ) : (p.start t).toneOn = p.toneOn := by
  unfold start
  split <;> rfl

theorem toneOn_silence (p : Pacer τ) (t : Moment τ) : (p.silence t).2.toneOn = false := by
  unfold silence
  split
  · exact performQuiet_of (P := fun q => q.toneOn = false)
      (fun q t hq => (toneOn_start q t).trans hq) (fun _ hq => hq) t _ rfl
  · simp_all

/-- A loop that is stopped has its tone off, whatever the speaker does about it. -/
theorem toneOn_stop (p : Pacer τ) (t : Moment τ) : (p.stop t).2.toneOn = false :=
  toneOn_silence p.halt t

/-! Calls from adapters. -/

theorem silent_start (p : Pacer τ) (t : Moment τ) : Silent (p.start t) :=
  silent_of_running (running_start p t)

theorem silent_stop (h : Told p) (t : Moment τ) : Silent (p.stop t).2 :=
  silent_of_toneOn (lasting_told.stop t h) (toneOn_stop p t)

/-- What every call from outside leaves a loop in, and what frames leave it in unless they sound
late. -/
structure Hushed (p : Pacer τ) : Prop where
  told : Told p
  silent : Silent p

theorem hushed_start (h : Told p) (t : Moment τ) : Hushed (p.start t) :=
  ⟨told_start h t, silent_start p t⟩

theorem hushed_stop (h : Told p) (t : Moment τ) : Hushed (p.stop t).2 :=
  ⟨lasting_told.stop t h, silent_stop h t⟩

theorem hushed_react (h : Hushed p) (t : Moment τ) (r : Reaction τ) : Hushed (p.react t r).2 :=
  react_of (P := Hushed) (fun _ t h => hushed_start h.told t) (fun _ t h => hushed_stop h.told t)
    t r h

/-- The first call already settles what was left open before it. -/
theorem hushed_perform_cons (h : Told p) (t : Moment τ) (c : Call τ) (calls : List (Call τ)) :
    Hushed (p.perform t (c :: calls)).2 := by
  have rest : ∀ q, Hushed q → Hushed (q.perform t calls).2 := fun q hq =>
    perform_of (P := Hushed) (fun _ t h => hushed_start h.told t)
      (fun _ t h => hushed_stop h.told t) t calls hq
  obtain ⟨command, guarded, later?⟩ := c
  cases command with
  | start => exact rest _ (hushed_start h _)
  | stop =>
    have hs := hushed_stop h (later?.getD t)
    simp only [perform]
    split
    · rename_i q hq
      rw [hq] at hs
      split
      · exact rest _ hs
      · exact hs
    · rename_i q hq
      rw [hq] at hs
      exact rest _ hs

theorem hushed_react_of_calls (h : Told p) (t : Moment τ) (r : Reaction τ) (hr : r.calls ≠ []) :
    Hushed (p.react t r).2 := by
  obtain ⟨c, calls, hc⟩ := List.exists_cons_of_ne_nil hr
  have hp := hushed_perform_cons h t c calls
  unfold react
  rw [hc]
  split <;> simp_all

/-! Frames. -/

theorem hushed_fail (h : Told p) (t : Moment τ) (error : Failure) (frame? : Option Frame) :
    Hushed (p.fail t error frame?).2 := by
  have hs := hushed_stop h t
  unfold fail
  split
  · simp_all
  · rename_i q hq
    rw [hq] at hs
    apply hushed_react
    refine ⟨?_, ?_⟩
    · simpa [Told, lastTone?, noteFault, record, Event.tone?] using hs.told
    · simpa [Silent, lastTone?, noteFault, record, Event.tone?] using hs.silent

theorem hushed_silence (h : Hushed p) (t : Moment τ) : Hushed (p.silence t).2 := by
  have ht := lasting_told.silence t h.told
  exact ⟨ht, silent_of_toneOn ht (toneOn_silence p t)⟩

theorem hushed_present (h : Hushed p) (t : Moment τ) (f : Frame) : Hushed (p.present t f).2 := by
  unfold present
  split
  · exact h
  · apply hushed_react
    refine ⟨lasting_told.noteFrame f h.told, ?_⟩
    simpa [Silent, lastTone?, noteFrame, record, Event.tone?] using h.silent

/-- The loop was stopped, and nothing that the speaker does at being told of a tone takes it back. -/
def Late (p : Pacer τ) : Prop :=
  p.running = false ∧ p.adapters.tone?.isSome = true ∧
    (p.switch true).speakerReaction.calls = [] ∧
    (p.switch true).speakerReaction.failure? = none

theorem hushed_sound (h : Hushed p) (hq : p.sound t = (none, q)) (hl : ¬ Late p) :
    Hushed q := by
  have hs := told_switch h.told true
  unfold sound at hq
  split at hq
  · obtain ⟨_, rfl⟩ := Prod.mk.inj hq
    exact h
  · by_cases hc : (p.switch true).speakerReaction.calls = []
    · have hr : (p.switch true).speakerReaction.failure? = none ∧ p.switch true = q := by
        simpa [react, perform, hc] using hq
      obtain ⟨hf, rfl⟩ := hr
      refine ⟨hs, ?_⟩
      intro hr hlast
      exact hl ⟨hr, (hs.mp hlast).2, hc, hf⟩
    · have := hushed_react_of_calls hs t _ hc
      rwa [hq] at this

/-- The tone comes on although the loop was stopped before, and off for good. -/
theorem sound_of_late (h : Hushed p) (hl : Late p) :
    p.sound t = (none, p.switch true) ∧ ¬ Silent (p.switch true) := by
  obtain ⟨hr, hs, hc, hf⟩ := hl
  have ht : p.toneOn = false := by
    by_contra ht
    exact h.silent hr (h.told.mpr ⟨by simpa using ht, hs⟩)
  refine ⟨?_, fun hq => hq hr ?_⟩
  · simp [sound, ht, react, perform, hc, hf]
  · exact (told_switch h.told true).mpr ⟨rfl, hs⟩

/-- A frame without a fault that sounds, and that the screen stops the loop at before the speaker
is told of it. -/
def SoundsLate (t : Moment τ) (p : Pacer τ) : Prop :=
  ∃ f runner q, p.runner.frame = (.ok f, runner) ∧ f.fault? = none ∧ f.soundActive = true ∧
    { p with runner, latest? := some f }.present t f = (none, q) ∧ Late q

theorem hushed_tryFrame (h : Hushed p) (hq : p.tryFrame t = (none, q)) (hl : ¬ SoundsLate t p) :
    Hushed q := by
  obtain ⟨f, runner, r, hf, hfault, hr, hs⟩ := tryFrame_eq_none hq
  have hp : Hushed { p with runner, latest? := some f } := ⟨h.told, h.silent⟩
  have hh := hushed_present hp t f
  rw [hr] at hh
  cases hsound : f.soundActive with
  | false =>
    have := hushed_silence hh t
    rw [hsound] at hs
    change r.silence t = (none, q) at hs
    rwa [hs] at this
  | true =>
    rw [hsound] at hs
    exact hushed_sound hh hs fun hlate => hl ⟨f, runner, r, hf, hfault, hsound, hr, hlate⟩

theorem tryFrame_of_soundsLate (h : Hushed p) (hl : SoundsLate t p) :
    ∃ q, p.tryFrame t = (none, q) ∧ q.running = false ∧ ¬ Silent q := by
  obtain ⟨f, runner, r, hf, hfault, hsound, hr, hlate⟩ := hl
  have hp : Hushed { p with runner, latest? := some f } := ⟨h.told, h.silent⟩
  have hh := hushed_present hp t f
  rw [hr] at hh
  obtain ⟨hs, hloud⟩ := sound_of_late (t := t) hh hlate
  exact ⟨r.switch true, tryFrame_of_setTone hf hfault hr (by rw [hsound]; exact hs), hlate.1,
    hloud⟩

theorem hushed_runFrame (h : Hushed p) (hl : ¬ SoundsLate t p) : Hushed (p.runFrame t).2 := by
  have ht := lasting_told.tryFrame t h.told
  unfold runFrame
  split
  · rename_i error frame? q hq
    rw [hq] at ht
    exact hushed_fail ht t error frame?
  · rename_i q hq
    exact hushed_tryFrame h hq hl

theorem runFrame_of_soundsLate (h : Hushed p) (hl : SoundsLate t p) :
    ∃ q, p.runFrame t = (.stopped, q) ∧ ¬ Silent q := by
  obtain ⟨q, hq, hr, hloud⟩ := tryFrame_of_soundsLate h hl
  exact ⟨q, by simp [runFrame, hq, hr], hloud⟩

/-! Timers. -/

theorem hushed_runDue (h : Hushed p) {n : ℕ} (hl : ∀ q ∈ frameStarts t n p, ¬ SoundsLate t q) :
    Hushed (p.runDue t n).2 := by
  apply runDue_of (G := Hushed) (E := fun o => Hushed o.2) h
  · exact fun q hq => hq
  · intro q hm r hq hv
    have hh := hushed_runFrame hq (hl q hm)
    rw [hv] at hh
    exact ⟨hh.told, hh.silent⟩
  · intro q hm v r hq _ hv
    have hh := hushed_runFrame hq (hl q hm)
    rwa [hv] at hh

/-- A frame that sounds late is the last one, and it leaves the loop stopped and loud. -/
theorem runDue_of_soundsLate (h : Hushed p) {n : ℕ} {r : Pacer τ} (hr : r ∈ frameStarts t n p)
    (hl : SoundsLate t r) : ∃ q, p.runDue t n = (.stopped, q) ∧ ¬ Silent q := by
  have hh : Hushed r := by
    refine frameStarts_of h ?_ r hr
    intro q s hq hs
    have hn : ¬ SoundsLate t q := by
      intro hlate
      obtain ⟨s', hs', _⟩ := runFrame_of_soundsLate hq hlate
      simp [hs] at hs'
    have := hushed_runFrame hq hn
    rw [hs] at this
    exact ⟨this.told, this.silent⟩
  obtain ⟨q, hq, hloud⟩ := runFrame_of_soundsLate hh hl
  exact ⟨q, runDue_eq_of_last hr (by simp) hq, hloud⟩

theorem hushed_rearm (h : Hushed p) (t : Moment τ) : Hushed (p.rearm t) := by
  obtain ⟨nextAt, delay, hr⟩ := rearm_eq p t
  rw [hr]
  exact ⟨h.told, h.silent⟩

theorem hushed_fire (h : Hushed p) (a : Alarm τ)
    (hl : ∀ q ∈ p.framesOf t a, ¬ SoundsLate t q) : Hushed (p.fire t a).2 := by
  have ht : Hushed (p.take a) := ⟨h.told, h.silent⟩
  cases hr : p.running with
  | false =>
    rw [fire_of_not_running hr]
    exact ht
  | true =>
    rw [framesOf_of_running hr] at hl
    have hh := hushed_runDue ht hl
    cases hq : (p.take a).runDue t p.catchUp with
    | mk v q =>
      rw [hq] at hh
      rw [fire_of_runDue hr hq]
      cases v with
      | goOn => exact hushed_rearm hh t
      | stopped => exact hh
      | escaped failure => exact hh

/-- A timer in one of whose frames the screen stops the loop before a tone comes on. -/
def EndsLoud (p : Pacer τ) : Action τ → Prop
  | .expire t id => ∃ a, p.alarm? id = some a ∧ ∃ q ∈ p.framesOf t a, SoundsLate t q
  | _ => False

theorem hushed_act {x : Action τ} (h : Hushed p) (hx : ¬ EndsLoud p x) : Hushed (p.act x) := by
  cases x with
  | start t => exact hushed_start h.told t
  | stop t => exact hushed_stop h.told t
  | expire t id =>
    simp only [act]
    split
    · rename_i a ha
      exact hushed_fire h a fun q hq hl => hx ⟨a, ha, q, hq, hl⟩
    · exact h
  | replace runner => exact ⟨h.told, h.silent⟩

theorem not_silent_act {x : Action τ} (h : Hushed p) (hx : EndsLoud p x) : ¬ Silent (p.act x) := by
  cases x with
  | expire t id =>
    obtain ⟨a, ha, q, hq, hl⟩ := hx
    have ht : Hushed (p.take a) := ⟨h.told, h.silent⟩
    have hr := running_of_mem_framesOf hq
    rw [framesOf_of_running hr] at hq
    obtain ⟨s, hs, hloud⟩ := runDue_of_soundsLate ht hq hl
    simpa [act, ha, fire_of_runDue hr hs] using hloud
  | _ => exact hx.elim

theorem hushed_make (runner : Runner) (adapters : Adapters τ) (frameTime : τ) (catchUp : ℕ) :
    Hushed (make runner adapters frameTime catchUp) := by
  refine ⟨?_, ?_⟩ <;> simp [Told, Silent, lastTone?, make]

/-- A loop is silent whenever it is stopped, until a frame sounds late; then it is not. -/
theorem silent_throughout_iff (runner : Runner) (adapters : Adapters τ) (frameTime : τ)
    (catchUp : ℕ) (xs : List (Action τ)) :
    (∀ ys, ys <+: xs → Silent ((make runner adapters frameTime catchUp).run ys)) ↔
      ∀ ys x, ys ++ [x] <+: xs → ¬ EndsLoud ((make runner adapters frameTime catchUp).run ys) x :=
  throughout_iff (fun _ h => h.silent) (fun _ _ h hx => hushed_act h hx)
    (fun _ _ h hx => not_silent_act h hx) (hushed_make runner adapters frameTime catchUp)

/-- A screen that stops the loop at the first frame. -/
def stopping : Adapters ℤ where
  present? := some fun n => if n = 1 then ⟨[⟨.stop, false, none⟩], none⟩ else .silent
  tone? := some fun _ => .silent
  onFault _ := .silent

theorem not_silent_stopping : ¬ Silent ((sample stopping).run opening) := by
  unfold Silent
  decide

end Pacer

end Chip8
