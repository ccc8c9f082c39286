import Chip8.Proofs.Pacer.Quiet
import Chip8.Proofs.Pacer.Tone

/-! All that the speaker is told in the course of a run. -/
namespace Chip8.Pacer

/-- On, off, on, off, …, so many in all. -/
def turns (n : ℕ) : List Bool :=
  (List.range n).map (· % 2 == 0)

theorem turns_succ (n : ℕ) : turns (n + 1) = turns n ++ [n % 2 == 0] := by
  simp [turns, List.range_succ]

example : turns 3 = [true, false, true] :=
  rfl

variable {τ : Type} {p q : Pacer τ} {t : Moment τ} {n : ℕ}

/-- What the speaker was told so far. -/
def heard (p : Pacer τ) : List Bool :=
  p.events.toList.filterMap Event.tone?

/-- The speaker was told of the tone coming on and going off by turns, and the flag for the tone is
where the last of them left it. -/
structure InTurns (p : Pacer τ) : Prop where
  heard_eq : p.heard = turns p.heard.length
  flag : p.adapters.tone?.isSome = true → p.toneOn = (p.heard.length % 2 == 1)

theorem heard_switch (p : Pacer τ) (on : Bool) :
    (p.switch on).heard = p.heard ++ if p.adapters.tone?.isSome then [on] else [] := by
  cases h : p.adapters.tone? <;> simp [heard, switch, Event.tone?, h]

theorem inTurns_toggle (h : InTurns p) : InTurns (p.switch !p.toneOn) := by
  have hheard := heard_switch p !p.toneOn
  cases hs : p.adapters.tone?.isSome with
  | false =>
    have hsame : (p.switch !p.toneOn).heard = p.heard := by simpa [hs] using hheard
    refine ⟨by rw [hsame]; exact h.heard_eq, fun hsome => ?_⟩
    change p.adapters.tone?.isSome = true at hsome
    simp [hs] at hsome
  | true =>
    have hlast : (!p.toneOn) = (p.heard.length % 2 == 0) := by
      rw [h.flag hs]
      rcases Nat.mod_two_eq_zero_or_one p.heard.length with hm | hm <;> simp [hm]
    have hlength : (p.switch !p.toneOn).heard.length = p.heard.length + 1 := by simp [hheard, hs]
    refine ⟨?_, fun _ => ?_⟩
    · rw [hlength, turns_succ, ← h.heard_eq, ← hlast, hheard, if_pos hs]
    · change (!p.toneOn) = _
      rw [hlength, hlast]
      rcases Nat.mod_two_eq_zero_or_one p.heard.length with hm | hm <;>
        simp [Nat.add_mod, hm]

theorem heard_noteFrame (p : Pacer τ) (f : Frame) : (p.noteFrame f).heard = p.heard := by
  simp [heard, noteFrame, record, Event.tone?]

theorem heard_noteFault (p : Pacer τ) (error : Failure) (frame? : Option Frame) :
    (p.noteFault error frame?).heard = p.heard := by
  simp [heard, noteFault, record, Event.tone?]

variable [Scalar τ]

theorem abiding_inTurns : Abiding (InTurns (τ := τ)) where
  start t h := by
    unfold start
    split
    · exact h
    · exact ⟨h.heard_eq, h.flag⟩
  halt h := ⟨h.heard_eq, h.flag⟩
  toggle h := inTurns_toggle h
  noteFrame f h := by
    refine ⟨?_, ?_⟩
    · rw [heard_noteFrame]
      exact h.heard_eq
    · rw [heard_noteFrame]
      exact h.flag
  advance _ _ h := ⟨h.heard_eq, h.flag⟩
  noteFault error frame? h := by
    refine ⟨?_, ?_⟩
    · rw [heard_noteFault]
      exact h.heard_eq
    · rw [heard_noteFault]
      exact h.flag
  plan _ h := ⟨h.heard_eq, h.flag⟩
  arm _ _ h := ⟨h.heard_eq, h.flag⟩
  take _ h := ⟨h.heard_eq, h.flag⟩

/-! A loop whose adapters only listen. -/

theorem abiding_adapters (adapters : Adapters τ) : Abiding (τ := τ) (·.adapters = adapters) where
  start t h := by
    unfold start
    split <;> exact h
  halt h := h
  toggle h := h
  noteFrame _ h := h
  advance _ _ h := h
  noteFault _ _ h := h
  plan _ h := h
  arm _ _ h := h
  take _ h := h

theorem calling_latest (latest? : Option Frame) : Calling (τ := τ) (·.latest? = latest?) where
  start t h := by
    unfold start
    split <;> exact h
  halt h := h
  switch _ h := h

theorem latest_present (p : Pacer τ) (t : Moment τ) (f : Frame) :
    (p.present t f).2.latest? = p.latest? := by
  unfold present
  split
  · rfl
  · exact (calling_latest p.latest?).react t _ rfl

theorem toneOn_setTone (hq : p.adapters.Quiet) (t : Moment τ) (on : Bool) :
    (p.setTone t on).2.toneOn = on := by
  cases on with
  | false => exact toneOn_silence p t
  | true =>
    simp only [setTone, if_true, sound]
    split
    · assumption
    · have hs : (p.switch true).speakerReaction = .silent := speakerReaction_of_quiet hq
      rw [hs]
      rfl

/-- The tone is that of the latest frame. -/
def Tuned (p : Pacer τ) : Prop :=
  ∃ f, p.latest? = some f ∧ p.toneOn = f.soundActive

theorem tuned_tryFrame (hq : p.adapters.Quiet) (h : p.tryFrame t = (none, q)) : Tuned q := by
  obtain ⟨f, runner, r, _, _, hpresent, htone⟩ := tryFrame_eq_none h
  have hlatest : r.latest? = some f := by
    have := latest_present { p with runner, latest? := some f } t f
    rwa [hpresent] at this
  have hadapters : r.adapters.Quiet := by
    obtain ⟨r', hr', hpr⟩ :=
      present_of_quiet (p := { p with runner, latest? := some f }) hq t f
    obtain rfl : r = r' := by simpa [hpresent] using hr'
    rwa [hpr.adapters]
  refine ⟨f, ?_, ?_⟩
  · have := (calling_latest r.latest?).setTone t f.soundActive rfl
    rw [htone] at this
    exact this.trans hlatest
  · have := toneOn_setTone hadapters t f.soundActive
    rwa [htone] at this

/-- A frame that goes on was handed out, and one that does not has stopped the loop. -/
theorem tuned_runFrame (hq : p.adapters.Quiet) (hr : p.running = true) (t : Moment τ) :
    (p.runFrame t).2.running = true → Tuned (p.runFrame t).2 := by
  intro hgo
  rcases runFrame_of_quiet hq hr t with ⟨q, hrun, _⟩ | ⟨q, hrun, hhalted⟩
  · rw [hrun]
    exact tuned_tryFrame hq (runFrame_eq_goOn hrun).1
  · simp [hrun, hhalted.running] at hgo

theorem tuned_runDue_of_tuned (hq : p.adapters.Quiet) (hr : p.running = true) (hp : Tuned p)
    (t : Moment τ) (n : ℕ) : (p.runDue t n).2.running = true → Tuned (p.runDue t n).2 := by
  apply runDue_of (G := fun q => q.adapters = p.adapters ∧ q.running = true ∧ Tuned q)
    (E := fun o => o.2.running = true → Tuned o.2) ⟨rfl, hr, hp⟩
  · exact fun q hq _ => hq.2.2
  · rintro q _ r ⟨hadapters, hrunning, _⟩ hrun
    have hsame := (abiding_adapters p.adapters).runFrame t hadapters
    have htuned := tuned_runFrame (by rwa [hadapters]) hrunning t
    rw [hrun] at hsame htuned
    have hgo := (runFrame_eq_goOn hrun).2
    exact ⟨hsame, hgo, htuned hgo⟩
  · rintro q _ v r ⟨hadapters, hrunning, _⟩ _ hrun
    have htuned := tuned_runFrame (by rwa [hadapters]) hrunning t
    rwa [hrun] at htuned

/-- The first frame tunes the loop, and those after it keep it tuned. -/
theorem tuned_runDue (hq : p.adapters.Quiet) (hr : p.running = true)
    (hs : frameStarts t n p ≠ []) (hgo : (p.runDue t n).2.running = true) :
    Tuned (p.runDue t n).2 := by
  cases n with
  | zero => exact absurd rfl hs
  | succ n =>
    have hsame := (abiding_adapters p.adapters).runFrame t rfl
    have htuned := tuned_runFrame hq hr t
    unfold frameStarts at hs
    unfold runDue at hgo ⊢
    split at hs
    case isFalse => exact absurd rfl hs
    case isTrue hd =>
      rw [if_pos hd] at hgo ⊢
      rcases hrun : p.runFrame t with ⟨v, q⟩
      rw [hrun] at hsame htuned
      rw [hrun] at hgo
      cases v with
      | stopped => exact htuned hgo
      | escaped failure => exact htuned hgo
      | goOn =>
        have hgoes := (runFrame_eq_goOn hrun).2
        have hquiet : q.adapters.Quiet := by rwa [hsame]
        exact tuned_runDue_of_tuned (p := q.postpone) hquiet hgoes (htuned hgoes) t n hgo

theorem tuned_fire {a : Alarm τ} (hq : p.adapters.Quiet) (hs : p.framesOf t a ≠ [])
    (hgo : (p.fire t a).2.running = true) : Tuned (p.fire t a).2 := by
  have hr : p.running = true := by
    obtain ⟨q, hq⟩ := List.exists_mem_of_ne_nil _ hs
    exact running_of_mem_framesOf hq
  rw [framesOf_of_running hr] at hs
  have htuned := tuned_runDue (p := p.take a) hq hr hs
  rcases hrun : (p.take a).runDue t p.catchUp with ⟨v, q⟩
  rw [hrun] at htuned
  rw [fire_of_runDue hr hrun] at hgo ⊢
  cases v with
  | goOn =>
    obtain ⟨nextAt, delay, hrearm⟩ := rearm_eq q t
    rw [hrearm] at hgo ⊢
    exact htuned hgo
  | stopped => exact htuned hgo
  | escaped failure => exact htuned hgo

omit [Scalar τ] in
theorem lastTone_of_told (h : Told p) (hs : p.adapters.tone?.isSome = true) :
    p.lastTone?.getD false = p.toneOn := by
  unfold Told at h
  rcases hl : p.lastTone? with _ | on
  · cases ht : p.toneOn <;> simp_all
  · cases on <;> cases ht : p.toneOn <;> simp_all

theorem abiding_told : Abiding (Told (τ := τ)) where
  toShowing := lasting_told.showing
  noteFault error frame? h := by simpa [Told, lastTone?, noteFault, record, Event.tone?] using h
  plan _ h := h
  arm _ _ h := h
  take _ h := h

/-- Whatever the adapters do, the speaker is told on and off by turns, from on. If they only listen,
then after a timer that ran frames and left the loop running it was told last what the latest frame
says, where off is as good as nothing. -/
theorem tones_alternate (runner : Runner) (adapters : Adapters τ) (frameTime : τ) (catchUp : ℕ)
    (xs : List (Action τ)) :
    let p := (make runner adapters frameTime catchUp).run xs
    p.heard = turns p.heard.length ∧
      (adapters.Quiet → adapters.tone?.isSome = true →
        ∀ t id, p.startsIn (.expire t id) ≠ [] →
          let q := p.act (.expire t id)
          q.running = true → ∃ f, q.latest? = some f ∧ q.lastTone?.getD false = f.soundActive) := by
  intro p
  have hstart : InTurns (make runner adapters frameTime catchUp) :=
    ⟨rfl, fun _ => rfl⟩
  have htold : Told (make runner adapters frameTime catchUp) :=
    (hushed_make runner adapters frameTime catchUp).told
  have hadapters : p.adapters = adapters := (abiding_adapters adapters).run xs rfl
  refine ⟨(abiding_inTurns.run xs hstart).heard_eq, ?_⟩
  intro hquiet hspeaker t id hframes q hgo
  cases ha : p.alarm? id with
  | none => simp [startsIn, ha] at hframes
  | some a =>
    have hfire : q = (p.fire t a).2 := by simp [q, act, ha]
    have hs : p.framesOf t a ≠ [] := by simpa [startsIn, ha] using hframes
    rw [hfire] at hgo
    obtain ⟨f, hlatest, htone⟩ := tuned_fire (by rwa [hadapters]) hs hgo
    have hq : Told q := abiding_told.act _ (abiding_told.run xs htold)
    have hsame : q.adapters = adapters := (abiding_adapters adapters).act _ hadapters
    refine ⟨f, by rw [hfire, hlatest], ?_⟩
    rw [lastTone_of_told hq (by rwa [hsame]), hfire, htone]

/-- The first frame of a machine that sounds its buzzer. -/
theorem tones_alternate_listening :
    let p := (sample listening).run [.start ⟨0, 0⟩]
    let q := p.act (.expire ⟨0, 0⟩ 0)
    listening.Quiet ∧ listening.tone?.isSome = true ∧ p.startsIn (.expire ⟨0, 0⟩ 0) ≠ [] ∧
      q.running = true ∧ q.heard = [true] ∧ q.heard = turns q.heard.length ∧
      ∃ f, q.latest? = some f ∧ q.lastTone?.getD false = f.soundActive := by
  intro p q
  have hframes : p.startsIn (.expire ⟨0, 0⟩ 0) ≠ [] := by
    rw [← List.isEmpty_eq_false_iff]
    decide
  have hgo : q.running = true := by decide
  have hspeaker : listening.tone?.isSome = true := rfl
  have hheard : q.heard = [true] := by decide
  let runner : Runner := .make waiting (.seeded 0) (some 1) .record 0 false
  have hturns := (tones_alternate runner listening 10 4 opening).1
  have htone := (tones_alternate runner listening 10 4 [.start ⟨0, 0⟩]).2
  exact ⟨quiet_listening, hspeaker, hframes, hgo, hheard, hturns,
    htone quiet_listening hspeaker ⟨0, 0⟩ 0 hframes hgo⟩

end Chip8.Pacer
