import Chip8.Command.Player
import Chip8.Proofs.Keypad.Latch
import Chip8.Proofs.Pacer.Reports
import Chip8.Proofs.Pacer.Work
import Chip8.Proofs.Runner.Keys

/-! The timers of a player's keys: each is the one that is noted for its key, whatever runs. -/
namespace Chip8

namespace Alarm

variable {α τ : Type} [Scalar τ] {alarm : α → Alarm τ} {target : τ} {entries : List α} {a : α}

theorem sooner_eq (alarm : α → Alarm τ) (best : Option α) (b : α) :
    sooner alarm best b = some b ∨ sooner alarm best b = best := by
  unfold sooner
  split
  · exact .inl rfl
  · split
    · split
      · exact .inl rfl
      · exact .inr rfl
    · exact .inl rfl

theorem mem_of_foldl_sooner {best : Option α} (h : entries.foldl (sooner alarm) best = some a) :
    a ∈ entries ∨ best = some a := by
  induction entries generalizing best with
  | nil => exact .inr h
  | cons b entries ih =>
    rcases ih h with hmem | hbest
    · exact .inl (List.mem_cons_of_mem b hmem)
    · rcases sooner_eq alarm best b with hb | hb
      · obtain rfl := Option.some.inj (hb.symm.trans hbest)
        exact .inl List.mem_cons_self
      · exact .inr (hb.symm.trans hbest)

theorem mem_of_earliest? (h : earliest? alarm target entries = some a) : a ∈ entries := by
  rcases mem_of_foldl_sooner h with hmem | hnone
  · exact List.mem_of_mem_filter hmem
  · cases hnone

end Alarm

namespace Command.Player

variable {p q : Player} {r : Release} {j k : Key} {e : Event} {c : Char}

def keypad (p : Player) : Keypad :=
  p.pacer.runner.machine.keypad

/-- The timer that is noted for a key. -/
def noted (p : Player) (k : Key) : Option ℕ :=
  p.timers.get k

/-! A press and a release. -/

theorem mem_cancel {releases : List Release} {id? : Option ℕ} :
    r ∈ cancel releases id? ↔ r ∈ releases ∧ id? ≠ some r.alarm.id := by
  cases id? with
  | none => simp [cancel]
  | some id =>
    simp only [cancel, List.mem_filter, bne_iff_ne, ne_eq, Option.some.injEq]
    exact and_congr_right fun _ => not_congr eq_comm

theorem cancel_sublist (releases : List Release) (id? : Option ℕ) :
    (cancel releases id?).Sublist releases := by
  cases id? with
  | none => exact List.Sublist.refl _
  | some id => exact List.filter_sublist

/-- The timer that a press sets. -/
def hold (p : Player) (k : Key) : Release :=
  ⟨k, p.pacer.nextId, p.timeline.clock + p.holdMs⟩

theorem releases_pressKey (p : Player) (k : Key) :
    (p.pressKey k).releases = cancel p.releases (p.noted k) ++ [p.hold k] :=
  rfl

theorem nextId_pressKey (p : Player) (k : Key) :
    (p.pressKey k).pacer.nextId = p.pacer.nextId + 1 :=
  rfl

theorem keypad_pressKey (p : Player) (k : Key) : (p.pressKey k).keypad = p.keypad.press k :=
  rfl

theorem noted_pressKey (p : Player) (j k : Key) :
    (p.pressKey k).noted j = if j = k then some p.pacer.nextId else p.noted j := by
  change (p.timers.set k (some p.pacer.nextId))[j.val] = if j = k then _ else p.timers[j.val]
  simp only [Vector.getElem_set, Fin.ext_iff, eq_comm]

theorem releases_release (p : Player) (r : Release) :
    (p.release r).releases = cancel p.releases (some r.alarm.id) :=
  rfl

theorem nextId_release (p : Player) (r : Release) :
    (p.release r).pacer.nextId = p.pacer.nextId :=
  rfl

theorem keypad_release (p : Player) (r : Release) :
    (p.release r).keypad = p.keypad.release r.key :=
  rfl

theorem noted_release (p : Player) (r : Release) (j : Key) :
    (p.release r).noted j = if j = r.key then none else p.noted j := by
  change (p.timers.set r.key none)[j.val] = if j = r.key then _ else p.timers[j.val]
  simp only [Vector.getElem_set, Fin.ext_iff, eq_comm]

/-! The keys, their timers and what is noted of the timers. -/

/-- Every pending timer is the one that is noted for its key, and the keys for which one is noted
are those that are down. -/
structure Tidy (p : Player) : Prop where
  known : ∀ r ∈ p.releases, p.noted r.key = some r.alarm.id
  found : ∀ k id, p.noted k = some id → ∃ r ∈ p.releases, r.key = k ∧ r.alarm.id = id
  distinct : (p.releases.map (·.alarm.id)).Nodup
  old : ∀ r ∈ p.releases, r.alarm.id < p.pacer.nextId
  held : ∀ k, p.keypad.isDown k = (p.noted k).isSome

theorem Tidy.eq_of_key_eq (h : Tidy p) {r r' : Release} (hr : r ∈ p.releases)
    (hr' : r' ∈ p.releases) (hkey : r.key = r'.key) : r = r' := by
  have hid : some r.alarm.id = some r'.alarm.id := by
    rw [← h.known r hr, ← h.known r' hr', hkey]
  exact List.inj_on_of_nodup_map h.distinct hr hr' (Option.some.inj hid)

/-- The one timer of a key. -/
theorem Tidy.filter_eq_singleton (h : Tidy p) (hr : r ∈ p.releases) :
    p.releases.filter (·.key == r.key) = [r] := by
  have honly : ∀ r', r' ∈ p.releases.filter (·.key == r.key) ↔ r' ∈ [r] := by
    intro r'
    simp only [List.mem_filter, beq_iff_eq, List.mem_singleton]
    constructor
    · exact fun ⟨hr', hkey⟩ => h.eq_of_key_eq hr' hr hkey
    · rintro rfl
      exact ⟨hr, rfl⟩
  have hnodup : (p.releases.filter (·.key == r.key)).Nodup := h.distinct.of_map.filter _
  exact List.perm_singleton.mp
    ((List.perm_ext_iff_of_nodup hnodup (List.nodup_singleton r)).mpr honly)

/-- A key that is down has a timer. -/
theorem Tidy.exists_of_isDown (h : Tidy p) (hk : p.keypad.isDown k = true) :
    ∃ r ∈ p.releases, r.key = k := by
  rw [h.held k] at hk
  obtain ⟨id, hid⟩ := Option.isSome_iff_exists.mp hk
  obtain ⟨r, hr, hkey, _⟩ := h.found k id hid
  exact ⟨r, hr, hkey⟩

theorem Tidy.isDown_of_mem (h : Tidy p) (hr : r ∈ p.releases) : p.keypad.isDown r.key = true := by
  rw [h.held r.key, h.known r hr]
  rfl

/-- The key of a pending timer is another one, unless the timer is cancelled. -/
theorem Tidy.ne_of_mem_cancel (h : Tidy p) (hr : r ∈ cancel p.releases (p.noted k)) :
    r.key ≠ k := by
  rintro rfl
  obtain ⟨hr, hnot⟩ := mem_cancel.mp hr
  exact hnot (h.known r hr)

/-- Another key keeps its timer. -/
theorem Tidy.mem_cancel_of_ne (h : Tidy p) (hr : r ∈ p.releases) (hk : r.key ≠ k) :
    r ∈ cancel p.releases (p.noted k) := by
  refine mem_cancel.mpr ⟨hr, fun hnoted => hk ?_⟩
  obtain ⟨r', hr', hkey, hid⟩ := h.found k r.alarm.id hnoted
  rw [← hkey, List.inj_on_of_nodup_map h.distinct hr' hr hid]

/-- A key that is pressed waits for a new timer, and for no other. -/
theorem Tidy.pressKey (h : Tidy p) (k : Key) : Tidy (p.pressKey k) where
  known := by
    intro r hr
    rw [releases_pressKey, List.mem_append, List.mem_singleton] at hr
    rw [noted_pressKey]
    rcases hr with hr | rfl
    · rw [if_neg (h.ne_of_mem_cancel hr)]
      exact h.known r (mem_cancel.mp hr).1
    · exact if_pos rfl
  found := by
    intro j id hj
    rw [noted_pressKey] at hj
    rw [releases_pressKey]
    split at hj
    case isTrue hjk =>
      exact ⟨p.hold k, by simp, hjk.symm, Option.some.inj hj⟩
    case isFalse hjk =>
      obtain ⟨r, hr, rfl, hid⟩ := h.found j id hj
      exact ⟨r, List.mem_append_left _ (h.mem_cancel_of_ne hr hjk), rfl, hid⟩
  distinct := by
    -- numbers only grow, so the new one is none of the old ones
    rw [releases_pressKey, List.map_append, List.map_singleton, List.nodup_append']
    refine ⟨h.distinct.sublist ((cancel_sublist _ _).map _), List.nodup_singleton _, ?_⟩
    rw [List.disjoint_singleton]
    intro hmem
    obtain ⟨r, hr, hid⟩ := List.mem_map.mp hmem
    exact (h.old r (mem_cancel.mp hr).1).ne hid
  old := by
    intro r hr
    rw [releases_pressKey, List.mem_append, List.mem_singleton] at hr
    rw [nextId_pressKey]
    rcases hr with hr | rfl
    · exact Nat.lt_succ_of_lt (h.old r (mem_cancel.mp hr).1)
    · exact Nat.lt_succ_self _
  held := by
    intro j
    rw [keypad_pressKey, Keypad.isDown_press, noted_pressKey, h.held j]
    split <;> simp_all

/-- A key that is let go of waits for no timer. -/
theorem Tidy.release (h : Tidy p) (hr : r ∈ p.releases) : Tidy (p.release r) where
  known := by
    intro r' hr'
    -- what runs is the timer that is noted, so it is cancelled as in a press
    rw [releases_release, ← h.known r hr] at hr'
    rw [noted_release, if_neg (h.ne_of_mem_cancel hr')]
    exact h.known r' (mem_cancel.mp hr').1
  found := by
    intro j id hj
    rw [noted_release] at hj
    rw [releases_release, ← h.known r hr]
    split at hj
    case isTrue => cases hj
    case isFalse hjk =>
      obtain ⟨r', hr', rfl, hid⟩ := h.found j id hj
      exact ⟨r', h.mem_cancel_of_ne hr' hjk, rfl, hid⟩
  distinct := by
    rw [releases_release]
    exact h.distinct.sublist ((cancel_sublist _ _).map _)
  old := by
    intro r' hr'
    rw [releases_release] at hr'
    rw [nextId_release]
    exact h.old r' (mem_cancel.mp hr').1
  held := by
    intro j
    rw [keypad_release, Keypad.isDown_release, noted_release, h.held j]
    split <;> simp_all

/-! Frames, and what the terminal shows of them. -/

/-- The keys are as they were, and so are their timers. -/
structure Untouched (p q : Player) : Prop where
  releases : q.releases = p.releases
  timers : q.timers = p.timers
  holdMs : q.holdMs = p.holdMs
  nextId : p.pacer.nextId ≤ q.pacer.nextId
  held : q.keypad.held = p.keypad.held

namespace Untouched

theorem refl (p : Player) : Untouched p p :=
  ⟨rfl, rfl, rfl, Nat.le_refl _, rfl⟩

theorem trans {s : Player} (hp : Untouched p q) (hq : Untouched q s) : Untouched p s where
  releases := hq.releases.trans hp.releases
  timers := hq.timers.trans hp.timers
  holdMs := hq.holdMs.trans hp.holdMs
  nextId := hp.nextId.trans hq.nextId
  held := hq.held.trans hp.held

theorem tidy (h : Untouched p q) (hp : Tidy p) : Tidy q := by
  have hnoted (k : Key) : q.noted k = p.noted k := by
    unfold noted
    rw [h.timers]
  have hdown (k : Key) : q.keypad.isDown k = p.keypad.isDown k :=
    congrArg (·.getLsbD k.val) h.held
  constructor
  · intro r hr
    rw [hnoted]
    exact hp.known r (h.releases ▸ hr)
  · intro k id hk
    rw [h.releases]
    exact hp.found k id (hnoted k ▸ hk)
  · rw [h.releases]
    exact hp.distinct
  · intro r hr
    exact (hp.old r (h.releases ▸ hr)).trans_le h.nextId
  · intro k
    rw [hdown, hnoted]
    exact hp.held k

end Untouched

/-- Nothing but the screen has changed. -/
structure Shown (p q : Player) : Prop where
  timeline : q.timeline = p.timeline
  releases : q.releases = p.releases
  timers : q.timers = p.timers
  holdMs : q.holdMs = p.holdMs
  onTty : q.tty = p.tty
  terminal : q.terminal = p.terminal
  exit : q.exit? = p.exit?

namespace Shown

theorem refl (p : Player) : Shown p p :=
  ⟨rfl, rfl, rfl, rfl, rfl, rfl, rfl⟩

theorem trans {s : Player} (hp : Shown p q) (hq : Shown q s) : Shown p s where
  timeline := hq.timeline.trans hp.timeline
  releases := hq.releases.trans hp.releases
  timers := hq.timers.trans hp.timers
  holdMs := hq.holdMs.trans hp.holdMs
  onTty := hq.onTty.trans hp.onTty
  terminal := hq.terminal.trans hp.terminal
  exit := hq.exit.trans hp.exit

theorem untouched (h : Shown p q) : Untouched p q := by
  have hpacer : q.pacer = p.pacer := congrArg Timeline.pacer h.timeline
  refine ⟨h.releases, h.timers, h.holdMs, hpacer ▸ Nat.le_refl _, ?_⟩
  unfold keypad
  rw [hpacer]

end Shown

theorem shown_warn (p : Player) (line : String) : Shown p (p.warn line) :=
  ⟨rfl, rfl, rfl, rfl, rfl, rfl, rfl⟩

theorem shown_foldl_warn (p : Player) (lines : List String) : Shown p (lines.foldl warn p) := by
  induction lines generalizing p with
  | nil => exact .refl p
  | cons line lines ih => exact (shown_warn p line).trans (ih _)

/-- Frames and tones only show; a report does more. -/
theorem shown_handle (h : e.report? = none) : Shown p (p.handle e) := by
  have hshown (shown : Bool) (w : Writing) : Shown p ({ p with shown }.write w) :=
    ⟨rfl, rfl, rfl, rfl, rfl, rfl, rfl⟩
  unfold handle
  split
  · exact .refl p
  · cases e with
    | present f =>
      unfold showFrame
      dsimp only
      split
      · exact hshown true _
      · exact .refl p
    | tone on =>
      dsimp only
      split
      · exact hshown p.shown _
      · exact .refl p
    | fault error frame? running => cases h

/-- A player that goes on has not ended before, if nothing happens to one that has ended. -/
theorem exit?_eq_none_of (hq : p.exit?.isSome = true → q = p) (h : q.exit? = none) :
    p.exit? = none := by
  by_contra hended
  rw [hq (Option.isSome_iff_ne_none.mpr hended)] at h
  exact hended h

theorem handle_of_ended (h : p.exit?.isSome = true) (e : Event) : p.handle e = p :=
  if_pos h

theorem untouched_handle (h : (p.handle e).exit? = none) : Untouched p (p.handle e) := by
  cases hx : p.exit?.isSome with
  | true =>
    rw [handle_of_ended hx]
    exact .refl p
  | false =>
    cases e with
    | present f => exact (shown_handle rfl).untouched
    | tone on => exact (shown_handle rfl).untouched
    | fault error frame? running =>
      unfold handle at h
      rw [hx] at h
      cases h

theorem foldl_handle_of_ended (h : p.exit?.isSome = true) (events : List Event) :
    events.foldl handle p = p := by
  induction events with
  | nil => rfl
  | cons e events ih =>
    rw [List.foldl_cons, handle_of_ended h e]
    exact ih

theorem untouched_foldl_handle {events : List Event}
    (h : (events.foldl handle p).exit? = none) : Untouched p (events.foldl handle p) := by
  induction events generalizing p with
  | nil => exact .refl p
  | cons e events ih =>
    have hexit : (p.handle e).exit? = none :=
      exit?_eq_none_of (fun hended => foldl_handle_of_ended hended events) h
    exact (untouched_handle hexit).trans (ih h)

/-- A player whose loop has told all that it had to tell. -/
def emptied (p : Player) : Player :=
  p.withPacer { p.pacer.takeEvents.2 with runner := p.pacer.takeEvents.2.runner.takeTrace.2 }

theorem untouched_emptied (p : Player) : Untouched p p.emptied :=
  ⟨rfl, rfl, rfl, Nat.le_refl _, rfl⟩

theorem untouched_drain (h : p.drain.exit? = none) : Untouched p p.drain :=
  ((untouched_emptied p).trans (shown_foldl_warn p.emptied _).untouched).trans
    (untouched_foldl_handle h)

theorem untouched_run (p : Player) (a : Alarm Float) :
    Untouched p { p with timeline := (p.timeline.run a).2 } where
  releases := rfl
  timers := rfl
  holdMs := rfl
  nextId := (Pacer.abiding_nextId p.pacer.nextId).fire _ a (Nat.le_refl _)
  held := by
    have hframe (r : Runner) (hr : r.machine.keypad.held = p.keypad.held) :
        r.frame.2.machine.keypad.held = p.keypad.held :=
      r.held_frame.trans hr
    exact Pacer.runner_fire hframe _ a rfl

/-! Time that passes. -/

/-- Timers may have run, and none was set. -/
structure Passed (p q : Player) : Prop where
  tidy : Tidy q
  releases : q.releases ⊆ p.releases
  holdMs : q.holdMs = p.holdMs

theorem Passed.trans {s : Player} (hp : Passed p q) (hq : Passed q s) : Passed p s where
  tidy := hq.tidy
  releases := List.Subset.trans hq.releases hp.releases
  holdMs := hq.holdMs.trans hp.holdMs

theorem passed_runDue {d : Due} (hp : Tidy p) (hd : d ∈ p.due) (h : (p.runDue d).exit? = none) :
    Passed p (p.runDue d) := by
  cases d with
  | frame a =>
    have hframe : Untouched p (p.runDue (.frame a)) := (untouched_run p a).trans (untouched_drain h)
    exact ⟨hframe.tidy hp, hframe.releases ▸ List.Subset.refl _, hframe.holdMs⟩
  | release r =>
    have hr : r ∈ p.releases := by simpa [due] using hd
    have hsub : (p.release r).releases ⊆ p.releases := by
      rw [releases_release]
      exact (cancel_sublist _ _).subset
    exact ⟨hp.release hr, hsub, rfl⟩

theorem runTimers_of_ended (h : p.exit?.isSome = true) (target : Float) (fuel : ℕ) :
    p.runTimers target fuel = p := by
  cases fuel with
  | zero => rfl
  | succ fuel => exact if_pos h

theorem runTimers_of_none {target : Float} (h : Alarm.earliest? Due.alarm target p.due = none)
    (fuel : ℕ) : p.runTimers target fuel = p := by
  cases fuel with
  | zero => rfl
  | succ fuel => simp [runTimers, h]

theorem runTimers_of_some {target : Float} {d : Due} (hexit : p.exit? = none)
    (h : Alarm.earliest? Due.alarm target p.due = some d) (fuel : ℕ) :
    p.runTimers target (fuel + 1) = (p.runDue d).runTimers target fuel := by
  simp [runTimers, hexit, h]

/-- Timers run one after the other until none is due, or until one of them ends the player. -/
theorem runTimers_of {G E : Player → Prop}
    (hrun : ∀ q d, G q → q.exit? = none → d ∈ q.due → G (q.runDue d) ∨ E (q.runDue d))
    (hend : ∀ q, E q → q.exit?.isSome = true) (hp : G p) (target : Float) (fuel : ℕ) :
    G (p.runTimers target fuel) ∨ E (p.runTimers target fuel) := by
  induction fuel generalizing p with
  | zero => exact .inl hp
  | succ fuel ih =>
    cases hexit : p.exit? with
    | some code =>
      rw [runTimers_of_ended (by rw [hexit]; rfl)]
      exact .inl hp
    | none =>
      cases hd : Alarm.earliest? Due.alarm target p.due with
      | none =>
        rw [runTimers_of_none hd]
        exact .inl hp
      | some d =>
        rw [runTimers_of_some hexit hd]
        rcases hrun p d hp hexit (Alarm.mem_of_earliest? hd) with hgo | hdone
        · exact ih hgo
        · rw [runTimers_of_ended (hend _ hdone)]
          exact .inr hdone

theorem passed_runTimers {target : Float} {fuel : ℕ} (hp : Tidy p)
    (h : (p.runTimers target fuel).exit? = none) : Passed p (p.runTimers target fuel) := by
  have hrun (q : Player) (d : Due) (hq : Passed p q) (_ : q.exit? = none) (hd : d ∈ q.due) :
      Passed p (q.runDue d) ∨ (q.runDue d).exit?.isSome = true := by
    cases hexit : (q.runDue d).exit? with
    | some code => exact .inr rfl
    | none => exact .inl (hq.trans (passed_runDue hq.tidy hd hexit))
  have hpassed := runTimers_of hrun (fun _ hended => hended) ⟨hp, List.Subset.refl _, rfl⟩
    target fuel
  exact hpassed.resolve_right (by simp [h])

theorem advance_of_runTimers {ms : Float}
    (h : p.runTimers (p.timeline.clock + ms) Timeline.limit = q) :
    p.advance ms = { q with timeline := { q.timeline with clock := p.timeline.clock + ms } } := by
  rw [← h]
  rfl

theorem passed_advance {ms : Float} (hp : Tidy p) (h : (p.advance ms).exit? = none) :
    Passed p (p.advance ms) := by
  have hpassed := passed_runTimers hp h
  have hmoved (q : Player) (clock : Float) :
      Untouched q { q with timeline := { q.timeline with clock } } :=
    ⟨rfl, rfl, rfl, Nat.le_refl _, rfl⟩
  exact ⟨(hmoved _ _).tidy hpassed.tidy, hpassed.releases, hpassed.holdMs⟩

end Command.Player

end Chip8
