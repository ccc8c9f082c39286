import Chip8.Proofs.Command.KeyTimers
import Chip8.Proofs.Pacer.Endings
import Chip8.Proofs.Pacer.Seamless

/-! A timer of a player's loop that finds a single frame due, and what it leaves alone. -/
namespace Chip8.Command.Player

variable {p q : Player} {events : List Event} {f : Frame} {clock nextAt : Float} {r : Runner}
  {a : Alarm Float}

theorem shown_foldl_handle (h : events.filterMap Event.report? = []) :
    Shown p (events.foldl handle p) := by
  induction events generalizing p with
  | nil => exact .refl p
  | cons e events ih =>
    have hnone := List.filterMap_eq_nil_iff.mp h
    have hrest : events.filterMap Event.report? = [] :=
      List.filterMap_eq_nil_iff.mpr fun e he => hnone e (List.mem_cons_of_mem _ he)
    exact (shown_handle (hnone e List.mem_cons_self)).trans (ih hrest)

theorem shown_drain (h : p.pacer.reports = []) : Shown p.emptied p.drain :=
  (shown_foldl_warn p.emptied _).trans (shown_foldl_handle h)

/-- The player when a timer of its loop has run, and before it is told what came of it. -/
def fired (p : Player) (a : Alarm Float) : Player :=
  { p with timeline := (p.timeline.run a).2 }

/-- A player between two timers of its loop, of which the next one is `a`. -/
structure Ticking (clock nextAt : Float) (r : Runner) (a : Alarm Float) (p : Player) : Prop where
  exit : p.exit? = none
  adapters : p.pacer.adapters.Quiet
  listens : p.pacer.adapters.present?.isSome = true
  running : p.pacer.running = true
  catchUp : p.pacer.catchUp = Pacer.standardCatchUp
  frameTime : p.pacer.frameTime = Pacer.frameMs
  events : p.pacer.events = #[]
  clock : p.timeline.clock = clock
  skew : p.timeline.skew = Float.ofNat 0
  nextAt : p.pacer.nextAt = nextAt
  runner : p.pacer.runner = r
  pending : p.pacer.pending = [a]

/-- When a timer runs that is set for a time from now. -/
def dueIn (clock delay : Float) : Float :=
  clock + if delay ≤ Float.ofNat 0 then Float.ofNat 0 else delay

/-- A timer that finds one frame due runs it, hands it to the screen and sets the next timer. -/
theorem Ticking.fired (h : Ticking clock nextAt r a p) (hf : r.frame.1 = .ok f) (hfault : f.fault? = none)
    (hclock : clock ≤ a.due) (hdue : nextAt ≤ a.due + Float.ofNat 0)
    (hlate : ¬ nextAt + Pacer.frameMs ≤ a.due + Float.ofNat 0) :
    (p.fired a).timeline.clock = a.due ∧
      ∃ q, (p.pacer.take a).Undisturbed q ∧ q.runner = r.frame.2 ∧ q.presented = [f] ∧
        q.reports = [] ∧
        (p.fired a).pacer = { q with nextAt := nextAt + Pacer.frameMs }.arm
          ⟨a.due, a.due + Float.ofNat 0⟩ (nextAt + Pacer.frameMs - (a.due + Float.ofNat 0)) := by
  let t : Moment Float := ⟨a.due, a.due + Float.ofNat 0⟩
  have hnow : (if p.timeline.clock ≤ a.due then a.due else p.timeline.clock) = a.due := by
    rw [h.clock]
    exact if_pos hclock
  have hfaultless : p.pacer.Faultless := ⟨f, by rw [h.runner, hf], hfault⟩
  have hcatchUp : p.pacer.catchUp ≠ 0 := by
    rw [h.catchUp]
    decide
  rw [← h.nextAt] at hdue
  have hahead : ¬ p.pacer.nextAt + p.pacer.frameTime ≤ t.now := by rwa [h.nextAt, h.frameTime]
  obtain ⟨q, hrun, hpq, hfire⟩ :=
    Pacer.fire_of_one_due (t := t) h.adapters h.running hfaultless hcatchUp hdue hahead a
  have hnone : p.pacer.presented = [] ∧ p.pacer.reports = [] := by
    simp [Pacer.presented, Pacer.reports, h.events]
  refine ⟨hnow, q, hpq, ?_, ?_, ?_, ?_⟩
  · have hframe := Pacer.runner_runFrame (p.pacer.take a) t
    rw [hrun] at hframe
    rw [← h.runner]
    exact hframe
  · have hframe := Pacer.presented_runFrame (p := p.pacer.take a) h.listens t
    have hgot : (p.pacer.take a).frame? = some f :=
      Pacer.frame?_eq_some_iff.mpr (by rw [← hf, ← h.runner]; rfl)
    have htake : (p.pacer.take a).presented = [] := hnone.1
    rwa [hrun, hgot, htake] at hframe
  · have htry := Pacer.reports_tryFrame (p.pacer.take a) t
    rw [(Pacer.runFrame_eq_goOn hrun).1] at htry
    exact htry.trans hnone.2
  · have hnext : q.postpone.nextAt = nextAt + Pacer.frameMs := by
      change q.nextAt + q.frameTime = _
      rw [hpq.nextAt, hpq.frameTime, ← h.nextAt, ← h.frameTime]
      rfl
    have hrearmed : (q.postpone.rearm t).nextAt = nextAt + Pacer.frameMs := by
      rw [Pacer.nextAt_rearm, hnext, if_neg hlate]
    have hfired : (p.fired a).pacer = (p.pacer.fire t a).2 := by
      change (p.pacer.fire ⟨_, _ + p.timeline.skew⟩ a).2 = _
      rw [hnow, h.skew]
    rw [hfired, hfire, Pacer.rearm_eq_arm, hrearmed]
    rfl

/-- The frame is handed to the screen. The keys stay as they are, and so do their timers. -/
theorem Ticking.runDue (h : Ticking clock nextAt r a p) (hf : r.frame.1 = .ok f)
    (hfault : f.fault? = none) (hclock : clock ≤ a.due) (hdue : nextAt ≤ a.due + Float.ofNat 0)
    (hlate : ¬ nextAt + Pacer.frameMs ≤ a.due + Float.ofNat 0) :
    (p.fired a).pacer.presented = [f] ∧ Untouched p (p.runDue (.frame a)) ∧
      ∃ id, Ticking a.due (nextAt + Pacer.frameMs) r.frame.2.takeTrace.2
        ⟨id, dueIn a.due (nextAt + Pacer.frameMs - (a.due + Float.ofNat 0))⟩
        (p.runDue (.frame a)) := by
  obtain ⟨hnow, q, hpq, hrunner, hpresented, hreports, hpacer⟩ :=
    h.fired hf hfault hclock hdue hlate
  have hshown : Shown (p.fired a).emptied (p.runDue (.frame a)) := by
    apply shown_drain
    rw [hpacer]
    exact hreports
  have hexit : (p.runDue (.frame a)).exit? = none := hshown.exit.trans h.exit
  have hleft : (p.runDue (.frame a)).pacer = (p.fired a).emptied.pacer :=
    congrArg Timeline.pacer hshown.timeline
  have hkept : (p.runDue (.frame a)).pacer = { (p.fired a).pacer with
      events := #[], runner := (p.fired a).pacer.runner.takeTrace.2 } := hleft
  rw [hpacer] at hkept
  have hadapters : q.adapters = p.pacer.adapters := hpq.adapters
  have hpending : q.pending = [] := by
    have htaken : q.pending = p.pacer.pending.filter (·.id != a.id) := hpq.pending
    rw [htaken, h.pending]
    simp
  refine ⟨by rw [hpacer]; exact hpresented, (untouched_run p a).trans (untouched_drain hexit),
    q.nextId, hexit, ?_, ?_, ?_, ?_, ?_, ?_, ?_, ?_, ?_, ?_, ?_⟩
  case refine_7 => exact (congrArg Timeline.clock hshown.timeline).trans hnow
  case refine_8 => exact (congrArg Timeline.skew hshown.timeline).trans h.skew
  all_goals rw [hkept]
  · exact hadapters ▸ h.adapters
  · exact hadapters ▸ h.listens
  · exact hpq.running.trans h.running
  · exact hpq.catchUp.trans h.catchUp
  · exact hpq.frameTime.trans h.frameTime
  · rfl
  · exact congrArg (·.takeTrace.2) hrunner
  · exact congrArg (· ++ [_]) hpending

/-! Time in which a single timer runs. -/

theorem earliest?_eq_none {target : Float} (hp : ∀ a ∈ p.pacer.pending, ¬ a.due ≤ target)
    (hr : ∀ r ∈ p.releases, ¬ r.alarm.due ≤ target) :
    Alarm.earliest? Due.alarm target p.due = none := by
  have hnone : p.due.filter (·.alarm.due ≤ target) = [] := by
    rw [due, List.filter_eq_nil_iff, List.forall_mem_append, List.forall_mem_map,
      List.forall_mem_map]
    exact ⟨fun a ha => decide_eq_true_iff.not.mpr (hp a ha),
      fun r h => decide_eq_true_iff.not.mpr (hr r h)⟩
  rw [Alarm.earliest?, hnone]
  rfl

theorem earliest?_eq_some {target : Float} {d : Due} {before after : List Due}
    (hdue : p.due = before ++ d :: after) (hd : d.alarm.due ≤ target)
    (hbefore : ∀ d ∈ before, ¬ d.alarm.due ≤ target)
    (hafter : ∀ d ∈ after, ¬ d.alarm.due ≤ target) :
    Alarm.earliest? Due.alarm target p.due = some d := by
  have hnone {ds : List Due} (hds : ∀ d ∈ ds, ¬ d.alarm.due ≤ target) :
      ds.filter (·.alarm.due ≤ target) = [] :=
    List.filter_eq_nil_iff.mpr fun d hmem => decide_eq_true_iff.not.mpr (hds d hmem)
  have honly : p.due.filter (·.alarm.due ≤ target) = [d] := by
    rw [hdue, List.filter_append, List.filter_cons, hnone hbefore, hnone hafter]
    exact if_pos (decide_eq_true hd)
  rw [Alarm.earliest?, honly]
  rfl

/-- Time in which the frame is run, and in which no key is let go of. -/
theorem Ticking.advance {ms : Float} (h : Ticking clock nextAt r a p) (hf : r.frame.1 = .ok f)
    (hfault : f.fault? = none) (hclock : clock ≤ a.due) (hdue : nextAt ≤ a.due + Float.ofNat 0)
    (hlate : ¬ nextAt + Pacer.frameMs ≤ a.due + Float.ofNat 0) (hnow : a.due ≤ clock + ms)
    (hnext : ¬ dueIn a.due (nextAt + Pacer.frameMs - (a.due + Float.ofNat 0)) ≤ clock + ms)
    (hheld : ∀ r ∈ p.releases, ¬ r.alarm.due ≤ clock + ms) :
    Untouched p (p.advance ms) ∧
      ∃ id, Ticking (clock + ms) (nextAt + Pacer.frameMs) r.frame.2.takeTrace.2
        ⟨id, dueIn a.due (nextAt + Pacer.frameMs - (a.due + Float.ofNat 0))⟩ (p.advance ms) := by
  obtain ⟨-, hkeys, id, hq⟩ := h.runDue hf hfault hclock hdue hlate
  have hfirst : Alarm.earliest? Due.alarm (clock + ms) p.due = some (.frame a) := by
    have hsplit : p.due = [] ++ .frame a :: p.releases.map .release := by
      rw [due, h.pending]
      rfl
    apply earliest?_eq_some hsplit hnow (by simp)
    rwa [List.forall_mem_map]
  have hrest : Alarm.earliest? Due.alarm (clock + ms) (p.runDue (.frame a)).due = none := by
    apply earliest?_eq_none
    · rwa [hq.pending, List.forall_mem_singleton]
    · rwa [hkeys.releases]
  have hrun : p.runTimers (p.timeline.clock + ms) Timeline.limit = p.runDue (.frame a) := by
    rw [h.clock]
    exact (runTimers_of_some h.exit hfirst 99).trans (runTimers_of_none hrest 99)
  rw [advance_of_runTimers hrun, h.clock]
  exact ⟨⟨hkeys.releases, hkeys.timers, hkeys.holdMs, hkeys.nextId, hkeys.held⟩, id, hq.exit,
    hq.adapters, hq.listens, hq.running, hq.catchUp, hq.frameTime, hq.events, rfl, hq.skew,
    hq.nextAt, hq.runner, hq.pending⟩

/-- Time in which one key is let go of, and in which nothing else is due. -/
theorem advance_release {k : Release} {rest : List Release} (ms : Float) (hexit : p.exit? = none)
    (hreleases : p.releases = k :: rest) (hnow : k.alarm.due ≤ p.timeline.clock + ms)
    (hpending : ∀ a ∈ p.pacer.pending, ¬ a.due ≤ p.timeline.clock + ms)
    (hheld : ∀ r ∈ rest, ¬ r.alarm.due ≤ p.timeline.clock + ms) :
    (p.advance ms).exit? = none ∧ (p.advance ms).keypad = p.keypad.release k.key := by
  have hfirst : Alarm.earliest? Due.alarm (p.timeline.clock + ms) p.due = some (.release k) := by
    have hsplit : p.due = p.pacer.pending.map .frame ++ .release k :: rest.map .release := by
      rw [due, hreleases]
      rfl
    apply earliest?_eq_some hsplit hnow
    · rwa [List.forall_mem_map]
    · rwa [List.forall_mem_map]
  have hrest : Alarm.earliest? Due.alarm (p.timeline.clock + ms) (p.release k).due = none := by
    refine earliest?_eq_none (p := p.release k) hpending fun r hr => ?_
    rw [releases_release, hreleases] at hr
    obtain ⟨hmem, hid⟩ := mem_cancel.mp hr
    rcases List.mem_cons.mp hmem with rfl | hmem
    · exact absurd rfl hid
    · exact hheld r hmem
  have hrun : p.runTimers (p.timeline.clock + ms) Timeline.limit = p.release k :=
    (runTimers_of_some hexit hfirst 99).trans (runTimers_of_none hrest 99)
  rw [advance_of_runTimers hrun]
  exact ⟨hexit, rfl⟩

end Chip8.Command.Player
