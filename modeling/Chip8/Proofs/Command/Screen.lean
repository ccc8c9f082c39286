import Chip8.Proofs.Command.Endings
import Chip8.Proofs.Keypad.History
import Chip8.Proofs.Pacer.Seamless

/-! What the screen of a player tells of the frames that were presented to it. -/
namespace Chip8.Command

namespace Writing

variable {title : String} {f : Frame} {picture : Picture} {status status' : String}

/-- The mark of a machine that awaits a key, at the end of the line below the picture. -/
def waitingMark : String := "  [waiting for key]"

/-- The line below the picture of a frame. -/
def statusLine (title : String) (f : Frame) : String :=
  title ++ "  frame " ++ toString f.number ++ (if f.awaitingKey then waitingMark else "")

/-- A picture in half blocks from the top of the terminal on, and a line below it. -/
def screenOf (picture : Picture) (status : String) : String :=
  "\x1b[H" ++ "\n".intercalate picture.halfBlocks ++ "\n" ++ status ++ "\x1b[K\n"

/-- The screen that a writing is, if it is one. -/
def screen? : Writing → Option String
  | .screen title f => some (screenText title f)
  | _ => none

def Marked (status : String) : Prop :=
  waitingMark.toList <:+ status.toList

theorem screenText_eq (title : String) (f : Frame) :
    screenText title f = screenOf f.picture (statusLine title f) := by
  unfold screenText screenOf statusLine waitingMark
  simp only [String.append_assoc]

theorem screenOf_injective (h : screenOf picture status = screenOf picture status') :
    status = status' := by
  unfold screenOf at h
  have hlists := congrArg String.toList h
  simp only [String.toList_append, List.append_cancel_right_eq,
    List.append_cancel_left_eq] at hlists
  exact String.toList_inj.mp hlists

theorem marked_statusLine : Marked (statusLine title f) ↔ f.awaitingKey = true := by
  constructor
  · rintro ⟨front, hfront⟩
    by_contra hwaits
    -- without the mark the line ends with the digits of a number
    have hline : (statusLine title f).toList =
        (title ++ "  frame ").toList ++ Nat.toDigits 10 f.number := by
      simp [statusLine, hwaits]
    have hmark : waitingMark.toList = "  [waiting for key".toList ++ [']'] := rfl
    have hnot : ']' ∉ Nat.toDigits 10 f.number := fun hc =>
      absurd (Nat.isDigit_of_mem_toDigits (by decide) (by decide) hc) (by decide)
    rw [hline, hmark, ← List.append_nil (front ++ _)] at hfront
    obtain ⟨z, hz⟩ := exists_tail hfront hnot
    exact Nat.toDigits_ne_nil (List.append_eq_nil_iff.mp hz.symm).2
  · intro hwaits
    refine ⟨(title ++ "  frame " ++ toString f.number).toList, ?_⟩
    simp [statusLine, hwaits]

end Writing

/-- The frame that is drawn last: the first one, or a later one that is marked as changed, with none
behind it that is marked. -/
def DrawnLast (fs : List Frame) (g : Frame) : Prop :=
  Since (fun before f => f = g ∧ (before = [] ∨ f.displayChanged = true))
    (fun f => f.displayChanged = false) fs

section DrawnLast

variable {fs : List Frame} {f g : Frame}

theorem drawnLast_concat : DrawnLast (fs ++ [f]) g ↔
    (f = g ∧ (fs = [] ∨ f.displayChanged = true)) ∨ DrawnLast fs g ∧ f.displayChanged = false :=
  since_concat

theorem not_drawnLast_nil : ¬ DrawnLast [] g :=
  not_since_nil

theorem exists_drawnLast (h : fs ≠ []) : ∃ g, DrawnLast fs g := by
  induction fs using List.reverseRecOn with
  | nil => exact absurd rfl h
  | append_singleton fs f ih =>
    by_cases hdrawn : fs = [] ∨ f.displayChanged = true
    · exact ⟨f, drawnLast_concat.mpr (.inl ⟨rfl, hdrawn⟩)⟩
    · obtain ⟨hne, hunmarked⟩ := not_or.mp hdrawn
      obtain ⟨g, hg⟩ := ih hne
      exact ⟨g, drawnLast_concat.mpr (.inr ⟨hg, by simpa using hunmarked⟩)⟩

/-- A second frame without a mark leaves the first one on the screen. -/
theorem DrawnLast.eq_of_unmarked {f' : Frame} (h : DrawnLast ([f] ++ [f']) g)
    (hf' : f'.displayChanged = false) : g = f := by
  rcases drawnLast_concat.mp h with ⟨-, hnil | hmarked⟩ | ⟨hbefore, -⟩
  · cases hnil
  · cases hf'.symm.trans hmarked
  · rw [← List.nil_append [f]] at hbefore
    rcases drawnLast_concat.mp hbefore with ⟨rfl, -⟩ | ⟨hnone, -⟩
    · rfl
    · exact absurd hnone not_drawnLast_nil

/-- The frames behind the one that was drawn last all show its picture. -/
theorem DrawnLast.pixels_eq (h : DrawnLast (fs ++ [f]) g)
    (hchain : (fs ++ [f]).IsChain Frame.Follows) : f.pixels = g.pixels := by
  induction fs using List.reverseRecOn generalizing f with
  | nil =>
    rcases drawnLast_concat.mp h with ⟨rfl, -⟩ | ⟨hnil, -⟩
    · rfl
    · exact absurd hnil not_drawnLast_nil
  | append_singleton fs f' ih =>
    rcases drawnLast_concat.mp h with ⟨rfl, -⟩ | ⟨hbefore, hunmarked⟩
    · rfl
    · obtain ⟨hchain', -, hfollows⟩ := List.isChain_append.mp hchain
      have hsame : f.pixels = f'.pixels := hfollows f' (by simp) f rfl hunmarked
      exact hsame.trans (ih hbefore hchain')

end DrawnLast

namespace Player

variable {p q s : Player} {fs : List Frame} {queue : List Event} {f g : Frame} {e : Event}
  {picture : Picture} {status status' : String}

/-- The screen that was written last. -/
def lastScreen? (p : Player) : Option String :=
  (p.out.toList.filterMap Writing.screen?).getLast?

/-- The screen that was written last is this picture with this line below it. -/
def Shows (p : Player) (picture : Picture) (status : String) : Prop :=
  p.lastScreen? = some (Writing.screenOf picture status)

/-- The screen shows the picture of a frame, with a mark exactly if the frame left a machine that
awaits a key. -/
def Tells (p : Player) (f : Frame) : Prop :=
  ∃ status, p.Shows f.picture status ∧ (Writing.Marked status ↔ f.awaitingKey = true)

theorem Shows.unique (h : p.Shows picture status) (h' : p.Shows picture status') :
    status = status' :=
  Writing.screenOf_injective (Option.some.inj (h.symm.trans h'))

/-! ### The moments of a run -/

/-- The player when its loop has been asked for its events, and has not been told any of them. -/
def asked (p : Player) : Player :=
  p.pacer.takeEvents.2.runner.takeTrace.1.foldl warn p.emptied

/-- A player at the moments of its run, with the frames that were presented to it so far, and the
events of the timer that runs which are still to come. Between timers and characters there are
none. -/
inductive Passes (s : Player) : List Frame → List Event → Player → Prop
  | begun : Passes s [] [] s
  | typed {fs : List Frame} {p : Player} (c : Char) (hexit : p.exit? = none)
      (h : Passes s fs [] p) : Passes s fs [] (p.typeChar c)
  | released {fs : List Frame} {p : Player} (r : Release) (hr : r ∈ p.releases)
      (hexit : p.exit? = none) (h : Passes s fs [] p) : Passes s fs [] (p.release r)
  | fired {fs : List Frame} {p : Player} (a : Alarm Float) (ha : a ∈ p.pacer.pending)
      (hexit : p.exit? = none) (h : Passes s fs [] p) :
      Passes s fs (p.fired a).pacer.events.toList (p.fired a).asked
  | told {fs : List Frame} {e : Event} {queue : List Event} {p : Player} (hexit : p.exit? = none)
      (h : Passes s fs (e :: queue) p) : Passes s (fs ++ e.frame?.toList) queue (p.handle e)
  | moved {fs : List Frame} {queue : List Event} {p : Player} (clock : Float)
      (h : Passes s fs queue p) :
      Passes s fs queue { p with timeline := { p.timeline with clock } }

theorem frames_cons (fs : List Frame) (e : Event) (queue : List Event) :
    fs ++ (e :: queue).filterMap Event.frame? =
      fs ++ e.frame?.toList ++ queue.filterMap Event.frame? := by
  cases he : e.frame? <;> simp [he]

/-- All the events are told, unless one of them ends the player. -/
theorem passes_foldl_handle (h : Passes s fs queue p) :
    ∃ fs' queue', Passes s fs' queue' (queue.foldl handle p) ∧
      ((queue.foldl handle p).exit? = none →
        fs' = fs ++ queue.filterMap Event.frame? ∧ queue' = []) := by
  induction queue generalizing fs p with
  | nil => exact ⟨fs, [], h, fun _ => ⟨(List.append_nil fs).symm, rfl⟩⟩
  | cons e queue ih =>
    cases hexit : p.exit? with
    | none =>
      obtain ⟨fs', queue', hlast, hgo⟩ := ih (.told hexit h)
      refine ⟨fs', queue', hlast, fun hnone => ?_⟩
      rw [frames_cons]
      exact hgo hnone
    | some code =>
      have hended : p.exit?.isSome = true := by
        rw [hexit]
        rfl
      rw [foldl_handle_of_ended hended]
      exact ⟨fs, e :: queue, h, fun hnone => by cases hexit.symm.trans hnone⟩

/-- A moment between two timers or characters, or the last one. -/
def Rests (s p : Player) : Prop :=
  ∃ fs queue, Passes s fs queue p ∧ (p.exit? = none → queue = [])

theorem rests_runDue (h : Rests s p) (hexit : p.exit? = none) {d : Due} (hd : d ∈ p.due) :
    Rests s (p.runDue d) := by
  obtain ⟨fs, queue, hp, hnone⟩ := h
  obtain rfl := hnone hexit
  cases d with
  | frame a =>
    have ha : a ∈ p.pacer.pending := by simpa [due] using hd
    obtain ⟨fs', queue', hlast, hgo⟩ := passes_foldl_handle (.fired a ha hexit hp)
    exact ⟨fs', queue', hlast, fun hnone => (hgo hnone).2⟩
  | release r =>
    have hr : r ∈ p.releases := by simpa [due] using hd
    exact ⟨fs, [], .released r hr hexit hp, fun _ => rfl⟩

theorem rests_advance (h : Rests s p) (ms : Float) : Rests s (p.advance ms) := by
  have htimers := runTimers_of (E := fun _ => False)
    (fun q d hq hexit hd => .inl (rests_runDue hq hexit hd)) (fun _ hq => hq.elim) h
    (p.timeline.clock + ms) Timeline.limit
  obtain ⟨fs, queue, hp, hnone⟩ := htimers.resolve_right id
  exact ⟨fs, queue, .moved _ hp, hnone⟩

theorem rests_type (h : Rests s p) (cs : List Char) : Rests s (p.type cs) := by
  induction cs generalizing p with
  | nil => exact h
  | cons c cs ih =>
    cases hexit : p.exit? with
    | none =>
      obtain ⟨fs, queue, hp, hnone⟩ := h
      obtain rfl := hnone hexit
      rw [type_cons hexit]
      exact ih ⟨fs, [], .typed c hexit hp, fun _ => rfl⟩
    | some code =>
      rw [type_of_ended (by rw [hexit]; rfl)]
      exact h

/-- A run leads from one of the moments to another. -/
theorem rests_stepAll (s : Player) (es : List Input) : Rests s (s.stepAll es) := by
  induction es using List.reverseRecOn with
  | nil => exact ⟨[], [], .begun, fun _ => rfl⟩
  | append_singleton es e ih =>
    have hlast : s.stepAll (es ++ [e]) = (s.stepAll es).step e := by simp [stepAll]
    rw [hlast]
    cases hexit : (s.stepAll es).exit? with
    | some code =>
      rw [step_of_ended (by rw [hexit]; rfl)]
      exact ih
    | none =>
      cases e with
      | advance ms =>
        rw [step_advance hexit]
        exact rests_advance ih ms
      | typed text =>
        rw [step_typed hexit]
        exact rests_type ih text.toList

/-! ### What is on the screen -/

/-- The screen that was written last is that of the frame that is drawn last. -/
structure Screened (fs : List Frame) (p : Player) : Prop where
  shown : p.shown = !fs.isEmpty
  drawn : ∀ g, DrawnLast fs g → p.lastScreen? = some (Writing.screenText p.title g)

/-- Whatever was written, it was no screen. -/
structure Unpainted (p q : Player) : Prop where
  shown : q.shown = p.shown
  title : q.title = p.title
  lastScreen? : q.lastScreen? = p.lastScreen?

theorem Screened.of_unpainted (h : Screened fs p) (hpq : Unpainted p q) : Screened fs q := by
  refine ⟨hpq.shown.trans h.shown, ?_⟩
  rw [hpq.lastScreen?, hpq.title]
  exact h.drawn

theorem unpainted_write {w : Writing} (hw : w.screen? = none) : Unpainted p (p.write w) :=
  ⟨rfl, rfl, by simp [lastScreen?, write, hw]⟩

theorem Unpainted.trans (hpq : Unpainted p q) (hqs : Unpainted q s) : Unpainted p s :=
  ⟨hqs.shown.trans hpq.shown, hqs.title.trans hpq.title, hqs.lastScreen?.trans hpq.lastScreen?⟩

theorem unpainted_foldl_warn (p : Player) (lines : List String) :
    Unpainted p (lines.foldl warn p) := by
  induction lines generalizing p with
  | nil => exact ⟨rfl, rfl, rfl⟩
  | cons line lines ih =>
    have hwarn : Unpainted p (p.warn line) := ⟨rfl, rfl, rfl⟩
    exact hwarn.trans (ih _)

theorem unpainted_shutdown (p : Player) (code : ℕ) : Unpainted p (p.shutdown code) := by
  have hend (timeline : Timeline Float) (releases : List Release) (terminal : List Terminal)
      (exit? : Option ℕ) : Unpainted p { p with timeline, releases, terminal, exit? } :=
    ⟨rfl, rfl, rfl⟩
  exact (hend _ _ _ _).trans (unpainted_write rfl)

/-- A frame is drawn if it is the first one or marked as changed, and is left out otherwise. -/
theorem Screened.showFrame (h : Screened fs p) (f : Frame) :
    Screened (fs ++ [f]) (p.showFrame f) := by
  unfold Player.showFrame
  split
  case isTrue hdraw =>
    refine ⟨by simp [write], fun g hg => ?_⟩
    have hscreen (q : Player) :
        (q.write (.screen q.title f)).lastScreen? = some (Writing.screenText q.title f) := by
      simp [lastScreen?, write, Writing.screen?]
    rcases drawnLast_concat.mp hg with ⟨rfl, -⟩ | ⟨hbefore, hunmarked⟩
    · exact hscreen _
    · have hempty : fs = [] := by simpa [hunmarked, h.shown] using hdraw
      rw [hempty] at hbefore
      exact absurd hbefore not_drawnLast_nil
  case isFalse hskip =>
    obtain ⟨hunmarked, hshown⟩ : f.displayChanged = false ∧ p.shown = true := by
      simpa using hskip
    refine ⟨by simp [hshown], fun g hg => ?_⟩
    rcases drawnLast_concat.mp hg with ⟨-, hempty | hmarked⟩ | ⟨hbefore, -⟩
    · simp [h.shown, hempty] at hshown
    · cases hunmarked.symm.trans hmarked
    · exact h.drawn g hbefore

theorem Screened.handle (h : Screened fs p) (hexit : p.exit? = none) (e : Event) :
    Screened (fs ++ e.frame?.toList) (p.handle e) := by
  have hnothing {e : Event} (he : e.frame? = none) : fs ++ e.frame?.toList = fs := by simp [he]
  cases e with
  | present f =>
    have hhandle : p.handle (.present f) = p.showFrame f := by
      unfold Player.handle
      rw [hexit]
      rfl
    rw [hhandle]
    exact h.showFrame f
  | tone on =>
    have hhandle : p.handle (.tone on) = if on then p.write .bell else p := by
      unfold Player.handle
      rw [hexit]
      rfl
    rw [hhandle, hnothing rfl]
    cases on with
    | true => exact h.of_unpainted (unpainted_write rfl)
    | false => exact h
  | fault error frame? running =>
    rw [handle_fault hexit, hnothing rfl]
    have hlament : Unpainted p (p.lament error frame?) :=
      (unpainted_write rfl).trans ⟨rfl, rfl, rfl⟩
    exact h.of_unpainted (hlament.trans (unpainted_shutdown _ 1))

/-! ### What holds at each moment -/

/-- The screen is that of the frames that were presented, and while the player goes on, the frames
that are still to come follow on those. -/
structure Keeping (fs : List Frame) (queue : List Event) (p : Player) : Prop where
  screened : Screened fs p
  chain : (fs ++ queue.filterMap Event.frame?).IsChain Frame.Follows
  events : p.exit? = none → p.pacer.events = #[]
  seamless : p.exit? = none → Pacer.Seamless (fs ++ queue.filterMap Event.frame?) p.pacer

/-- Keys do not reach the screen. -/
theorem Keeping.of_machine (h : Keeping fs queue p) (hq : Unpainted p q) (hexit : q.exit? = p.exit?)
    (hadapters : q.pacer.adapters = p.pacer.adapters) (hevents : q.pacer.events = p.pacer.events)
    (hrunning : q.pacer.running = p.pacer.running)
    (hdisplay : q.pacer.runner.machine.display = p.pacer.runner.machine.display) :
    Keeping fs queue q := by
  refine ⟨h.screened.of_unpainted hq, h.chain, ?_, fun hnone => ?_⟩
  · rw [hexit, hevents]
    exact h.events
  · obtain ⟨hquiet, hlistens, hchain, hcurrent⟩ := h.seamless (hexit ▸ hnone)
    have hpresented : q.pacer.presented = p.pacer.presented := by
      unfold Pacer.presented
      rw [hevents]
    refine ⟨hadapters ▸ hquiet, hadapters ▸ hlistens, hpresented ▸ hchain, ?_⟩
    rw [hrunning, hdisplay, hpresented]
    exact hcurrent

theorem Keeping.of_ended (h : Keeping fs queue p) (hq : Unpainted p q)
    (hexit : q.exit? ≠ none) : Keeping fs queue q :=
  ⟨h.screened.of_unpainted hq, h.chain, fun hnone => absurd hnone hexit,
    fun hnone => absurd hnone hexit⟩

theorem Keeping.typeChar (h : Keeping fs queue p) (c : Char) : Keeping fs queue (p.typeChar c) := by
  cases hquit : isQuit c with
  | true =>
    have hdown : p.typeChar c = p.shutdown 0 := if_pos hquit
    rw [hdown]
    exact h.of_ended (unpainted_shutdown p 0) (by simp [shutdown, write])
  | false =>
    cases hk : keyOf? c with
    | none => rwa [typeChar_of_other hquit hk]
    | some k =>
      rw [typeChar_of_keyOf? hk]
      exact h.of_machine ⟨rfl, rfl, rfl⟩ rfl rfl rfl rfl rfl

theorem seamless_emptied (h : Pacer.Seamless fs p.pacer) :
    Pacer.Seamless (fs ++ p.pacer.presented) p.emptied.pacer := by
  have hnone : p.emptied.pacer.presented = [] := rfl
  refine ⟨h.adapters, h.listens, ?_, ?_⟩
  · rw [hnone, List.append_nil]
    exact h.chain
  · rw [hnone, List.append_nil]
    exact h.current

theorem Keeping.fired (h : Keeping fs [] p) (hexit : p.exit? = none) (a : Alarm Float) :
    Keeping fs (p.fired a).pacer.events.toList (p.fired a).asked := by
  have hstart := h.seamless hexit
  rw [List.filterMap_nil, List.append_nil] at hstart
  have hfired : Pacer.Seamless fs (p.fired a).pacer := hstart.fire _ a
  have hasked := shown_foldl_warn (p.fired a).emptied
    (p.fired a).pacer.takeEvents.2.runner.takeTrace.1
  have hpacer : (p.fired a).asked.pacer = (p.fired a).emptied.pacer :=
    congrArg Timeline.pacer hasked.timeline
  have hemptied : Unpainted p (p.fired a).emptied := ⟨rfl, rfl, rfl⟩
  have hunpainted : Unpainted p (p.fired a).asked := hemptied.trans (unpainted_foldl_warn _ _)
  refine ⟨h.screened.of_unpainted hunpainted, hfired.chain, fun _ => ?_, fun _ => ?_⟩
  · rw [hpacer]
    rfl
  · rw [hpacer]
    exact seamless_emptied hfired

theorem Keeping.handle (h : Keeping fs (e :: queue) p) (hexit : p.exit? = none) :
    Keeping (fs ++ e.frame?.toList) queue (p.handle e) := by
  have hscreened := h.screened.handle hexit e
  have hchain := h.chain
  have hevents := h.events hexit
  have hseamless := h.seamless hexit
  rw [frames_cons] at hchain hseamless
  cases he : e.report? with
  | none =>
    have hpacer : (p.handle e).pacer = p.pacer := congrArg Timeline.pacer (shown_handle he).timeline
    refine ⟨hscreened, hchain, fun _ => ?_, fun _ => ?_⟩
    · rwa [hpacer]
    · rwa [hpacer]
  | some report =>
    obtain ⟨error, frame?, running, rfl⟩ :
        ∃ error frame? running, e = .fault error frame? running := by
      cases e with
      | fault error frame? running => exact ⟨error, frame?, running, rfl⟩
      | present f => cases he
      | tone on => cases he
    have hended : (p.handle (.fault error frame? running)).exit? ≠ none := by
      rw [handle_fault hexit]
      simp [shutdown, write]
    exact ⟨hscreened, hchain, fun hnone => absurd hnone hended, fun hnone => absurd hnone hended⟩

theorem keeping_start (req : Request) (source : Source) (tty : Bool) :
    Keeping [] [] (start req source tty) := by
  have hnothing (g : Frame) : ¬ DrawnLast [] g := not_drawnLast_nil
  unfold start
  split
  case h_1 => exact ⟨⟨rfl, fun g hg => absurd hg (hnothing g)⟩, .nil, nofun, nofun⟩
  case h_2 path _ =>
    dsimp only
    split
    case h_1 => exact ⟨⟨rfl, fun g hg => absurd hg (hnothing g)⟩, .nil, nofun, nofun⟩
    case h_2 c _ =>
      refine ⟨⟨rfl, fun g hg => absurd hg (hnothing g)⟩, .nil, fun _ => rfl, fun _ => ?_⟩
      exact ⟨Adapters.quiet_silent, rfl, .nil, fun _ f hf => nomatch hf⟩

theorem keeping_of_passes {req : Request} {source : Source} {tty : Bool}
    (h : Passes (start req source tty) fs queue p) : Keeping fs queue p := by
  induction h with
  | begun => exact keeping_start req source tty
  | typed c _ _ ih => exact ih.typeChar c
  | released r _ _ _ ih => exact ih.of_machine ⟨rfl, rfl, rfl⟩ rfl rfl rfl rfl rfl
  | fired a _ hexit _ ih => exact ih.fired hexit a
  | told hexit _ ih => exact ih.handle hexit
  | moved clock _ ih => exact ih.of_machine ⟨rfl, rfl, rfl⟩ rfl rfl rfl rfl rfl

/-- The picture is that of the frame that was presented last, and the line below it is that of the
frame that was drawn last. -/
theorem Keeping.shows (h : Keeping (fs ++ [f]) queue p) :
    ∃ g, DrawnLast (fs ++ [f]) g ∧ p.Shows f.picture (Writing.statusLine p.title g) := by
  have hne : fs ++ [f] ≠ [] := by simp
  obtain ⟨g, hg⟩ := exists_drawnLast hne
  have hpixels := hg.pixels_eq (List.isChain_append.mp h.chain).1
  have hpicture : f.picture = g.picture := by simp [Frame.picture, hpixels]
  refine ⟨g, hg, ?_⟩
  rw [Shows, hpicture, ← Writing.screenText_eq]
  exact h.screened.drawn g hg

theorem tells_iff (h : p.Shows f.picture (Writing.statusLine p.title g)) :
    p.Tells f ↔ g.awaitingKey = f.awaitingKey := by
  have hmark : Writing.Marked (Writing.statusLine p.title g) ↔ g.awaitingKey = true :=
    Writing.marked_statusLine
  have hiff : p.Tells f ↔ (g.awaitingKey = true ↔ f.awaitingKey = true) := by
    rw [← hmark]
    constructor
    · rintro ⟨status, hshows, hmarked⟩
      rwa [h.unique hshows]
    · intro hmarked
      exact ⟨_, h, hmarked⟩
  exact hiff.trans Bool.eq_iff_iff.symm

/-- A run goes from one of the moments to another. At each of them that comes after a frame, the
picture on the screen is that of the frame that was presented last. The line below it is that of the
frame that was drawn last, so that it tells whether a key is awaited exactly if this has not changed
since. -/
theorem screen_tells_iff (req : Request) (source : Source) (tty : Bool) :
    (∀ es, Rests (start req source tty) ((start req source tty).stepAll es)) ∧
    ∀ fs f queue p, Passes (start req source tty) (fs ++ [f]) queue p →
      ∃ g, DrawnLast (fs ++ [f]) g ∧ p.Shows f.picture (Writing.statusLine p.title g) ∧
        (p.Tells f ↔ g.awaitingKey = f.awaitingKey) := by
  refine ⟨rests_stepAll _, fun fs f queue p hp => ?_⟩
  obtain ⟨g, hg, hshows⟩ := (keeping_of_passes hp).shows
  exact ⟨g, hg, hshows, tells_iff hshows⟩

/-! ### A key that is awaited without a word -/

/-- The frame of such a timer is presented. -/
theorem Ticking.passes {clock nextAt : Float} {r : Runner} {a : Alarm Float}
    (h : Ticking clock nextAt r a p) (hf : r.frame.1 = .ok f) (hfault : f.fault? = none)
    (hclock : clock ≤ a.due) (hdue : nextAt ≤ a.due + Float.ofNat 0)
    (hlate : ¬ nextAt + Pacer.frameMs ≤ a.due + Float.ofNat 0) (hp : Passes s fs [] p) :
    Passes s (fs ++ [f]) [] (p.runDue (.frame a)) := by
  obtain ⟨hpresented, -, id, hnext⟩ := h.runDue hf hfault hclock hdue hlate
  have ha : a ∈ p.pacer.pending := by simp [h.pending]
  obtain ⟨fs', queue', hlast, hgo⟩ := passes_foldl_handle (.fired a ha h.exit hp)
  obtain ⟨rfl, rfl⟩ := hgo hnext.exit
  have hframes : (p.fired a).pacer.events.toList.filterMap Event.frame? = [f] := hpresented
  rw [hframes] at hlast
  exact hlast

/-- An image at every path: it jumps to the word behind, which waits for a key. -/
def pausing : Request where
  args := ⟨[("rom", "a"), ("ipf", "1")], []⟩
  env := fun _ => none
  directory := "/"
  files := fun _ => some #[0x12, 0x02, 0xf0, 0x0a]

/-- The frame in which the wait begins leaves the picture as it is, and has no mark. -/
theorem frames_pausing {r : Runner} (hb : r.budget = some 1) (hr : r.machine.run = .running)
    (hm : r.machine.memory = Memory.initial.withProgram #[0x12, 0x02, 0xf0, 0x0a])
    (hpc : r.machine.pc = 0x200) :
    ∃ f g, r.frame.1 = .ok f ∧ f.fault? = none ∧ f.awaitingKey = false ∧
      r.frame.2.takeTrace.2.frame.1 = .ok g ∧ g.fault? = none ∧ g.awaitingKey = true ∧
      g.displayChanged = false := by
  have hjump : r.machine.Reads (.jump 0x202) :=
    Machine.reads_of_image hm hpc (show 0x202 < 4096 by decide) (by decide)
  obtain ⟨f, hf, -, -, hfree, hfault, hbudget, hmachine⟩ :=
    Runner.frame_of_completed hb hr hjump rfl rfl
  let m := r.frame.2.takeTrace.2.machine
  have hleft : m = _ := hmachine
  have himage : m.memory = Memory.initial.withProgram #[0x12, 0x02, 0xf0, 0x0a] := by
    rw [hleft]
    exact hm
  have hnext : m.pc.toNat = 0x200 + 2 := by
    rw [hleft]
    rfl
  have hrun : m.run = .running := by
    rw [hleft]
    exact hr
  have hwait : m.Reads (.waitKey 0) :=
    Machine.reads_of_image_at himage hnext (by decide) (show 0 < 16 by decide) (by decide)
  obtain ⟨g, hg, -, hmark, hwaits, hfault', -, -⟩ :=
    Runner.frame_of_completed (r := r.frame.2.takeTrace.2) hbudget hrun hwait rfl rfl
  have hgoes : f.awaitingKey = m.isAwaitingKey := by
    rw [hleft]
    exact hfree
  refine ⟨f, g, hf, hfault, ?_, hg, hfault', hwaits, ?_⟩
  · rw [hgoes]
    simp [Machine.isAwaitingKey, hrun]
  · rw [hmark]
    change m.display.dirty = false
    rw [hleft]

/-- The two frames are presented by the first two timers. -/
theorem passes_pausing : ∃ f g p, Passes (start pausing (.seeded 0) true) ([f] ++ [g]) [] p ∧
    f.awaitingKey = false ∧ g.awaitingKey = true ∧ g.displayChanged = false := by
  let s := start pausing (.seeded 0) true
  obtain ⟨f, g, hf, hfault, hgoes, hg, hfault', hwaits, hmark⟩ :=
    frames_pausing (r := s.pacer.runner) (by decide +kernel) rfl rfl rfl
  let due := dueIn (Float.ofNat 0) (Float.ofNat 0)
  let nextAt := Float.ofNat 0 + Float.ofNat 0 + Pacer.frameMs
  let due' := dueIn due (nextAt - (due + Float.ofNat 0))
  have hclock : Float.ofNat 0 ≤ due := by decide +kernel
  have hdue : Float.ofNat 0 + Float.ofNat 0 ≤ due + Float.ofNat 0 := by decide +kernel
  have hlate : ¬ nextAt ≤ due + Float.ofNat 0 := by decide +kernel
  have hclock' : due ≤ due' := by decide +kernel
  have hdue' : nextAt ≤ due' + Float.ofNat 0 := by decide +kernel
  have hlate' : ¬ nextAt + Pacer.frameMs ≤ due' + Float.ofNat 0 := by decide +kernel
  have hstart : Ticking (Float.ofNat 0) (Float.ofNat 0 + Float.ofNat 0) s.pacer.runner ⟨0, due⟩ s :=
    ⟨rfl, Adapters.quiet_silent, rfl, rfl, rfl, rfl, rfl, rfl, rfl, rfl, rfl, rfl⟩
  have hfirst := hstart.passes hf hfault hclock hdue hlate .begun
  obtain ⟨-, -, id, hnext⟩ := hstart.runDue hf hfault hclock hdue hlate
  have hsecond := hnext.passes hg hfault' hclock' hdue' hlate' hfirst
  exact ⟨f, g, _, hsecond, hgoes, hwaits, hmark⟩

theorem screen_tells_iff_pausing : ∃ f g p,
    Passes (start pausing (.seeded 0) true) ([f] ++ [g]) [] p ∧
      p.Shows g.picture (Writing.statusLine p.title f) ∧ ¬ p.Tells g := by
  obtain ⟨f, g, p, hp, hgoes, hwaits, hmark⟩ := passes_pausing
  obtain ⟨-, htells⟩ := screen_tells_iff pausing (.seeded 0) true
  obtain ⟨drawn, hdrawn, hshows, hiff⟩ := htells [f] g [] p hp
  rw [hdrawn.eq_of_unmarked hmark] at hshows hiff
  refine ⟨f, g, p, hp, hshows, ?_⟩
  rw [hiff, hgoes, hwaits]
  exact Bool.false_ne_true

/-- The screen does not tell of a wait that begins in a frame that changes nothing else. -/
theorem wait_untold : ¬ ∀ req source tty fs f queue p,
    Passes (start req source tty) (fs ++ [f]) queue p → p.Tells f := by
  intro h
  obtain ⟨f, g, p, hp, hgoes, hwaits, hmark⟩ := passes_pausing
  obtain ⟨drawn, hdrawn, hshows⟩ := (keeping_of_passes hp).shows
  rw [hdrawn.eq_of_unmarked hmark] at hshows
  have htold := (tells_iff hshows).mp (h _ _ _ _ _ _ _ hp)
  rw [hgoes, hwaits] at htold
  cases htold

end Player

end Chip8.Command
