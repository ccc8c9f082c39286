import Chip8.Proofs.Command.KeyHolding
import Chip8.Proofs.Pacer.Endings

/-! How a player ends, and what it leaves of the terminal that it took over. -/
namespace Chip8.Command

namespace Writing

/-- A mark whose last character is not in the text at the end stands before that text. -/
theorem exists_tail {x y mark front last : List Char} {c : Char}
    (h : x ++ (mark ++ [c]) ++ y = front ++ last) (hc : c ∉ last) : ∃ z, y = z ++ last := by
  rcases List.append_eq_append_iff.mp h with ⟨z, hfront, rfl⟩ | ⟨z, hmark, rfl⟩
  · exact ⟨z, rfl⟩
  · rcases List.eq_nil_or_concat z with rfl | ⟨z, d, rfl⟩
    · exact ⟨[], rfl⟩
    · -- the mark would end inside of the last text
      rw [List.concat_eq_append, ← List.append_assoc, ← List.append_assoc] at hmark
      obtain ⟨-, hd⟩ := List.append_inj' hmark rfl
      exact absurd (by simp [List.singleton_inj.mp hd]) hc

end Writing

namespace Player

variable {p q : Player} {source : Source} {tty : Bool} {code : ℕ} {e : Event} {r : Release}
  {events : List Event} {error : Failure} {frame? : Option Frame} {running : Bool}

/-- All that was written to the terminal so far. -/
def said (p : Player) : String :=
  p.takeOutput.1.1

theorem said_write (p : Player) (w : Writing) : (p.write w).said = p.said ++ w.text := by
  simp [said, takeOutput, write]

/-! ### The terminal is given back -/

/-- A player that has taken the terminal over and knows what it has to cancel at its end. -/
structure Held (tty : Bool) (p : Player) : Prop where
  tidy : Tidy p
  onTty : p.tty = tty
  terminal : p.terminal = if tty then [.raw true] else []
  adapters : p.pacer.adapters.Quiet
  linked : p.pacer.Linked

/-- A player that has ended and given the terminal back: showing the cursor was the last that it
wrote, no tone is on, and no timer is left. -/
structure GivenBack (tty : Bool) (code : ℕ) (p : Player) : Prop where
  exit : p.exit? = some code
  said : ∃ front, p.said = front ++ Writing.showCursorText
  terminal : p.terminal = if tty then [.raw true, .raw false, .pause] else [.pause]
  toneOn : p.pacer.toneOn = false
  due : p.due = []

theorem GivenBack.ended (h : GivenBack tty code p) : p.exit?.isSome = true := by
  rw [h.exit]
  rfl

theorem mem_foldl_cancel {releases : List Release} {ids : List (Option ℕ)} :
    r ∈ ids.foldl cancel releases ↔ r ∈ releases ∧ some r.alarm.id ∉ ids := by
  induction ids generalizing releases with
  | nil => simp
  | cons id? ids ih =>
    rw [List.foldl_cons, ih, mem_cancel, List.mem_cons]
    tauto

theorem releases_shutdown (h : Tidy p) (code : ℕ) : (p.shutdown code).releases = [] := by
  refine List.eq_nil_iff_forall_not_mem.mpr fun r hr => ?_
  obtain ⟨hmem, hnot⟩ := mem_foldl_cancel.mp hr
  apply hnot
  rw [← h.known r hmem]
  exact Vector.mem_toList_iff.mpr (Vector.getElem_mem _)

theorem givenBack_shutdown (h : Held tty p) (code : ℕ) : GivenBack tty code (p.shutdown code) where
  exit := rfl
  said := ⟨_, said_write _ _⟩
  terminal := by
    change p.terminal ++ (if p.tty then [.raw false] else []) ++ [.pause] = _
    rw [h.terminal, h.onTty]
    cases tty <;> rfl
  toneOn := Pacer.toneOn_stop p.pacer p.timeline.moment
  due := by
    have hpending : (p.shutdown code).pacer.pending = [] :=
      Pacer.pending_stop h.adapters h.linked p.timeline.moment
    simp [due, hpending, releases_shutdown h.tidy code]

/-! ### What the terminal shows -/

theorem Shown.held (h : Shown p q) (hp : Held tty p) : Held tty q := by
  have hpacer : q.pacer = p.pacer := congrArg Timeline.pacer h.timeline
  refine ⟨h.untouched.tidy hp.tidy, h.onTty.trans hp.onTty, h.terminal.trans hp.terminal, ?_, ?_⟩
  · rw [hpacer]
    exact hp.adapters
  · rw [hpacer]
    exact hp.linked

/-- What is said of a frame that failed. -/
def lament (p : Player) (error : Failure) (frame? : Option Frame) : Player :=
  (p.write .lineEnd).warn (haltText error frame?)

theorem shown_lament (p : Player) (error : Failure) (frame? : Option Frame) :
    Shown p (p.lament error frame?) :=
  ⟨rfl, rfl, rfl, rfl, rfl, rfl, rfl⟩

theorem handle_fault (h : p.exit? = none) :
    p.handle (.fault error frame? running) = (p.lament error frame?).shutdown 1 := by
  unfold handle
  rw [h]
  rfl

/-- A report ends the player, whatever else was told with it. -/
theorem foldl_handle_of_report (hexit : p.exit? = none)
    (h : events.filterMap Event.report? = [(error, frame?, running)]) :
    ∃ q, Shown p q ∧ events.foldl handle p = q.shutdown 1 ∧
      ∃ front, q.err = front ++ haltText error frame? ++ "\n" := by
  induction events generalizing p with
  | nil => cases h
  | cons e events ih =>
    cases he : e.report? with
    | none =>
      rw [List.filterMap_cons_none he] at h
      have hshown := shown_handle (p := p) he
      obtain ⟨q, hq, hfold, herr⟩ := ih (hshown.exit.trans hexit) h
      exact ⟨q, hshown.trans hq, hfold, herr⟩
    | some report =>
      obtain rfl : e = .fault error frame? running := by
        rw [List.filterMap_cons_some he] at h
        obtain rfl := List.head_eq_of_cons_eq h
        cases e <;> cases he
        rfl
      refine ⟨p.lament error frame?, shown_lament p error frame?, ?_, p.err, rfl⟩
      rw [List.foldl_cons, handle_fault hexit]
      exact foldl_handle_of_ended rfl events

/-! ### Time that passes -/

/-- A player that goes on: no frame has failed, and all reports so far have been dealt with. -/
structure Playing (source : Source) (tty : Bool) (p : Player) : Prop extends Held tty p where
  exit : p.exit? = none
  reports : p.pacer.reports = []
  awake : p.pacer.runner.machine.isHalted = false
  reliable : source.Reliable → p.pacer.runner.source.Reliable

/-- A player that a frame has ended: the last one that ran, which failed. -/
def Broke (source : Source) (p : Player) : Prop :=
  ∃ (r : Runner) (error : Failure) (frame? : Option Frame),
    r.machine.isHalted = false ∧ r.Fails error frame? ∧
    p.pacer.runner = r.frame.2.takeTrace.2 ∧
    (∃ front, p.err = front ++ haltText error frame? ++ "\n") ∧
    (source.Reliable → ∃ e, error = .fault e ∧ p.pacer.runner.machine.run = .halted e)

/-- A player that a frame has ended, with the terminal given back. -/
structure Crashed (source : Source) (tty : Bool) (p : Player) : Prop where
  givenBack : GivenBack tty 1 p
  broke : Broke source p

theorem held_emptied (h : Held tty p) : Held tty p.emptied where
  tidy := (untouched_emptied p).tidy h.tidy
  onTty := h.onTty
  terminal := h.terminal
  adapters := h.adapters
  linked := h.linked

theorem drain_of_report (hexit : p.exit? = none)
    (h : p.pacer.reports = [(error, frame?, running)]) :
    ∃ q, Shown p.emptied q ∧ p.drain = q.shutdown 1 ∧
      ∃ front, q.err = front ++ haltText error frame? ++ "\n" := by
  have hwarned := shown_foldl_warn p.emptied p.pacer.takeEvents.2.runner.takeTrace.1
  obtain ⟨q, hq, hfold, herr⟩ := foldl_handle_of_report (hwarned.exit.trans hexit) h
  exact ⟨q, hwarned.trans hq, hfold, herr⟩

theorem runner_shutdown (p : Player) (code : ℕ) :
    (p.shutdown code).pacer.runner = p.pacer.runner :=
  (Pacer.toggling_runner p.pacer.runner).stop p.timeline.moment rfl

theorem held_fired (h : Playing source tty p) {a : Alarm Float} (ha : a ∈ p.pacer.pending) :
    Held tty (p.fired a) ∧
      (source.Reliable → (p.fired a).pacer.runner.source.Reliable) ∧
      ((p.fired a).pacer.reports = [] ∧ (p.fired a).pacer.runner.machine.isHalted = false ∨
        Pacer.Broken (fun r => source.Reliable → r.source.Reliable) [] (p.fired a).pacer) := by
  let t := { p.timeline with clock := if p.timeline.clock ≤ a.due then a.due else p.timeline.clock }
  have hfire : (p.fired a).pacer = (p.pacer.fire t.moment a).2 := rfl
  have hreliable (r : Runner) (hr : source.Reliable → r.source.Reliable)
      (hs : source.Reliable) : r.frame.2.source.Reliable :=
    Runner.steadfast_frame (r := r) Runner.steadfast_reliable (hr hs)
  have hadapters := (Pacer.abiding_adapters p.pacer.adapters).fire t.moment a rfl
  have hkept := Pacer.runner_fire hreliable t.moment a h.reliable
  obtain ⟨hlinked, hdone⟩ :=
    Pacer.fire_of_quiet hreliable h.adapters h.linked ha h.awake h.reliable t.moment
  rw [h.reports, ← hfire] at hdone
  rw [← hfire] at hadapters hkept hlinked
  refine ⟨⟨(untouched_run p a).tidy h.tidy, h.onTty, h.terminal, ?_, hlinked⟩, hkept, hdone⟩
  rw [hadapters]
  exact h.adapters

theorem runDue_frame (h : Playing source tty p) {a : Alarm Float} (ha : a ∈ p.pacer.pending) :
    Playing source tty (p.runDue (.frame a)) ∨ Crashed source tty (p.runDue (.frame a)) := by
  have hdrain : p.runDue (.frame a) = (p.fired a).drain := rfl
  have hexit : (p.fired a).exit? = none := h.exit
  obtain ⟨hheld, hreliable, ⟨hreports, hawake⟩ | hbroken⟩ := held_fired h ha
  · have hshown := shown_drain hreports
    have hpacer : (p.fired a).drain.pacer = (p.fired a).emptied.pacer :=
      congrArg Timeline.pacer hshown.timeline
    rw [hdrain]
    refine .inl ⟨hshown.held (held_emptied hheld), hshown.exit.trans hexit, ?_, ?_, ?_⟩
    · rw [hpacer]
      rfl
    · rw [hpacer]
      exact hawake
    · rw [hpacer]
      exact hreliable
  · obtain ⟨r, error, frame?, hh, hr, hfails, hrunner, hreports⟩ := hbroken
    obtain ⟨q, hshown, hdown, herr⟩ := drain_of_report hexit hreports
    have hleft : (q.shutdown 1).pacer.runner = r.frame.2.takeTrace.2 := by
      rw [runner_shutdown, ← hrunner]
      exact congrArg (·.pacer.runner) hshown.timeline
    rw [hdrain, hdown]
    have hback := givenBack_shutdown (hshown.held (held_emptied hheld)) 1
    refine .inr ⟨hback, r, error, frame?, hh, hfails, hleft, herr, fun hs => ?_⟩
    rw [hleft]
    exact hfails.halted hh (hr hs)

theorem held_release (h : Held tty p) (hr : r ∈ p.releases) : Held tty (p.release r) where
  tidy := h.tidy.release hr
  onTty := h.onTty
  terminal := h.terminal
  adapters := h.adapters
  linked := h.linked

theorem playing_or_crashed_runDue (h : Playing source tty p) {d : Due} (hd : d ∈ p.due) :
    Playing source tty (p.runDue d) ∨ Crashed source tty (p.runDue d) := by
  cases d with
  | frame a =>
    have ha : a ∈ p.pacer.pending := by simpa [due] using hd
    exact runDue_frame h ha
  | release r =>
    have hr : r ∈ p.releases := by simpa [due] using hd
    exact .inl ⟨held_release h.toHeld hr, h.exit, h.reports, h.awake, h.reliable⟩

theorem playing_or_crashed_advance (h : Playing source tty p) (ms : Float) :
    Playing source tty (p.advance ms) ∨ Crashed source tty (p.advance ms) := by
  -- the clock that is set at the end has nothing to do with it
  rcases runTimers_of (fun q d hq _ hd => playing_or_crashed_runDue hq hd)
    (fun _ hq => hq.givenBack.ended) h (p.timeline.clock + ms) Timeline.limit with hgo | hend
  · have hmoved : Untouched (p.runTimers (p.timeline.clock + ms) Timeline.limit) (p.advance ms) :=
      ⟨rfl, rfl, rfl, Nat.le_refl _, rfl⟩
    exact .inl ⟨⟨hmoved.tidy hgo.tidy, hgo.onTty, hgo.terminal, hgo.adapters, hgo.linked⟩,
      hgo.exit, hgo.reports, hgo.awake, hgo.reliable⟩
  · have hback := hend.givenBack
    exact .inr ⟨⟨hback.exit, hback.said, hback.terminal, hback.toneOn, hback.due⟩, hend.broke⟩

/-! ### Characters -/

theorem Playing.pressKey (h : Playing source tty p) (k : Key) :
    Playing source tty (p.pressKey k) where
  tidy := h.tidy.pressKey k
  onTty := h.onTty
  terminal := h.terminal
  adapters := h.adapters
  linked := h.linked
  exit := h.exit
  reports := h.reports
  awake := h.awake
  reliable := h.reliable

theorem Playing.typeChar (h : Playing source tty p) {c : Char} (hc : isQuit c = false) :
    Playing source tty (p.typeChar c) := by
  cases hk : keyOf? c with
  | some k =>
    rw [typeChar_of_keyOf? hk]
    exact h.pressKey k
  | none =>
    rw [typeChar_of_other hc hk]
    exact h

/-- A character that ends the player is the last that it takes, however many follow: no frame runs
any more, and no key is pressed or let go of. -/
def Quits (cs : List Char) (p q : Player) : Prop :=
  ∃ before c after, cs = before ++ c :: after ∧ (∀ d ∈ before, isQuit d = false) ∧
    isQuit c = true ∧ (p.type before).exit? = none ∧
    (p.type before).pacer.runner.machine.isHalted = false ∧
    q = (p.type before).shutdown 0 ∧ q.pacer.runner = (p.type before).pacer.runner

theorem playing_or_quits_type (h : Playing source tty p) (cs : List Char) :
    Playing source tty (p.type cs) ∨ GivenBack tty 0 (p.type cs) ∧ Quits cs p (p.type cs) := by
  induction cs generalizing p with
  | nil => exact .inl h
  | cons c cs ih =>
    rw [type_cons h.exit]
    cases hc : isQuit c with
    | false =>
      rcases ih (h.typeChar hc) with hgo | ⟨hback, before, d, after, rfl, hnot, hd, hends⟩
      · exact .inl hgo
      · refine .inr ⟨hback, c :: before, d, after, rfl, List.forall_mem_cons.mpr ⟨hc, hnot⟩, hd, ?_⟩
        rwa [type_cons h.exit]
    | true =>
      have hdown : p.typeChar c = p.shutdown 0 := if_pos hc
      rw [hdown, type_of_ended rfl]
      exact .inr ⟨givenBack_shutdown h.toHeld 0, [], c, cs, rfl, by simp, hc, h.exit, h.awake, rfl,
        runner_shutdown p 0⟩

/-! ### Whole runs -/

/-- What ends a player: a character among those that are typed, or a frame that fails. -/
def Ends (source : Source) (p : Player) : Input → ℕ → Player → Prop
  | .typed text, code, q => code = 0 ∧ Quits text.toList p q
  | .advance _, code, q => code = 1 ∧ Broke source q

theorem playing_or_ends_step (h : Playing source tty p) (e : Input) :
    Playing source tty (p.step e) ∨
      ∃ code, GivenBack tty code (p.step e) ∧ Ends source p e code (p.step e) := by
  cases e with
  | advance ms =>
    rw [step_advance h.exit]
    rcases playing_or_crashed_advance h ms with hgo | hend
    · exact .inl hgo
    · exact .inr ⟨1, hend.givenBack, rfl, hend.broke⟩
  | typed text =>
    rw [step_typed h.exit]
    rcases playing_or_quits_type h text.toList with hgo | ⟨hback, hquits⟩
    · exact .inl hgo
    · exact .inr ⟨0, hback, rfl, hquits⟩

/-- A player that has ended did so at one of its inputs, and what came later changed nothing. -/
theorem ends_of_stepAll (h : Playing source tty p) {es : List Input}
    (hexit : (p.stepAll es).exit? = some code) :
    GivenBack tty code (p.stepAll es) ∧
      ∃ before e after, es = before ++ e :: after ∧ Playing source tty (p.stepAll before) ∧
        Ends source (p.stepAll before) e code (p.stepAll es) := by
  induction es generalizing p with
  | nil => cases h.exit.symm.trans hexit
  | cons e es ih =>
    have hrest : p.stepAll (e :: es) = (p.step e).stepAll es := rfl
    rw [hrest] at hexit ⊢
    rcases playing_or_ends_step h e with hgo | ⟨code', hback, hends⟩
    · obtain ⟨hback, before, e', after, rfl, hbefore, hends⟩ := ih hgo hexit
      exact ⟨hback, e :: before, e', after, rfl, hbefore, hends⟩
    · have hstays := stepAll_of_ended hback.ended es
      rw [hstays] at hexit ⊢
      obtain rfl : code' = code := Option.some.inj (hback.exit.symm.trans hexit)
      exact ⟨hback, [], e, es, rfl, h, hends⟩

theorem playing_start {req : Request} (h : (start req source tty).exit? = none) :
    Playing source tty (start req source tty) := by
  have htidy := (holding_start h).tidy
  unfold start at h htidy ⊢
  split
  case h_1 hpath =>
    rw [hpath] at h
    cases h
  case h_2 path hpath =>
    rw [hpath] at h htidy
    dsimp only at h htidy ⊢
    split
    case h_1 failure hload =>
      rw [hload] at h
      cases h
    case h_2 c hload =>
      rw [hload] at htidy
      refine ⟨⟨htidy, rfl, rfl, Adapters.quiet_silent, ?_⟩, rfl, rfl, rfl, id⟩
      intro a ha
      obtain rfl := List.mem_singleton.mp ha
      rfl

theorem out_start {req : Request} (h : (start req source tty).exit? = some code) :
    (start req source tty).out = #[] := by
  unfold start at h ⊢
  split
  case h_1 => rfl
  case h_2 path hpath =>
    rw [hpath] at h
    dsimp only at h ⊢
    split
    case h_1 => rfl
    case h_2 c hload =>
      rw [hload] at h
      cases h

/-- A player that has hidden the cursor and has ended has shown it again, is out of raw mode, reads no
more, and has no tone on and no timer left. It ended with the last thing that it did: with 0 at a
character, or with 1 in a frame that failed, which is a fault of the machine unless it ran out of
random numbers. -/
theorem terminal_given_back (req : Request) (source : Source) (tty : Bool) (es : List Input)
    (code : ℕ)
    (hhides : Writing.hideCursorText.toList <:+:
      ((start req source tty).stepAll es).said.toList)
    (hexit : ((start req source tty).stepAll es).exit? = some code) :
    let p := (start req source tty).stepAll es
    (∀ x y, p.said.toList = x ++ Writing.hideCursorText.toList ++ y →
      ∃ z, y = z ++ Writing.showCursorText.toList) ∧
    p.terminal = (if tty then [.raw true, .raw false, .pause] else [.pause]) ∧
    p.pacer.toneOn = false ∧ p.due = [] ∧
    ∃ before e after, es = before ++ e :: after ∧
      ((start req source tty).stepAll before).exit? = none ∧
      Ends source ((start req source tty).stepAll before) e code p := by
  intro p
  have hstart : (start req source tty).exit? = none := by
    by_contra hended
    obtain ⟨early, hearly⟩ := Option.ne_none_iff_exists'.mp hended
    have hstays : p = start req source tty := stepAll_of_ended (by rw [hearly]; rfl) es
    have hsilent : p.said = "" := by simp [said, takeOutput, hstays, out_start hearly]
    change _ <:+: p.said.toList at hhides
    rw [hsilent] at hhides
    exact absurd (List.infix_nil.mp hhides) (by decide)
  obtain ⟨hback, before, e, after, hes, hplaying, hends⟩ :=
    ends_of_stepAll (playing_start hstart) hexit
  refine ⟨?_, hback.terminal, hback.toneOn, hback.due, before, e, after, hes, hplaying.exit, hends⟩
  intro x y hsaid
  obtain ⟨front, hfront⟩ := hback.said
  have hmark : Writing.hideCursorText.toList = "\x1b[?25".toList ++ ['l'] := rfl
  rw [hmark, hfront, String.toList_append] at hsaid
  exact Writing.exists_tail hsaid.symm (by decide)

/-- A key, the end, and a key that comes too late. -/
def quitting : List Input :=
  [.typed "q\x03w"]

theorem terminal_given_back_quitting :
    let p := (start looping (.seeded 0) true).stepAll quitting
    Writing.hideCursorText.toList <:+: p.said.toList ∧ p.exit? = some 0 ∧
      p.terminal = [.raw true, .raw false, .pause] ∧ p.due = [] ∧
      p.keypad = Keypad.initial.press 4 := by
  intro p
  have hhides : Writing.hideCursorText.toList <:+: p.said.toList := by
    obtain ⟨c, budget, hout⟩ : ∃ c budget, p.out = #[.greeting c budget, .showCursor] :=
      ⟨_, _, rfl⟩
    have hsaid : p.said = "\x1b[2J" ++ (Writing.hideCursorText ++ ("[run] " ++ c.name ++ " "
        ++ toString c.image.size ++ " bytes at " ++ toString budget ++ " ipf\n"
        ++ Writing.showCursorText)) := by
      simp [said, takeOutput, hout, Writing.text, String.append_assoc]
    rw [hsaid, String.toList_append, String.toList_append]
    exact List.infix_append' _ _ _
  have h := terminal_given_back looping (.seeded 0) true quitting 0 hhides rfl
  exact ⟨hhides, rfl, h.2.1, h.2.2.2.1, rfl⟩

end Player

end Chip8.Command
