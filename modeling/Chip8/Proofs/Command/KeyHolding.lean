import Chip8.Proofs.Command.Ticking

/-! How long a player holds a key down. -/
namespace Chip8.Command

namespace Player

variable {p q : Player} {r : Release} {k : Key} {c : Char}

/-! Characters. -/

theorem isQuit_of_keyOf? (h : keyOf? c = some k) : isQuit c = false := by
  by_contra hquit
  have hc : c = '\x03' ∨ c = '\x1b' := by simpa [isQuit, or_iff_not_imp_left] using hquit
  rcases hc with rfl | rfl <;> cases h

theorem typeChar_of_keyOf? (h : keyOf? c = some k) : p.typeChar c = p.pressKey k := by
  unfold typeChar
  rw [if_neg (Bool.eq_false_iff.mp (isQuit_of_keyOf? h)), h]

theorem typeChar_of_other (hquit : isQuit c = false) (h : keyOf? c = none) : p.typeChar c = p := by
  unfold typeChar
  rw [if_neg (Bool.eq_false_iff.mp hquit), h]

theorem type_of_ended (h : p.exit?.isSome = true) (cs : List Char) : p.type cs = p := by
  cases cs with
  | nil => rfl
  | cons c cs => exact if_pos h

theorem type_cons (h : p.exit? = none) (c : Char) (cs : List Char) :
    p.type (c :: cs) = (p.typeChar c).type cs := by
  simp [type, h]

/-- Characters have been typed. A key among them waits for a new timer, and any other key for the
timer that it waited for. -/
structure Struck (cs : List Char) (p q : Player) : Prop where
  tidy : Tidy q
  releases : ∀ r ∈ q.releases,
    (∃ c ∈ cs, keyOf? c = some r.key) ∧ r.alarm.due = p.timeline.clock + p.holdMs ∨
    (∀ c ∈ cs, keyOf? c ≠ some r.key) ∧ r ∈ p.releases
  holdMs : q.holdMs = p.holdMs
  clock : q.timeline.clock = p.timeline.clock

theorem Struck.cons_other {cs : List Char} (h : Struck cs p q) (hc : keyOf? c = none) :
    Struck (c :: cs) p q where
  tidy := h.tidy
  releases := by
    intro r hr
    rcases h.releases r hr with ⟨⟨d, hd, hkey⟩, hdue⟩ | ⟨hnone, hmem⟩
    · exact .inl ⟨⟨d, List.mem_cons_of_mem c hd, hkey⟩, hdue⟩
    · exact .inr ⟨List.forall_mem_cons.mpr ⟨by simp [hc], hnone⟩, hmem⟩
  holdMs := h.holdMs
  clock := h.clock

theorem struck_pressKey {cs : List Char} (hp : Tidy p) (hk : keyOf? c = some k)
    (h : Struck cs (p.pressKey k) q) : Struck (c :: cs) p q where
  tidy := h.tidy
  releases := by
    intro r hr
    rcases h.releases r hr with ⟨⟨d, hd, hkey⟩, hdue⟩ | ⟨hnone, hmem⟩
    · exact .inl ⟨⟨d, List.mem_cons_of_mem c hd, hkey⟩, hdue⟩
    · rw [releases_pressKey, List.mem_append, List.mem_singleton] at hmem
      rcases hmem with hmem | rfl
      · refine .inr ⟨List.forall_mem_cons.mpr ⟨?_, hnone⟩, (mem_cancel.mp hmem).1⟩
        rw [hk]
        exact fun hkey => hp.ne_of_mem_cancel hmem (Option.some.inj hkey).symm
      · exact .inl ⟨⟨c, List.mem_cons_self, hk⟩, rfl⟩
  holdMs := h.holdMs
  clock := h.clock

theorem struck_type {cs : List Char} (hp : Tidy p) (h : (p.type cs).exit? = none) :
    Struck cs p (p.type cs) := by
  induction cs generalizing p with
  | nil => exact ⟨hp, fun r hr => .inr ⟨by simp, hr⟩, rfl, rfl⟩
  | cons c cs ih =>
    have hexit : p.exit? = none := exit?_eq_none_of (fun hended => type_of_ended hended (c :: cs)) h
    rw [type_cons hexit] at h ⊢
    -- a character that ends the program would have ended it for the rest too
    have hquit : isQuit c = false := by
      by_contra hquit
      have hdown : p.typeChar c = p.shutdown 0 := if_pos (by simpa using hquit)
      rw [hdown, type_of_ended rfl] at h
      cases h
    cases hk : keyOf? c with
    | some k =>
      rw [typeChar_of_keyOf? hk] at h ⊢
      exact struck_pressKey hp hk (ih (hp.pressKey k) h)
    | none =>
      rw [typeChar_of_other hquit hk] at h ⊢
      exact (ih hp h).cons_other hk

end Player

/-! What has reached a player. -/

/-- The time after an input that came at a time. -/
def Input.after (t : Float) : Input → Float
  | .advance ms => t + ms
  | .typed _ => t

/-- A character of a key is typed. -/
def Input.Types (k : Key) : Input → Prop
  | .advance _ => False
  | .typed text => ∃ c ∈ text.toList, Player.keyOf? c = some k

/-- How long a player runs. -/
def elapsed (es : List Input) : Float :=
  es.foldl Input.after 0

/-- The last character of a key came at a time. -/
def LastTyped (k : Key) (es : List Input) (t : Float) : Prop :=
  ∃ before e after, es = before ++ e :: after ∧ e.Types k ∧ (∀ e ∈ after, ¬ e.Types k) ∧
    elapsed before = t

theorem elapsed_concat (es : List Input) (e : Input) :
    elapsed (es ++ [e]) = e.after (elapsed es) := by
  simp [elapsed]

theorem lastTyped_concat {k : Key} {e : Input} (es : List Input) (h : e.Types k) :
    LastTyped k (es ++ [e]) (elapsed es) :=
  ⟨es, e, [], rfl, h, by simp, rfl⟩

theorem LastTyped.concat {k : Key} {es : List Input} {e : Input} {t : Float}
    (h : LastTyped k es t) (he : ¬ e.Types k) : LastTyped k (es ++ [e]) t := by
  obtain ⟨before, e', after, rfl, htypes, hnot, ht⟩ := h
  refine ⟨before, e', after ++ [e], by simp, htypes, ?_, ht⟩
  simpa [or_imp, forall_and] using ⟨hnot, he⟩

/-- There is one time at most at which a key was typed last. -/
theorem LastTyped.unique {k : Key} {es : List Input} {t t' : Float} (h : LastTyped k es t)
    (h' : LastTyped k es t') : t = t' := by
  obtain ⟨before, e, after, rfl, htypes, hnot, rfl⟩ := h
  obtain ⟨before', e', after', heq, htypes', hnot', rfl⟩ := h'
  rcases List.append_eq_append_iff.mp heq with ⟨between, rfl, hafter⟩ | ⟨between, rfl, hafter⟩
  · cases between with
    | nil => rw [List.append_nil]
    | cons x between =>
      obtain ⟨-, rfl⟩ := List.cons_eq_cons.mp hafter
      exact absurd htypes' (hnot e' (by simp))
  · cases between with
    | nil => rw [List.append_nil]
    | cons x between =>
      obtain ⟨-, rfl⟩ := List.cons_eq_cons.mp hafter
      exact absurd htypes (hnot' e (by simp))

namespace Player

variable {p q : Player} {k : Key} {c : Char} {es : List Input} {e : Input} {w : Float}

def stepAll (p : Player) (es : List Input) : Player :=
  es.foldl step p

/-- The pending timers of a key. -/
def releasesOf (p : Player) (k : Key) : List Release :=
  p.releases.filter (·.key == k)

/-- Every pending timer is due a while after its key was typed for the last time. -/
structure Holding (es : List Input) (w : Float) (p : Player) : Prop where
  tidy : Tidy p
  clock : p.timeline.clock = elapsed es
  holdMs : p.holdMs = w
  last : ∀ r ∈ p.releases, ∃ t, LastTyped r.key es t ∧ r.alarm.due = t + w

theorem holding_start {q : Request} {source : Source} {tty : Bool}
    (h : (start q source tty).exit? = none) :
    Holding [] (Number.ofArgument (q.args.flag "holdMs") standardHoldMs 16 2000)
      (start q source tty) := by
  unfold start at h ⊢
  split
  case h_1 hpath =>
    rw [hpath] at h
    cases h
  case h_2 path hpath =>
    rw [hpath] at h
    dsimp only at h ⊢
    split
    case h_1 failure hload =>
      rw [hload] at h
      cases h
    case h_2 c hload =>
      have hnothing (k : Key) : (Vector.replicate 16 (none : Option ℕ)).get k = none :=
        Vector.getElem_replicate _
      refine ⟨⟨by simp, ?_, by simp, by simp, ?_⟩, rfl, rfl, by simp⟩
      · intro k id hid
        cases (hnothing k).symm.trans hid
      · intro k
        have hup : Keypad.initial.isDown k = false := by simp [Keypad.isDown, Keypad.initial]
        exact hup.trans (congrArg Option.isSome (hnothing k)).symm

theorem step_of_ended (h : p.exit?.isSome = true) (e : Input) : p.step e = p :=
  if_pos h

theorem step_advance (h : p.exit? = none) (ms : Float) : p.step (.advance ms) = p.advance ms :=
  if_neg (by simp [h])

theorem step_typed (h : p.exit? = none) (text : String) :
    p.step (.typed text) = p.type text.toList :=
  if_neg (by simp [h])

theorem Holding.step (hp : Holding es w p) (h : (p.step e).exit? = none) :
    Holding (es ++ [e]) w (p.step e) := by
  have hexit : p.exit? = none := exit?_eq_none_of (fun hended => step_of_ended hended e) h
  cases e with
  | advance ms =>
    rw [step_advance hexit] at h ⊢
    have hpassed := passed_advance hp.tidy h
    refine ⟨hpassed.tidy, ?_, hpassed.holdMs.trans hp.holdMs, ?_⟩
    · rw [elapsed_concat, ← hp.clock]
      rfl
    · intro r hr
      obtain ⟨t, ht, hdue⟩ := hp.last r (hpassed.releases hr)
      exact ⟨t, ht.concat id, hdue⟩
  | typed text =>
    rw [step_typed hexit] at h ⊢
    have hstruck := struck_type hp.tidy h
    refine ⟨hstruck.tidy, ?_, hstruck.holdMs.trans hp.holdMs, ?_⟩
    · rw [elapsed_concat, hstruck.clock, hp.clock]
      rfl
    · intro r hr
      rcases hstruck.releases r hr with ⟨htyped, hdue⟩ | ⟨hnot, hmem⟩
      · refine ⟨elapsed es, lastTyped_concat es htyped, ?_⟩
        rw [hdue, hp.clock, hp.holdMs]
      · obtain ⟨t, ht, hdue⟩ := hp.last r hmem
        exact ⟨t, ht.concat fun ⟨c, hc, hkey⟩ => hnot c hc hkey, hdue⟩

theorem stepAll_of_ended (h : p.exit?.isSome = true) (es : List Input) : p.stepAll es = p := by
  induction es with
  | nil => rfl
  | cons e es ih =>
    have hstep : p.stepAll (e :: es) = (p.step e).stepAll es := rfl
    rw [hstep, step_of_ended h e]
    exact ih

theorem holding_stepAll (hp : Holding [] w p) (h : (p.stepAll es).exit? = none) :
    Holding es w (p.stepAll es) := by
  induction es using List.reverseRecOn with
  | nil => exact hp
  | append_singleton es e ih =>
    have hlast : p.stepAll (es ++ [e]) = (p.stepAll es).step e := by simp [stepAll]
    rw [hlast] at h ⊢
    exact (ih (exit?_eq_none_of (fun hended => step_of_ended hended e) h)).step h

theorem Holding.releasesOf_eq (hp : Holding es w p) (hk : p.keypad.isDown k = true) :
    ∃ r t, p.releasesOf k = [r] ∧ LastTyped k es t ∧ r.alarm.due = t + w := by
  obtain ⟨r, hr, rfl⟩ := hp.tidy.exists_of_isDown hk
  obtain ⟨t, ht, hdue⟩ := hp.last r hr
  exact ⟨r, t, hp.tidy.filter_eq_singleton hr, ht, hdue⟩

theorem Tidy.releasesOf_eq_nil (hp : Tidy p) (hk : p.keypad.isDown k = false) :
    p.releasesOf k = [] := by
  refine List.filter_eq_nil_iff.mpr fun r hr hkey => ?_
  have hdown := hp.isDown_of_mem hr
  rw [eq_of_beq hkey, hk] at hdown
  cases hdown

/-- A key that is typed again while it is down goes into the latch no more. -/
theorem typeChar_of_isDown (hp : Tidy p) (hkey : keyOf? c = some k)
    (hk : p.keypad.isDown k = true) :
    (p.typeChar c).keypad = p.keypad ∧ (p.typeChar c).releasesOf k = [p.hold k] := by
  rw [typeChar_of_keyOf? hkey]
  refine ⟨Keypad.press_of_isDown hk, ?_⟩
  have hmem : p.hold k ∈ (p.pressKey k).releases := by
    rw [releases_pressKey]
    exact List.mem_append_right _ (List.mem_singleton_self _)
  exact (hp.pressKey k).filter_eq_singleton hmem

/-- A key is down exactly while it waits for a single timer, which is due a while after the last
character of the key came, and it waits for none otherwise. A character of a key that is down, at
any place in what is typed next, puts the timer off and is no new press. -/
theorem keys_held (q : Request) (source : Source) (tty : Bool) (es : List Input)
    (h : ((start q source tty).stepAll es).exit? = none) (k : Key) :
    let p := (start q source tty).stepAll es
    let w := Number.ofArgument (q.args.flag "holdMs") standardHoldMs 16 2000
    (p.keypad.isDown k = true ↔
      ∃ r t, p.releasesOf k = [r] ∧ LastTyped k es t ∧ r.alarm.due = t + w) ∧
    (p.keypad.isDown k = false → p.releasesOf k = []) ∧
    ∀ cs c, (p.type cs).exit? = none → (p.type cs).keypad.isDown k = true → keyOf? c = some k →
      ((p.type cs).typeChar c).keypad = (p.type cs).keypad ∧
      ∃ r, ((p.type cs).typeChar c).releasesOf k = [r] ∧ r.alarm.due = elapsed es + w := by
  intro p w
  have hstart : (start q source tty).exit? = none :=
    exit?_eq_none_of (fun hended => stepAll_of_ended hended es) h
  have hp : Holding es w p := holding_stepAll (holding_start hstart) h
  refine ⟨⟨hp.releasesOf_eq, ?_⟩, hp.tidy.releasesOf_eq_nil, ?_⟩
  · rintro ⟨r, t, hr, _, _⟩
    have hmem : r ∈ p.releasesOf k := hr ▸ List.mem_singleton_self r
    obtain ⟨hmem, hkey⟩ := List.mem_filter.mp hmem
    exact eq_of_beq hkey ▸ hp.tidy.isDown_of_mem hmem
  · intro cs c hexit hk hkey
    have hstruck := struck_type hp.tidy hexit
    obtain ⟨hkeypad, hreleases⟩ := typeChar_of_isDown hstruck.tidy hkey hk
    refine ⟨hkeypad, _, hreleases, ?_⟩
    rw [hold, hstruck.clock, hstruck.holdMs, hp.clock, hp.holdMs]

/-- An image at every path. -/
def looping : Request where
  args := ⟨[("rom", "a")], []⟩
  env := fun _ => none
  directory := "/"
  files := fun _ => some #[0x12, 0x00]

/-- The same with one step a frame, and with keys that are held for as short a time as can be. -/
def fleeting : Request :=
  { looping with args := ⟨[("rom", "a"), ("ipf", "1"), ("holdMs", "16")], []⟩ }

/-- Two keys are typed. After a frame the second of them is typed again, and when the first is let go
of, the second is not. -/
def typing : List Input :=
  [.typed "q1", .advance 10, .typed "1", .advance 6]

/-- The player when the first two keys have been typed. -/
def typed : Player :=
  (start fleeting (.seeded 0) true).type ['q', '1']

theorem advance_typed : Untouched typed (typed.advance 10) ∧
    ∃ id, Ticking (0 + 10) (0 + 0 + Pacer.frameMs) typed.pacer.runner.frame.2.takeTrace.2
      ⟨id, dueIn (dueIn 0 0) (0 + 0 + Pacer.frameMs - (dueIn 0 0 + 0))⟩ (typed.advance 10) := by
  have hjump : typed.pacer.runner.machine.Reads (.jump 0x200) :=
    Machine.reads_of_image rfl rfl (show 0x200 < 4096 by decide) (by decide)
  have hbudget : typed.pacer.runner.budget = some 1 := by decide +kernel
  obtain ⟨f, hf, -, -, -, hfault, -, -⟩ := Runner.frame_of_completed hbudget rfl hjump rfl rfl
  have hstart : Ticking 0 (0 + 0) typed.pacer.runner ⟨0, dueIn 0 0⟩ typed :=
    ⟨rfl, Adapters.quiet_silent, rfl, rfl, rfl, rfl, rfl, rfl, rfl, rfl, rfl, rfl⟩
  have hheld : ∀ r ∈ typed.releases, ¬ r.alarm.due ≤ 0 + 10 := by
    have hreleases : typed.releases = [⟨4, 1, 0 + 16⟩, ⟨1, 2, 0 + 16⟩] := rfl
    rw [hreleases, List.forall_mem_cons, List.forall_mem_singleton]
    exact ⟨by decide +kernel, by decide +kernel⟩
  exact hstart.advance hf hfault (by decide +kernel) (by decide +kernel) (by decide +kernel)
    (by decide +kernel) (by decide +kernel) hheld

/-- The second key is put off then, so that the first is let go of alone. -/
theorem advance_pressKey {nextAt : Float} {r : Runner} {id : ℕ} (hkeys : Untouched typed p)
    (hnext : Ticking (0 + 10) nextAt r
      ⟨id, dueIn (dueIn 0 0) (0 + 0 + Pacer.frameMs - (dueIn 0 0 + 0))⟩ p) :
    ((p.pressKey 1).advance 6).exit? = none ∧
      ((p.pressKey 1).advance 6).keypad = (p.keypad.press 1).release 4 := by
  have hreleases : (p.pressKey 1).releases = [⟨4, 1, 0 + 16⟩, p.hold 1] := by
    have hnoted : p.noted 1 = some 2 := congrArg (·[1]) hkeys.timers
    have hbefore : p.releases = [⟨4, 1, 0 + 16⟩, ⟨1, 2, 0 + 16⟩] := hkeys.releases
    rw [releases_pressKey, hnoted, hbefore]
    rfl
  have hclock : (p.pressKey 1).timeline.clock = 0 + 10 := hnext.clock
  have hpending : (p.pressKey 1).pacer.pending =
      [⟨id, dueIn (dueIn 0 0) (0 + 0 + Pacer.frameMs - (dueIn 0 0 + 0))⟩] := hnext.pending
  have hnow : (0 : Float) + 16 ≤ (p.pressKey 1).timeline.clock + 6 := by
    rw [hclock]
    decide +kernel
  have hlater : ∀ a ∈ (p.pressKey 1).pacer.pending, ¬ a.due ≤ (p.pressKey 1).timeline.clock + 6 := by
    rw [hclock, hpending, List.forall_mem_singleton]
    change ¬ dueIn (dueIn 0 0) (0 + 0 + Pacer.frameMs - (dueIn 0 0 + 0)) ≤ 0 + 10 + 6
    decide +kernel
  have hheld : ∀ r ∈ [p.hold 1], ¬ r.alarm.due ≤ (p.pressKey 1).timeline.clock + 6 := by
    have hholdMs : p.holdMs = typed.holdMs := hkeys.holdMs
    rw [hclock, List.forall_mem_singleton, hold, hnext.clock, hholdMs]
    change ¬ 0 + 10 + typed.holdMs ≤ 0 + 10 + 6
    decide +kernel
  obtain ⟨hexit, hkeypad⟩ :=
    advance_release (p := p.pressKey 1) 6 hnext.exit hreleases hnow hlater hheld
  rw [hkeypad, keypad_pressKey]
  exact ⟨hexit, rfl⟩

theorem exit?_pressKey (p : Player) (k : Key) : (p.pressKey k).exit? = p.exit? :=
  rfl

theorem step_typed_one (h : p.exit? = none) : p.step (.typed "1") = p.pressKey 1 := by
  have hchars : "1".toList = ['1'] := rfl
  rw [step_typed h, hchars, type_cons h]
  rfl

theorem stepAll_typing : (start fleeting (.seeded 0) true).stepAll typing =
    ((typed.advance 10).pressKey 1).advance 6 := by
  obtain ⟨-, id, hnext⟩ := advance_typed
  have hstart : (start fleeting (.seeded 0) true).exit? = none := rfl
  have hexit : typed.exit? = none := rfl
  have hfirst : (start fleeting (.seeded 0) true).step (.typed "q1") = typed := by
    have hchars : "q1".toList = ['q', '1'] := rfl
    rw [step_typed hstart, hchars, typed]
  have hpressed : ((typed.advance 10).pressKey 1).exit? = none := by
    rw [exit?_pressKey]
    exact hnext.exit
  rw [typing, stepAll, List.foldl_cons, List.foldl_cons, List.foldl_cons, List.foldl_cons,
    List.foldl_nil, hfirst, step_advance hexit, step_typed_one hnext.exit, step_advance hpressed]

theorem keys_held_typing :
    let p := (start fleeting (.seeded 0) true).stepAll typing
    let w := Number.ofArgument (some "16") standardHoldMs 16 2000
    p.exit? = none ∧ typed.keypad.isDown 4 = true ∧ p.keypad.isDown 4 = false ∧
      p.releasesOf 4 = [] ∧ p.keypad.isDown 1 = true ∧
      (∃ r, p.releasesOf 1 = [r] ∧ r.alarm.due = elapsed [.typed "q1", .advance 10] + w) ∧
      (p.typeChar '1').keypad = p.keypad := by
  obtain ⟨hkeys, id, hnext⟩ := advance_typed
  obtain ⟨hexit, hkeypad⟩ := advance_pressKey hkeys hnext
  rw [← stepAll_typing] at hexit hkeypad
  have hdown : ((start fleeting (.seeded 0) true).stepAll typing).keypad.isDown 1 = true := by
    simp [hkeypad]
  have hup : ((start fleeting (.seeded 0) true).stepAll typing).keypad.isDown 4 = false := by
    simp [hkeypad]
  have hbefore : typed.keypad.isDown 4 = true := by
    have hkeypad : typed.keypad = (Keypad.initial.press 4).press 1 := rfl
    rw [hkeypad]
    decide
  have hflag : fleeting.args.flag "holdMs" = some "16" := by decide
  obtain ⟨hiff, _, htype⟩ := keys_held fleeting (.seeded 0) true typing hexit 1
  rw [hflag] at hiff
  obtain ⟨_, hnone, _⟩ := keys_held fleeting (.seeded 0) true typing hexit 4
  obtain ⟨hagain, _⟩ := htype [] '1' hexit hdown rfl
  have htyped : LastTyped 1 typing (elapsed [.typed "q1", .advance 10]) :=
    ⟨_, .typed "1", [.advance 6], rfl, ⟨'1', by simp, rfl⟩, by simp [Input.Types], rfl⟩
  obtain ⟨r, t, hr, ht, hdue⟩ := hiff.mp hdown
  rw [ht.unique htyped] at hdue
  exact ⟨hexit, hbefore, hup, hnone hup, hdown, ⟨r, hr, hdue⟩, hagain⟩

end Player

end Chip8.Command
