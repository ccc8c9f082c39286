import Chip8.Proofs.Keypad.History
import Chip8.Proofs.Keypad.Latch
import Chip8.Proofs.Machine.Faults

/-! Waiting for a key: what ends the wait, told by what happened since it began. -/
namespace Chip8

namespace Machine

/-- What may happen to a machine while a program waits for a key. -/
inductive Input where
  | key (x : Float) (down : Bool)
  | releaseAll
  | tick
  | step

def feed (p : Machine × Source) : Input → Machine × Source
  | .key x down =>
    match p.1.setKey x down with
    | .ok m => (m, p.2)
    | .error _ => p
  | .releaseAll => ({ p.1 with keypad := p.1.keypad.releaseAll }, p.2)
  | .tick => (p.1.tick, p.2)
  | .step => ((p.1.step p.2).machine, (p.1.step p.2).source)

def feedAll (p : Machine × Source) (es : List Input) : Machine × Source :=
  es.foldl feed p

theorem feedAll_concat (p : Machine × Source) (es : List Input) (e : Input) :
    feedAll p (es ++ [e]) = feed (feedAll p es) e := by
  simp [feedAll]

def Input.Presses (k : Key) (e : Input) : Prop :=
  ∃ x, Keypad.key? x = .ok k ∧ e = .key x true

def Input.Releases (k : Key) (e : Input) : Prop :=
  e = .releaseAll ∨ ∃ x, Keypad.key? x = .ok k ∧ e = .key x false

/-- The key is down after the inputs, if those of `held` were before: the last of them that was
about it pressed it. -/
def Down (held : Key → Bool) (es : List Input) (k : Key) : Prop :=
  Since (fun _ e => e.Presses k) (fun e => ¬ e.Releases k) es ∨
    held k = true ∧ ∀ e ∈ es, ¬ e.Releases k

/-- The key went down when it was up, and not all keys were released since. -/
def Rose (held : Key → Bool) (es : List Input) (k : Key) : Prop :=
  Since (fun before e => e.Presses k ∧ ¬ Down held before k) (· ≠ .releaseAll) es

variable {m q : Machine} {s : Source} {held : Key → Bool} {es : List Input} {e : Input} {k : Key}

theorem down_nil : Down held [] k ↔ held k = true := by
  simp [Down, not_since_nil]

theorem down_concat : Down held (es ++ [e]) k ↔ e.Presses k ∨ Down held es k ∧ ¬ e.Releases k := by
  simp only [Down, since_concat, List.forall_mem_append, List.forall_mem_singleton]
  tauto

theorem rose_concat :
    Rose held (es ++ [e]) k ↔
      e.Presses k ∧ ¬ Down held es k ∨ Rose held es k ∧ e ≠ .releaseAll :=
  since_concat

namespace Input

variable {x : Float} {on : Bool}

@[simp] theorem presses_key : (key x on).Presses k ↔ Keypad.key? x = .ok k ∧ on = true := by
  constructor
  · rintro ⟨y, hy, he⟩
    obtain ⟨rfl, rfl⟩ : x = y ∧ on = true := by simpa using he
    exact ⟨hy, rfl⟩
  · rintro ⟨hx, rfl⟩
    exact ⟨x, hx, rfl⟩

@[simp] theorem releases_key : (key x on).Releases k ↔ Keypad.key? x = .ok k ∧ on = false := by
  constructor
  · rintro (he | ⟨y, hy, he⟩)
    · cases he
    · obtain ⟨rfl, rfl⟩ : x = y ∧ on = false := by simpa using he
      exact ⟨hy, rfl⟩
  · rintro ⟨hx, rfl⟩
    exact .inr ⟨x, hx, rfl⟩

@[simp] theorem not_presses_releaseAll : ¬ releaseAll.Presses k := by
  rintro ⟨_, _, he⟩
  cases he

@[simp] theorem releases_releaseAll : releaseAll.Releases k :=
  .inl rfl

/-- The input leaves all keys as they are. -/
def Idle (e : Input) : Prop :=
  ∀ k, ¬ e.Presses k ∧ ¬ e.Releases k

theorem idle_tick : tick.Idle := by
  intro k
  constructor
  · rintro ⟨_, _, he⟩
    cases he
  · rintro (he | ⟨_, _, he⟩) <;> cases he

theorem idle_step : step.Idle := by
  intro k
  constructor
  · rintro ⟨_, _, he⟩
    cases he
  · rintro (he | ⟨_, _, he⟩) <;> cases he

theorem idle_key {f : Fault} (hx : Keypad.key? x = .error f) : (key x on).Idle := by
  intro k
  simp [hx]

theorem Idle.ne_releaseAll (h : e.Idle) : e ≠ .releaseAll := by
  rintro rfl
  exact (h 0).2 releases_releaseAll

end Input

/-- The two sets of keys of a keypad follow from the inputs since the latch was cleared. -/
structure Tracks (held : Key → Bool) (es : List Input) (p : Keypad) : Prop where
  down_iff : ∀ k, p.isDown k = true ↔ Down held es k
  latched_iff : ∀ k, p.Latched k ↔ Rose held es k

variable {p : Keypad} {x : Float} {j : Key}

theorem tracks_nil (h : ∀ k, ¬ p.Latched k) : Tracks p.isDown [] p := by
  refine ⟨fun k => down_nil.symm, fun k => ?_⟩
  simp [h k, Rose, not_since_nil]

theorem Tracks.idle (h : Tracks held es p) (he : e.Idle) : Tracks held (es ++ [e]) p := by
  refine ⟨fun k => ?_, fun k => ?_⟩
  · simp [down_concat, he k, h.down_iff]
  · simp [rose_concat, he k, he.ne_releaseAll, h.latched_iff]

theorem Tracks.press (h : Tracks held es p) (hx : Keypad.key? x = .ok j) :
    Tracks held (es ++ [.key x true]) (p.press j) := by
  refine ⟨fun k => ?_, fun k => ?_⟩
  · rw [Keypad.isDown_press, down_concat, ← h.down_iff]
    simp only [Input.presses_key, Input.releases_key, hx, Except.ok.injEq, Bool.or_eq_true,
      beq_iff_eq, @eq_comm _ j k]
    tauto
  · have hd := h.down_iff j
    rw [Keypad.latched_press, rose_concat, h.latched_iff]
    simp only [Input.presses_key, hx, Except.ok.injEq, and_true, ne_eq, reduceCtorEq,
      not_false_eq_true]
    constructor
    · rintro (hl | ⟨rfl, hup⟩)
      · exact .inr hl
      · exact .inl ⟨rfl, by simp [← hd, hup]⟩
    · rintro (⟨rfl, hup⟩ | hl)
      · exact .inr ⟨rfl, by simpa [← hd] using hup⟩
      · exact .inl hl

theorem Tracks.release (h : Tracks held es p) (hx : Keypad.key? x = .ok j) :
    Tracks held (es ++ [.key x false]) (p.release j) := by
  refine ⟨fun k => ?_, fun k => ?_⟩
  · rw [Keypad.isDown_release, down_concat, ← h.down_iff]
    simp only [Input.presses_key, Input.releases_key, hx, Except.ok.injEq, Bool.and_eq_true,
      bne_iff_ne, ne_eq, @eq_comm _ j k]
    tauto
  · rw [Keypad.latched_release, rose_concat, h.latched_iff]
    simp

theorem tracks_releaseAll (held : Key → Bool) (es : List Input) (p : Keypad) :
    Tracks held (es ++ [.releaseAll]) p.releaseAll := by
  refine ⟨fun k => ?_, fun k => ?_⟩
  · simp [down_concat, Keypad.isDown, Keypad.releaseAll, Keypad.initial]
  · simp [rose_concat, Keypad.not_latched_releaseAll]

/-- A machine that waits since it was in state `w`: only its keypad and its timers have moved. -/
structure Waiting (w : Machine) (held : Key → Bool) (es : List Input) (q : Machine) : Prop where
  same : ∃ keypad timers, q = { w with keypad, timers }
  tracks : Tracks held es q.keypad

variable {w : Machine} {register : Register}

theorem Waiting.run_eq (h : Waiting w held es q) : q.run = w.run := by
  obtain ⟨keypad, timers, rfl⟩ := h.same
  rfl

theorem Waiting.step_eq (h : Waiting w held es q) (hw : w.run = .awaitingKey register)
    (hr : ∀ k, ¬ Rose held es k) (s : Source) : q.step s = ⟨none, q, s⟩ := by
  have hnone : ∀ k, ¬ q.keypad.Latched k := fun k hk => hr k ((h.tracks.latched_iff k).mp hk)
  simp [step, h.run_eq, hw, pollKey, Keypad.takeLatched_of_not_latched hnone]

theorem waiting_key (h : Waiting w held es q) (x : Float) (on : Bool) :
    Waiting w held (es ++ [.key x on]) (feed (q, s) (.key x on)).1 := by
  obtain ⟨keypad, timers, rfl⟩ := h.same
  cases hx : Keypad.key? x with
  | error f =>
    simp only [feed, setKey, Keypad.setKey, hx, error_bind]
    exact ⟨⟨keypad, timers, rfl⟩, h.tracks.idle (Input.idle_key hx)⟩
  | ok j =>
    simp only [feed, setKey, Keypad.setKey, hx, ok_bind, pure, Except.pure]
    refine ⟨⟨keypad.set j on, timers, rfl⟩, ?_⟩
    cases on with
    | true => exact h.tracks.press hx
    | false => exact h.tracks.release hx

/-- Nothing but a step that finds a new key ends the wait. -/
theorem waiting_feed (h : Waiting w held es q) (hw : w.run = .awaitingKey register)
    (he : e = .step → ∀ k, ¬ Rose held es k) :
    Waiting w held (es ++ [e]) (feed (q, s) e).1 ∧ (feed (q, s) e).2 = s := by
  cases e with
  | key x on =>
    refine ⟨waiting_key h x on, ?_⟩
    simp only [feed]
    split <;> rfl
  | releaseAll =>
    obtain ⟨keypad, timers, rfl⟩ := h.same
    exact ⟨⟨⟨_, timers, rfl⟩, tracks_releaseAll held es keypad⟩, rfl⟩
  | tick =>
    obtain ⟨keypad, timers, rfl⟩ := h.same
    exact ⟨⟨⟨keypad, _, rfl⟩, h.tracks.idle Input.idle_tick⟩, rfl⟩
  | step =>
    simp only [feed, h.step_eq hw (he rfl) s]
    exact ⟨⟨h.same, h.tracks.idle Input.idle_step⟩, trivial⟩

/-- No step so far has found a new key. -/
def Unanswered (held : Key → Bool) (es : List Input) : Prop :=
  ∀ before after, es = before ++ .step :: after → ∀ k, ¬ Rose held before k

theorem waiting_feedAll (h : Waiting w held [] w) (hw : w.run = .awaitingKey register)
    (hes : Unanswered held es) :
    Waiting w held es (feedAll (w, s) es).1 ∧ (feedAll (w, s) es).2 = s := by
  induction es using List.reverseRecOn with
  | nil => exact ⟨h, rfl⟩
  | append_singleton es e ih =>
    have hbefore : Unanswered held es := by
      intro before after heq
      exact hes before (after ++ [e]) (by simp [heq])
    obtain ⟨hwait, hsource⟩ := ih hbefore
    rw [feedAll_concat]
    have hfeed := waiting_feed (s := (feedAll (w, s) es).2) hwait hw (e := e) (by
      rintro rfl
      exact hes es [] rfl)
    exact ⟨hfeed.1, hfeed.2.trans hsource⟩

/-! The instruction that waits, and the step that answers it. -/

theorem step_waitKey {x : ℕ} (hr : m.run = .running) (hi : m.Reads (.waitKey x)) (s : Source) :
    m.step s = ⟨none,
      { m with
        keypad := m.keypad.clearLatch, run := .awaitingKey (.of x), cycles := m.cycles + 1,
        lastPc := m.pc, lastOpcode := m.opcode }, s⟩ := by
  rw [step_of_rolled hr hi rfl rfl]
  simp [apply, completed, effect, fetched, counted, nextAddress]

/-- The machine is still at the instruction that waits for a key for register `x`, which was counted
as completed, and nothing has changed but its keys and its timers. -/
structure Awaits (m : Machine) (x : ℕ) (q : Machine) : Prop where
  run : q.run = .awaitingKey (.of x)
  registers : q.registers = m.registers
  index : q.index = m.index
  pc : q.pc = m.pc
  stack : q.stack = m.stack
  memory : q.memory = m.memory
  display : q.display = m.display
  cycles : q.cycles = m.cycles + 1
  dialect : q.dialect = m.dialect
  cartridge : q.cartridge = m.cartridge

/-- The machine `q` runs again, as `r`, behind the instruction that waited, with a key in register
`x` and nothing else changed. The keys that are down stay down. -/
structure Resumes (x : ℕ) (k : Key) (q r : Machine) : Prop where
  run : r.run = .running
  reg : ∀ y < 16, (r.reg y).toNat = if y = x then k.val else (q.reg y).toNat
  index : r.index = q.index
  pc : r.pc.toNat = q.pc.toNat + 2
  stack : r.stack = q.stack
  memory : r.memory = q.memory
  display : r.display = q.display
  cycles : r.cycles = q.cycles
  timers : r.timers = q.timers
  held : ∀ j, r.keypad.isDown j = q.keypad.isDown j
  dialect : r.dialect = q.dialect
  cartridge : r.cartridge = q.cartridge

/-- The step that takes a key. -/
theorem step_of_isLeast {x : ℕ} (hx : x < 16) (hr : q.run = .awaitingKey (.of x))
    (hk : IsLeast {k | q.keypad.Latched k} k) (s : Source) :
    q.step s = ⟨none,
      { q.setReg x (UInt8.ofNat k.val) with
        keypad := q.keypad.clearLatch, pc := UInt16.ofNat (q.skipTo false), run := .running }, s⟩ := by
  simp [step, hr, pollKey, Keypad.takeLatched_of_isLeast hk, Register.of_nat hx, assign]

theorem resumes_step {x : ℕ} (hx : x < 16) (hr : q.run = .awaitingKey (.of x))
    (hpc : q.pc.toNat ≤ 0xffe) (hk : IsLeast {k | q.keypad.Latched k} k) (s : Source) :
    Resumes x k q (q.step s).machine := by
  rw [step_of_isLeast hx hr hk]
  refine ⟨rfl, ?_, rfl, ?_, rfl, rfl, rfl, rfl, rfl, fun _ => rfl, rfl, rfl⟩
  · intro y hy
    have hreg := reg_setReg q x (UInt8.ofNat k.val) y
    change ((q.setReg x (UInt8.ofNat k.val)).reg y).toNat = _
    rw [hreg]
    by_cases hyx : y = x
    · have hk256 : k.val < 256 := by omega
      simp [hyx, hx, Nat.mod_eq_of_lt hk256]
    · simp [hyx, Ne.symm hyx]
  · have hlt : q.pc.toNat + 2 < 2 ^ 16 := by omega
    exact UInt16.toNat_ofNat_of_lt' hlt

/-- When a program waits for a key, then whatever keys are pressed and released and however often
the timers tick and the machine is stepped, it goes on waiting, and a step changes nothing, for as
long as no key has risen since. The first step that finds such keys takes the lowest of them, even
if it is up again. -/
theorem waitKey_answered {x : ℕ} (hr : m.run = .running) (hi : m.Reads (.waitKey x)) (s : Source)
    (es : List Input) (hes : Unanswered m.keypad.isDown es) :
    (m.step s).failure? = none ∧
      let q := feedAll ((m.step s).machine, (m.step s).source) es
      Awaits m x q.1 ∧
      (∀ k, q.1.keypad.isDown k = true ↔ Down m.keypad.isDown es k) ∧
      ((∀ k, ¬ Rose m.keypad.isDown es k) → q.1.step q.2 = ⟨none, q.1, q.2⟩) ∧
      ((∃ k, Rose m.keypad.isDown es k) →
        ∃ k, IsLeast {k | Rose m.keypad.isDown es k} k ∧ (q.1.step q.2).failure? = none ∧
          (q.1.step q.2).source = q.2 ∧ Resumes x k q.1 (q.1.step q.2).machine) := by
  rw [step_waitKey hr hi s]
  refine ⟨rfl, ?_⟩
  dsimp only
  generalize hw : ({ m with
    keypad := m.keypad.clearLatch, run := .awaitingKey (.of x), cycles := m.cycles + 1,
    lastPc := m.pc, lastOpcode := m.opcode } : Machine) = w
  have hwrun : w.run = .awaitingKey (.of x) := by rw [← hw]
  have hstart : Waiting w m.keypad.isDown [] w := by
    refine ⟨⟨w.keypad, w.timers, rfl⟩, ?_⟩
    rw [← hw]
    exact tracks_nil fun k => Keypad.not_latched_clearLatch
  obtain ⟨hwait, hsource⟩ := waiting_feedAll (s := s) hstart hwrun hes
  generalize feedAll (w, s) es = q at hwait hsource ⊢
  have hrun : q.1.run = .awaitingKey (.of x) := hwait.run_eq.trans hwrun
  have hawaits : Awaits m x q.1 := by
    obtain ⟨keypad, timers, heq⟩ := hwait.same
    rw [heq, ← hw]
    constructor <;> rfl
  refine ⟨hawaits, hwait.tracks.down_iff, fun hnone => hwait.step_eq hwrun hnone q.2, ?_⟩
  intro hsome
  obtain ⟨k, hk⟩ : ∃ k, IsLeast {k | Rose m.keypad.isDown es k} k :=
    Set.exists_min_image _ id (Set.toFinite _) hsome
  have hleast : IsLeast {k | q.1.keypad.Latched k} k := by
    simpa only [hwait.tracks.latched_iff] using hk
  have hx : x < 16 := hi.2.1
  refine ⟨k, hk, ?_, ?_, resumes_step hx hrun (by rw [hawaits.pc]; exact hi.1) hleast q.2⟩
  · rw [step_of_isLeast hx hrun hleast]
  · rw [step_of_isLeast hx hrun hleast]

/-- A machine that is to wait for a key for register 3. -/
def asking : Machine :=
  powerOn .standard (some ⟨#[0xf3, 0x0a], "ask", by decide, by decide⟩)

/-- A look at the keys, and a tap of key 5. -/
def tap : List Input :=
  [.step, .key 5 true, .key 5 false]

theorem unanswered_tap (held : Key → Bool) : Unanswered held tap := by
  intro before after heq k
  cases before with
  | nil => exact not_since_nil
  | cons e before =>
    have htail := (List.cons.inj heq).2
    have hstep : Input.step ∈ [Input.key 5 true, .key 5 false] := by
      rw [htail]
      simp
    simp at hstep

theorem rose_tap : Rose held tap k ↔ k = 5 ∧ held k = false := by
  have hfive : Keypad.key? 5 = .ok 5 := rfl
  have htap : tap = [] ++ [.step] ++ [.key 5 true] ++ [.key 5 false] := rfl
  have hstep := Input.idle_step k
  simp only [htap, rose_concat, down_concat, down_nil]
  simp [hfive, hstep.1, hstep.2, Rose, not_since_nil, @eq_comm _ 5 k]

theorem waitKey_answered_tap :
    asking.run = .running ∧ asking.Reads (.waitKey 3) ∧ Unanswered asking.keypad.isDown tap ∧
      let q := feedAll ((asking.step (.seeded 0)).machine, (asking.step (.seeded 0)).source) tap
      Resumes 3 5 q.1 (q.1.step q.2).machine := by
  have hi : (Instruction.waitKey 3).InRange := show 3 < 16 by decide
  have hreads : asking.Reads (.waitKey 3) := reads_of_image rfl rfl hi (by decide)
  have hup : ∀ k, asking.keypad.isDown k = false := by decide
  refine ⟨rfl, hreads, unanswered_tap _, ?_⟩
  obtain ⟨_, _, _, _, hanswer⟩ :=
    waitKey_answered rfl hreads (.seeded 0) tap (unanswered_tap asking.keypad.isDown)
  obtain ⟨k, hk, _, _, hresumes⟩ := hanswer ⟨5, rose_tap.mpr ⟨rfl, hup 5⟩⟩
  obtain rfl : k = 5 := (rose_tap.mp hk.1).1
  exact hresumes

end Machine

end Chip8
