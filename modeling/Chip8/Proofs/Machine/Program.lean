import Chip8.Proofs.Machine.Sequence

/-! What a program can tell of the time and of the keys: nothing, but through four instructions. -/
namespace Chip8

/-- The instruction looks at the delay timer or at the keypad. -/
def Instruction.Senses {α : Type} : Instruction α → Prop
  | readDelay _ => True
  | skipIfKey _ => True
  | skipUnlessKey _ => True
  | waitKey _ => True
  | _ => False

/-- The machine with new timers and a new keypad, and with the mark taken from its screen. -/
def Machine.bare (m : Machine) : Machine :=
  { m with timers := .initial, keypad := .initial, display := m.display.takeDirty.2 }

/-- What came of a call, with the machine made bare. -/
def Outcome.bare (o : Outcome) : Outcome :=
  { o with machine := o.machine.bare }

namespace Machine

variable {m : Machine} {s : Source} {i : Instruction ℕ}

@[simp] theorem bare_bare (m : Machine) : m.bare.bare = m.bare :=
  rfl

/-! Instructions that sense nothing do the same to a bare machine. -/

theorem bare_assign (m : Machine) (r : Register) (b : UInt8) :
    m.bare.assign r b = (m.assign r b).bare := by
  cases r <;> rfl

theorem bare_arith (m : Machine) (op : ArithOp) (x y : Register) :
    m.bare.arith op x y = (m.arith op x y).bare := by
  have hvalue (r : Register) : m.bare.value? r = m.value? r := by
    cases r <;> rfl
  have hdialect : m.bare.dialect = m.dialect := rfl
  unfold arith
  rw [hvalue, hvalue, hdialect]
  obtain ⟨value, flag⟩ := op.evalAvailable m.dialect (m.value? x) (m.value? y)
  cases flag with
  | none => exact bare_assign m x value
  | some f => simp only [setFlag, bare_assign]

theorem bare_addToIndex (m : Machine) (r : Register) :
    m.bare.addToIndex r = (m.addToIndex r).bare := by
  cases r <;> rfl

theorem bare_moveIndex (m : Machine) (x : ℕ) : m.bare.moveIndex x = (m.moveIndex x).bare := by
  have hdialect : m.bare.dialect = m.dialect := rfl
  unfold moveIndex
  rw [hdialect]
  split <;> rfl

theorem bare_setRegisters (m : Machine) (x : ℕ) (bs : List UInt8) :
    m.bare.setRegisters x bs = (m.setRegisters x bs).bare := by
  induction bs generalizing m x with
  | nil => rfl
  | cons b bs ih => exact ih (m.setReg x b) (x + 1)

theorem bare_setFlag_display (m : Machine) (d : Display) (on : Bool) :
    ({ m with display := d }.setFlag on).bare =
      { m.bare with display := d.takeDirty.2 }.setFlag on :=
  (bare_assign { m with display := d } .flag _).symm

/-- What is drawn marks the screen, so the mark is taken from both sides. -/
theorem bare_drawSprite {x y : ℕ} (hx : x < 16) (hy : y < 16) (m : Machine) (sprite : List UInt8) :
    (m.bare.drawSprite (.of x) (.of y) sprite).bare = (m.drawSprite (.of x) (.of y) sprite).bare := by
  have hdraw (m : Machine) : m.drawSprite (.of x) (.of y) sprite =
      { m with
        display := (m.display.draw ((m.reg x).toNat : ℤ) ((m.reg y).toNat : ℤ) sprite).1 }.setFlag
        (m.display.draw ((m.reg x).toNat : ℤ) ((m.reg y).toNat : ℤ) sprite).2 := by
    rw [Register.of_nat hx, Register.of_nat hy]
    rfl
  obtain ⟨hpixels, hflag⟩ := Display.draw_takeDirty m.display ((m.reg x).toNat : ℤ)
    ((m.reg y).toNat : ℤ) sprite
  have hdisplay : m.bare.display = m.display.takeDirty.2 := rfl
  have hreg (x : ℕ) : m.bare.reg x = m.reg x := rfl
  rw [hdraw, hdraw, bare_setFlag_display, bare_setFlag_display, bare_bare, hdisplay, hreg, hreg,
    hpixels, hflag]

theorem bare_completed (hi : ¬ i.Senses) (hrange : i.InRange) (m : Machine) (roll : UInt8) :
    (m.bare.completed roll i).bare = (m.completed roll i).bare := by
  have hread (r : Register) : m.bare.read r = m.read r := by
    cases r <;> rfl
  cases i with
  | readDelay x => exact absurd trivial hi
  | skipIfKey x => exact absurd trivial hi
  | skipUnlessKey x => exact absurd trivial hi
  | waitKey x => exact absurd trivial hi
  | draw x y n => exact bare_drawSprite hrange.1 hrange.2.1 m _
  | setByte x nn => simp only [completed, effect, bare_assign, bare_bare]
  | addByte x nn => simp only [completed, effect, hread, bare_assign, bare_bare]
  | arith op x y => simp only [completed, effect, bare_arith, bare_bare]
  | random x nn => simp only [completed, effect, bare_assign, bare_bare]
  | addIndex x => simp only [completed, effect, bare_addToIndex, bare_bare]
  | pointGlyph x => simp only [completed, effect, hread]; rfl
  | store x =>
    have hstored := bare_moveIndex
      { m with memory := m.memory.store m.index.toNat (m.firstRegisters (x + 1)) } x
    exact (congrArg bare hstored :)
  | load x =>
    have hload (m : Machine) : m.completed roll (.load x) =
        (m.setRegisters 0 (m.memory.load m.index.toNat (x + 1))).moveIndex x := rfl
    have hmemory : m.bare.memory.load m.bare.index.toNat = m.memory.load m.index.toNat := rfl
    rw [hload, hload, hmemory, bare_setRegisters, bare_moveIndex, bare_bare]
  | storeDecimal x => simp only [completed, hread]; rfl
  | _ => rfl

theorem nextAddress_bare (hi : ¬ i.Senses) (m : Machine) :
    m.bare.nextAddress i = m.nextAddress i := by
  cases i with
  | skipIfKey x => exact absurd trivial hi
  | skipUnlessKey x => exact absurd trivial hi
  | _ => rfl

theorem bare_apply (hi : ¬ i.Senses) (hrange : i.InRange) (m : Machine) (roll : UInt8) :
    (m.bare.apply i roll).bare = (m.apply i roll).bare := by
  have hcompleted := bare_completed hi hrange m roll
  have hbare (m : Machine) : (m.apply i roll).bare =
      { (m.completed roll i).bare with pc := UInt16.ofNat (m.nextAddress i) } := rfl
  rw [hbare, hbare, hcompleted, nextAddress_bare hi]

theorem fault?_bare (m : Machine) (i : Instruction ℕ) : m.bare.fault? i = m.fault? i := by
  cases i <;> rfl

theorem bare_settle (e : Failure) (m : Machine) (s : Source) :
    (settle ⟨some e, m.bare, s⟩).bare = (settle ⟨some e, m, s⟩).bare := by
  cases e <;> rfl

theorem bare_step_of_reads (hr : m.run = .running) (hi : m.Reads i) :
    (m.bare.step s).failure? = (m.step s).failure? ∧
      (((m.step s).failure? = none → ¬ i.Senses) → (m.bare.step s).bare = (m.step s).bare) := by
  have hr' : m.bare.run = .running := hr
  have hi' : m.bare.Reads i := hi
  cases hf : m.fault? i with
  | some f =>
    rw [step_of_fault? hr hi hf, step_of_fault? hr' hi' ((fault?_bare m i).trans hf)]
    exact ⟨rfl, fun _ => rfl⟩
  | none =>
    rcases hroll : rolled s i with ⟨e | roll, s'⟩
    · rw [step_of_reads hr hi, step_of_reads hr' hi', execute_eq hi.2.1, execute_eq hi.2.1, hroll]
      have hsettle := bare_settle e (m.fetched m.opcode) s'
      exact ⟨(congrArg Outcome.failure? hsettle :), fun _ => hsettle⟩
    · rw [step_of_rolled hr hi hf hroll, step_of_rolled hr' hi' ((fault?_bare m i).trans hf) hroll]
      refine ⟨rfl, fun hsenses => ?_⟩
      have happly := bare_apply (hsenses rfl) hi.2.1 (m.fetched m.opcode) roll
      have hbare (m : Machine) : Outcome.bare ⟨none, m.counted, s'⟩ =
          ⟨none, { m.bare with cycles := m.bare.cycles + 1 }, s'⟩ := rfl
      rw [hbare, hbare, ← happly]
      rfl

theorem bare_step_of_not_reads (hr : m.run = .running) (hi : ∀ i, ¬ m.Reads i) :
    (m.bare.step s).bare = (m.step s).bare := by
  have hr' : m.bare.run = .running := hr
  rw [step_of_running hr, step_of_running hr']
  by_cases hpc : m.pc.toNat ≤ 0xffe
  · cases hword : Instruction.ofWord? m.opcode.toNat with
    | some i => exact absurd (reads_iff.mpr ⟨hpc, hword⟩) (hi i)
    | none =>
      have hword' : Instruction.ofWord? m.bare.opcode.toNat = none := hword
      simp only [fetchAndExecute, readWord_of_le hpc, readWord_of_le (m := m.bare) hpc, hword,
        hword']
      rfl
  · obtain ⟨address, hw⟩ := Memory.readWord_of_size_le (m := m.memory) (a := m.pc.toNat)
      (show 0x1000 ≤ m.pc.toNat + 1 by omega)
    rw [fetchAndExecute_of_error hw, fetchAndExecute_of_error (m := m.bare) hw]
    rfl

/-- A step fails alike without the timers and the keypad, and if it does not look at them it comes
to the same. -/
theorem bare_step (hw : m.isAwaitingKey = false) (s : Source) :
    (m.bare.step s).failure? = (m.step s).failure? ∧
      (((m.step s).failure? = none → ∀ i, m.Reads i → ¬ i.Senses) →
        (m.bare.step s).bare = (m.step s).bare) := by
  have hsame (h : (m.bare.step s).bare = (m.step s).bare) :
      (m.bare.step s).failure? = (m.step s).failure? :=
    (congrArg Outcome.failure? h :)
  cases hr : m.run with
  | halted f =>
    have hrefused (m : Machine) (hr : m.run = .halted f) :
        m.step s = ⟨some (.fault (.halted f)), m, s⟩ := by
      simp [step, hr]
    have hbare : (m.bare.step s).bare = (m.step s).bare := by
      rw [hrefused m hr, hrefused m.bare hr]
      rfl
    exact ⟨hsame hbare, fun _ => hbare⟩
  | awaitingKey register => simp [isAwaitingKey, hr] at hw
  | running =>
    by_cases hreads : ∃ i, m.Reads i
    · obtain ⟨i, hreads⟩ := hreads
      obtain ⟨hfailure, hbare⟩ := bare_step_of_reads (s := s) hr hreads
      exact ⟨hfailure, fun hi => hbare fun hf => hi hf i hreads⟩
    · have hbare := bare_step_of_not_reads (s := s) hr (not_exists.mp hreads)
      exact ⟨hsame hbare, fun _ => hbare⟩

/-- Only one of these instructions makes a machine await a key. -/
theorem Stepped.isAwaitingKey {o : Outcome} (h : Stepped m s o) (hw : m.isAwaitingKey = false)
    (hi : o.failure? = none → ∀ i, m.Reads i → ¬ i.Senses) : o.machine.isAwaitingKey = false := by
  cases h with
  | refused => exact hw
  | polled hr => simp [Machine.isAwaitingKey, hr] at hw
  | beyond => rfl
  | unknown => rfl
  | faulted => rfl
  | @unrolled _ e => cases e <;> first | rfl | exact hw
  | @completed i roll _ hr hreads =>
    have hrun := run_apply (m.fetched m.opcode) i roll
    have hnot := hi rfl i hreads
    rcases runAfter_cases (m.fetched m.opcode) i with hsame | ⟨x, rfl, _⟩
    · have hrunning : ((m.fetched m.opcode).apply i roll).counted.run = .running :=
        (hrun.trans hsame).trans hr
      simp [Machine.isAwaitingKey, hrunning]
    · exact absurd trivial hnot

/-- The machines differ in their timers, their keypads and the marks on their screens at most, and
their sources are the same. -/
structure Alike (p q : Machine × Source) : Prop where
  machine : p.1.bare = q.1.bare
  source : p.2 = q.2

variable {p q r : Machine × Source}

theorem alike_refl (p : Machine × Source) : Alike p p :=
  ⟨rfl, rfl⟩

theorem Alike.symm (h : Alike p q) : Alike q p :=
  ⟨h.machine.symm, h.source.symm⟩

theorem Alike.trans (hpq : Alike p q) (hqr : Alike q r) : Alike p r :=
  ⟨hpq.machine.trans hqr.machine, hpq.source.trans hqr.source⟩

theorem Alike.isAwaitingKey (h : Alike p q) (hp : p.1.isAwaitingKey = false) :
    q.1.isAwaitingKey = false := by
  have hrun : p.1.run = q.1.run := (congrArg run h.machine :)
  simpa [Machine.isAwaitingKey, hrun] using hp

/-- The next step does not complete an instruction that looks at the timer or at the keypad. -/
def Blind (p : Machine × Source) : Prop :=
  failureAt p 1 = none → ∀ i, p.1.Reads i → ¬ i.Senses

/-- A machine that does not await a key does not begin to. -/
theorem Blind.isAwaitingKey (h : Blind p) (hp : p.1.isAwaitingKey = false) :
    (next p).1.isAwaitingKey = false :=
  (stepped_step p.1 p.2).isAwaitingKey hp h

/-- Machines that are alike fail alike, and they stay alike as long as the program does not look. -/
theorem Alike.next (h : Alike p q) (hp : p.1.isAwaitingKey = false) :
    failureAt q 1 = failureAt p 1 ∧ (Blind p → Alike (next p) (next q)) := by
  obtain ⟨m, s⟩ := p
  obtain ⟨n, t⟩ := q
  obtain ⟨hbare, rfl⟩ : m.bare = n.bare ∧ s = t := ⟨h.machine, h.source⟩
  obtain ⟨hm, hmsame⟩ := bare_step hp s
  obtain ⟨hn, hnsame⟩ := bare_step (h.isAwaitingKey hp) s
  rw [← hbare] at hn hnsame
  have hfailure : (n.step s).failure? = (m.step s).failure? := hn.symm.trans hm
  refine ⟨hfailure, fun hblind => ?_⟩
  have hreads (i : Instruction ℕ) : n.Reads i ↔ m.Reads i := by
    change n.bare.Reads i ↔ m.bare.Reads i
    rw [hbare]
  have hsame : (m.step s).bare = (n.step s).bare := by
    rw [← hmsame hblind, hnsame]
    intro hf i hi
    exact hblind (hfailure.symm.trans hf) i ((hreads i).mp hi)
  exact ⟨(congrArg Outcome.machine hsame :), (congrArg Outcome.source hsame :)⟩

/-! Rows of steps, with something else in between. -/

variable {xs ys : List (Machine × Source)} {k : ℕ}

/-- Steps that begin in the states `xs` lead from `p` to `q`. Between the steps nothing happens
that a program could not only tell by the timers and the keys. -/
def Leads : Machine × Source → List (Machine × Source) → Machine × Source → Prop
  | p, [], q => Alike p q
  | p, x :: xs, q => Alike p x ∧ Leads (next x) xs q

theorem Leads.of_alike (h : Leads q xs r) (hpq : Alike p q) : Leads p xs r := by
  cases xs with
  | nil => exact hpq.trans h
  | cons x xs => exact ⟨hpq.trans h.1, h.2⟩

theorem Leads.append (hxs : Leads p xs q) (hys : Leads q ys r) : Leads p (xs ++ ys) r := by
  induction xs generalizing p with
  | nil => exact hys.of_alike hxs
  | cons x xs ih => exact ⟨hxs.1, ih hxs.2⟩

/-- The state behind steps that begin in the states `xs`, if the first of them begins in `p`. -/
def behind (p : Machine × Source) (xs : List (Machine × Source)) : Machine × Source :=
  (xs.getLast?.map next).getD p

theorem behind_cons (p x : Machine × Source) (xs : List (Machine × Source)) :
    behind p (x :: xs) = behind (next x) xs := by
  cases hxs : xs.getLast? <;> simp [behind, List.getLast?_cons, hxs]

theorem Leads.split (h : Leads p (xs ++ ys) q) :
    Leads p xs (behind p xs) ∧ Leads (behind p xs) ys q := by
  induction xs generalizing p with
  | nil => exact ⟨alike_refl p, h⟩
  | cons x xs ih =>
    rw [behind_cons]
    obtain ⟨hxs, hys⟩ := ih h.2
    exact ⟨⟨h.1, hxs⟩, hys⟩

theorem Leads.take (h : Leads p xs q) (n : ℕ) : Leads p (xs.take n) (behind p (xs.take n)) := by
  rw [← List.take_append_drop n xs] at h
  exact h.split.1

/-- The next step completes an instruction. -/
def completes (p : Machine × Source) : Bool :=
  !p.1.isAwaitingKey && (failureAt p 1).isNone

theorem completes_iff : completes p = true ↔ p.1.isAwaitingKey = false ∧ failureAt p 1 = none := by
  simp [completes]

theorem completes_of_rolled {roll : UInt8} {s' : Source} (hr : m.run = .running) (hi : m.Reads i)
    (hf : m.fault? i = none) (hroll : rolled s i = (.ok roll, s')) : completes (m, s) = true := by
  have hstep := step_of_rolled hr hi hf hroll
  have hfailure : failureAt (m, s) 1 = none := by
    change (m.step s).failure? = none
    rw [hstep]
  exact completes_iff.mpr ⟨by simp [isAwaitingKey, hr], hfailure⟩

/-- The steps have completed `k` instructions, the last of them just now. -/
def JustCompleted (k : ℕ) (xs : List (Machine × Source)) : Prop :=
  xs.countP completes = k ∧ ∀ x ∈ xs.getLast?, completes x = true

theorem cycles_next (hp : p.1.isAwaitingKey = false) :
    (next p).1.cycles = p.1.cycles + (completes p).toNat := by
  have hfailure : failureAt p 1 = (p.1.step p.2).failure? := rfl
  simp only [next, completes, hp, hfailure, Bool.not_false, Bool.true_and]
  cases hh : p.1.isHalted with
  | true =>
    cases hr : p.1.run with
    | halted f => simp [step, hr]
    | running => simp [isHalted, hr] at hh
    | awaitingKey register => simp [isHalted, hr] at hh
  | false =>
    have hcycles := (stepped_step p.1 p.2).cycles hh
    rw [hp] at hcycles
    cases hf : (p.1.step p.2).failure? with
    | none => simpa [hf] using hcycles
    | some e => simpa [hf] using hcycles

theorem Leads.cycles (h : Leads p xs q) (hp : p.1.isAwaitingKey = false)
    (hblind : ∀ x ∈ xs, Blind x) : q.1.cycles = p.1.cycles + xs.countP completes := by
  induction xs generalizing p with
  | nil => exact (congrArg Machine.cycles h.machine.symm :)
  | cons x xs ih =>
    obtain ⟨hpx, hxs⟩ := h
    have hx := hpx.isAwaitingKey hp
    have hcycles : p.1.cycles = x.1.cycles := (congrArg Machine.cycles hpx.machine :)
    have hrest := ih hxs ((hblind x (by simp)).isAwaitingKey hx) fun z hz => hblind z (by simp [hz])
    have hbit : (completes x).toNat = if completes x = true then 1 else 0 := by
      cases completes x <;> rfl
    rw [hrest, cycles_next hx, hcycles, List.countP_cons, hbit]
    omega

/-- Two rows of equally many steps, of which the first never looks at the timer or at the keypad,
complete the same instructions and come to the same. -/
theorem Leads.alike {p' q' : Machine × Source} (hxs : Leads p xs q) (hys : Leads p' ys q')
    (hlength : xs.length = ys.length) (hp : Alike p p') (hawait : p.1.isAwaitingKey = false)
    (hblind : ∀ x ∈ xs, Blind x) :
    Alike q q' ∧ q.1.isAwaitingKey = false ∧ xs.map completes = ys.map completes := by
  induction xs generalizing p p' ys with
  | nil =>
    obtain rfl : ys = [] := List.eq_nil_of_length_eq_zero hlength.symm
    exact ⟨hxs.symm.trans (hp.trans hys), hxs.isAwaitingKey hawait, rfl⟩
  | cons x xs ih =>
    cases ys with
    | nil => simp at hlength
    | cons y ys =>
      obtain ⟨hpx, hxs⟩ := hxs
      obtain ⟨hpy, hys⟩ := hys
      have hxy : Alike x y := hpx.symm.trans (hp.trans hpy)
      have hx := hpx.isAwaitingKey hawait
      have hbx := hblind x (by simp)
      obtain ⟨hfailure, hnext⟩ := hxy.next hx
      obtain ⟨halike, hq, hmap⟩ := ih hxs hys (by simpa using hlength) (hnext hbx)
        (hbx.isAwaitingKey hx) fun z hz => hblind z (by simp [hz])
      refine ⟨halike, hq, ?_⟩
      simp only [List.map_cons, hmap, completes, hfailure, hx, hxy.isAwaitingKey hx]

theorem JustCompleted.length_le (hx : JustCompleted k xs) (hy : JustCompleted k ys)
    (h : xs.map completes = (ys.take xs.length).map completes) : ys.length ≤ xs.length := by
  have hcount : (ys.take xs.length).countP completes = k := by
    have hmap := congrArg (List.countP id) h
    rw [List.countP_map, List.countP_map] at hmap
    exact hmap.symm.trans hx.1
  have hsplit := List.take_append_drop xs.length ys
  have hrest : (ys.drop xs.length).countP completes = 0 := by
    have hall := hy.1
    rw [← hsplit, List.countP_append] at hall
    omega
  rcases List.eq_nil_or_concat (ys.drop xs.length) with hnil | ⟨zs, y, hzs⟩
  · exact List.drop_eq_nil_iff.mp hnil
  · -- the last step would complete one more instruction
    rw [hzs] at hsplit hrest
    have hlast : completes y = true := by
      apply hy.2
      rw [← hsplit]
      simp
    exact absurd hlast (List.countP_eq_zero.mp hrest y (by simp))

theorem JustCompleted.length_eq {p' q' : Machine × Source} (hx : JustCompleted k xs)
    (hy : JustCompleted k ys) (hxs : Leads p xs q) (hys : Leads p' ys q') (hp : Alike p p')
    (hawait : p.1.isAwaitingKey = false) (hblind : ∀ x ∈ xs, Blind x) :
    xs.length = ys.length := by
  rcases Nat.le_total xs.length ys.length with hle | hle
  · have hmap := (hxs.alike (hys.take xs.length) (by simp [hle]) hp hawait hblind).2.2
    exact Nat.le_antisymm hle (hx.length_le hy hmap)
  · have hmap := ((hxs.take ys.length).alike hys (by simp [hle]) hp hawait
      fun x hx => hblind x (List.mem_of_mem_take hx)).2.2
    exact Nat.le_antisymm (hy.length_le hx hmap.symm) hle

end Machine

end Chip8
