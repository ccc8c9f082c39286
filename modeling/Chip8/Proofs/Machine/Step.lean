import Chip8.Proofs.Display.Marks
import Chip8.Proofs.Instruction.Table
import Chip8.Proofs.Machine.Atomicity

/-! All that one step can come to, and what a completed instruction leaves alone. -/
namespace Chip8

/-- Every call of the source returns a number. -/
def Source.Reliable (s : Source) : Prop :=
  ∀ i, ∃ x, s.results i = .ok x

theorem Source.reliable_seeded (seed : UInt64) : (seeded seed).Reliable :=
  fun _ => ⟨_, rfl⟩

namespace Memory

theorem readWord_of_size_le {m : Memory} {a : ℕ} (h : size ≤ a + 1) :
    ∃ address, m.readWord (a : ℤ) = .error (.outOfBounds address .read) := by
  have hfirst : Scalar.natural? (a : ℤ) = some a := by
    simp [Scalar.natural?]
  have hsecond : Scalar.natural? ((a : ℤ) + Scalar.ofNat 1) = some (a + 1) := by
    simp [Scalar.natural?, Scalar.ofNat]
    omega
  have hn : ¬ a + 1 < size := Nat.not_lt.mpr h
  by_cases ha : a < size
  · exact ⟨_, by simp [readWord, locate, offset?, hfirst, hsecond, Option.filter_some, ha, hn]; rfl⟩
  · exact ⟨_, by simp [readWord, locate, offset?, hfirst, Option.filter_some, ha]; rfl⟩

end Memory

namespace Machine

variable {m q : Machine} {s : Source} {i : Instruction ℕ}

/-! The parts that an instruction changes. -/

theorem assign_eq (m : Machine) (r : Register) (b : UInt8) :
    ∃ registers, m.assign r b = { m with registers } := by
  cases r with
  | known i => exact ⟨_, rfl⟩
  | stray x => exact ⟨m.registers, rfl⟩

theorem setFlag_eq (m : Machine) (on : Bool) : ∃ registers, m.setFlag on = { m with registers } :=
  assign_eq m .flag _

theorem arith_eq (m : Machine) (op : ArithOp) (x y : Register) :
    ∃ registers, m.arith op x y = { m with registers } := by
  unfold arith
  obtain ⟨value, flag⟩ := op.evalAvailable m.dialect (m.value? x) (m.value? y)
  obtain ⟨v, hv⟩ := assign_eq m x value
  cases flag with
  | none => exact ⟨v, hv⟩
  | some f =>
    obtain ⟨w, hw⟩ := setFlag_eq (m.assign x value) f
    exact ⟨w, by simpa only [hv] using hw⟩

theorem setRegisters_eq (m : Machine) (x : ℕ) (bs : List UInt8) :
    ∃ registers, m.setRegisters x bs = { m with registers } := by
  induction bs generalizing m x with
  | nil => exact ⟨m.registers, rfl⟩
  | cons b bs ih =>
    obtain ⟨v, hv⟩ := ih (m.setReg x b) (x + 1)
    exact ⟨v, hv⟩

theorem moveIndex_eq (m : Machine) (x : ℕ) : ∃ index, m.moveIndex x = { m with index } := by
  unfold moveIndex
  split
  · exact ⟨_, rfl⟩
  · exact ⟨m.index, rfl⟩

theorem addToIndex_eq (m : Machine) (r : Register) : ∃ index, m.addToIndex r = { m with index } := by
  unfold addToIndex
  split <;> exact ⟨_, rfl⟩

theorem drawSprite_eq (m : Machine) (x y : Register) (sprite : List UInt8) :
    ∃ registers display, m.drawSprite x y sprite = { m with registers, display } ∧
      m.display.Noted display := by
  cases hx : m.value? x with
  | none =>
    obtain ⟨v, hv⟩ := setFlag_eq { m with display := (m.display.miss sprite).1 }
      (m.display.miss sprite).2
    exact ⟨v, _, by simpa [drawSprite, hx] using hv, Display.noted_miss _ _⟩
  | some a =>
    cases hy : m.value? y with
    | none =>
      obtain ⟨v, hv⟩ := setFlag_eq { m with display := (m.display.miss sprite).1 }
        (m.display.miss sprite).2
      exact ⟨v, _, by simpa [drawSprite, hx, hy] using hv, Display.noted_miss _ _⟩
    | some b =>
      obtain ⟨v, hv⟩ := setFlag_eq
        { m with display := (m.display.draw (a.toNat : ℤ) (b.toNat : ℤ) sprite).1 }
        (m.display.draw (a.toNat : ℤ) (b.toNat : ℤ) sprite).2
      exact ⟨v, _, by simpa [drawSprite, hx, hy] using hv, Display.noted_draw _ _ _ _⟩

/-- The stack behind an instruction. Only calls and returns touch it. -/
def stackAfter (m : Machine) : Instruction ℕ → Stack
  | .ret => m.stack.pop
  | .call _ => m.stack.push (UInt16.ofNat m.returnAddress)
  | _ => m.stack

/-- What the machine is doing behind an instruction. -/
def runAfter (m : Machine) : Instruction ℕ → RunState
  | .waitKey x => .awaitingKey (.of x)
  | _ => m.run

/-- The memory behind an instruction. Only two of them store anything. -/
def memoryAfter (m : Machine) : Instruction ℕ → Memory
  | .storeDecimal x => m.memory.store m.index.toNat (decimalDigits (m.read (.of x)))
  | .store x => m.memory.store m.index.toNat (m.firstRegisters (x + 1))
  | _ => m.memory

/-- The screen behind an instruction. -/
def displayAfter (m : Machine) : Instruction ℕ → Display
  | .clear => m.display.clear
  | .draw x y n => (m.drawSprite (.of x) (.of y) (m.memory.load m.index.toNat n)).display
  | _ => m.display

def timersAfter (m : Machine) : Instruction ℕ → Timers
  | .setDelay x => { m.timers with delay := m.read (.of x) }
  | .setSound x => { m.timers with sound := m.read (.of x) }
  | _ => m.timers

/-- The keys behind an instruction. No instruction moves a key, and one clears the latch. -/
def keypadAfter (m : Machine) : Instruction ℕ → Keypad
  | .waitKey _ => m.keypad.clearLatch
  | _ => m.keypad

/-- What an instruction changes, part by part; the registers and the index have laws of their own. -/
theorem completed_eq (m : Machine) (roll : UInt8) (i : Instruction ℕ) :
    ∃ registers index,
      m.completed roll i =
        { m with
          registers, index
          memory := m.memoryAfter i, stack := m.stackAfter i, display := m.displayAfter i
          timers := m.timersAfter i, keypad := m.keypadAfter i, run := m.runAfter i } := by
  cases i with
  | draw x y n =>
    obtain ⟨v, d, hv, _⟩ := drawSprite_eq m (.of x) (.of y) (m.memory.load m.index.toNat n)
    have hd : m.displayAfter (.draw x y n) = d := congrArg display hv
    refine ⟨v, m.index, ?_⟩
    rw [hd]
    exact hv
  | setByte x nn =>
    obtain ⟨v, hv⟩ := assign_eq m (.of x) (Scalar.toByte nn)
    exact ⟨v, _, hv⟩
  | addByte x nn =>
    obtain ⟨v, hv⟩ := assign_eq m (.of x)
      (Scalar.toByte (Scalar.ofNat (m.read (.of x)).toNat + nn))
    exact ⟨v, _, hv⟩
  | arith op x y =>
    obtain ⟨v, hv⟩ := arith_eq m op (.of x) (.of y)
    exact ⟨v, _, hv⟩
  | random x nn =>
    obtain ⟨v, hv⟩ := assign_eq m (.of x) (roll &&& Scalar.toByte nn)
    exact ⟨v, _, hv⟩
  | readDelay x =>
    obtain ⟨v, hv⟩ := assign_eq m (.of x) m.timers.delay
    exact ⟨v, _, hv⟩
  | addIndex x =>
    obtain ⟨v, hv⟩ := addToIndex_eq m (.of x)
    exact ⟨_, v, hv⟩
  | store x =>
    obtain ⟨v, hv⟩ := moveIndex_eq
      { m with memory := m.memory.store m.index.toNat (m.firstRegisters (x + 1)) } x
    exact ⟨_, v, hv⟩
  | load x =>
    obtain ⟨v, hv⟩ := setRegisters_eq m 0 (m.memory.load m.index.toNat (x + 1))
    obtain ⟨w, hw⟩ := moveIndex_eq { m with registers := v } x
    exact ⟨v, w, (congrArg (moveIndex · x) hv).trans hw⟩
  | _ => exact ⟨_, _, rfl⟩

theorem stack_apply (m : Machine) (i : Instruction ℕ) (roll : UInt8) :
    (m.apply i roll).stack = m.stackAfter i := by
  obtain ⟨_, _, h⟩ := completed_eq m roll i
  simp [apply, h]

theorem run_apply (m : Machine) (i : Instruction ℕ) (roll : UInt8) :
    (m.apply i roll).run = m.runAfter i := by
  obtain ⟨_, _, h⟩ := completed_eq m roll i
  simp [apply, h]

theorem memory_apply (m : Machine) (i : Instruction ℕ) (roll : UInt8) :
    (m.apply i roll).memory = m.memoryAfter i := by
  obtain ⟨_, _, h⟩ := completed_eq m roll i
  simp [apply, h]

theorem display_apply (m : Machine) (i : Instruction ℕ) (roll : UInt8) :
    (m.apply i roll).display = m.displayAfter i := by
  obtain ⟨_, _, h⟩ := completed_eq m roll i
  simp [apply, h]

theorem keypad_apply (m : Machine) (i : Instruction ℕ) (roll : UInt8) :
    (m.apply i roll).keypad = m.keypadAfter i := by
  obtain ⟨_, _, h⟩ := completed_eq m roll i
  simp [apply, h]

theorem held_apply (m : Machine) (i : Instruction ℕ) (roll : UInt8) :
    (m.apply i roll).keypad.held = m.keypad.held := by
  rw [keypad_apply]
  cases i <;> rfl

theorem timers_apply (m : Machine) (i : Instruction ℕ) (roll : UInt8) :
    (m.apply i roll).timers = m.timersAfter i := by
  obtain ⟨_, _, h⟩ := completed_eq m roll i
  simp [apply, h]

theorem displayAfter_of_other (hclear : i ≠ .clear) (hdraw : ∀ x y n, i ≠ .draw x y n) :
    m.displayAfter i = m.display := by
  cases i with
  | clear => exact absurd rfl hclear
  | draw x y n => exact absurd rfl (hdraw x y n)
  | _ => rfl

theorem noted_displayAfter (m : Machine) (i : Instruction ℕ) :
    m.display.Noted (m.displayAfter i) := by
  cases i with
  | clear => exact Display.noted_clear _
  | draw x y n =>
    obtain ⟨_, _, h, hd⟩ := drawSprite_eq m (.of x) (.of y) (m.memory.load m.index.toNat n)
    simpa only [displayAfter, h] using hd
  | _ => exact Display.noted_refl _

theorem runAfter_cases (m : Machine) (i : Instruction ℕ) :
    m.runAfter i = m.run ∨ ∃ x, i = .waitKey x ∧ m.runAfter i = .awaitingKey (.of x) := by
  cases i with
  | waitKey x => exact .inr ⟨x, rfl, rfl⟩
  | _ => exact .inl rfl

/-- What every instruction that completes leaves alone. It marks the screen if it changes it, and at
most it makes the machine await a key. -/
structure Completes (m q : Machine) : Prop where
  cycles : q.cycles = m.cycles
  dialect : q.dialect = m.dialect
  cartridge : q.cartridge = m.cartridge
  display : m.display.Noted q.display
  run : q.run = m.run ∨ ∃ register, q.run = .awaitingKey register

theorem completes_apply (m : Machine) (i : Instruction ℕ) (roll : UInt8) :
    Completes m (m.apply i roll) := by
  have hdisplay : m.display.Noted (m.apply i roll).display := by
    rw [display_apply]
    exact noted_displayAfter m i
  obtain ⟨_, _, h⟩ := completed_eq m roll i
  refine ⟨by simp [apply, h], by simp [apply, h], by simp [apply, h], hdisplay, ?_⟩
  rw [run_apply]
  rcases runAfter_cases m i with h | ⟨x, _, h⟩
  · exact .inl h
  · exact .inr ⟨_, h⟩

/-! Steps. -/

/-- The random byte that an instruction gets, and the source after it. Only one kind of instruction
asks for it. -/
def rolled (s : Source) : Instruction ℕ → Except Failure UInt8 × Source
  | .random .. => (s.next.1.map Source.toByte, s.next.2)
  | _ => (.ok 0, s)

theorem rolled_of_fault? {f : Fault} (h : m.fault? i = some f) : rolled s i = (.ok 0, s) := by
  cases i <;> first | rfl | simp [fault?] at h

theorem rolled_ne_error {e : Failure} {s' : Source} (hs : s.Reliable) :
    rolled s i ≠ (.error e, s') := by
  obtain ⟨x, hx⟩ := hs s.used
  cases i <;> simp [rolled, Source.next, hx, Except.map]

theorem execute_eq (hi : i.InRange) :
    m.execute s i =
      match rolled s i with
      | (.ok roll, s) => .of (m.carryOut roll i) s
      | (.error e, s) => ⟨some e, m, s⟩ := by
  unfold execute
  rw [rowsFailure?_eq_none hi]
  cases i with
  | random x nn => cases h : s.results s.used <;> simp [rolled, Source.next, h, Except.map]
  | _ => rfl

/-- An instruction that has no fault, and for which a random byte is there if it needs one, is carried
out to its end. -/
theorem execute_of_rolled {roll : UInt8} {s' : Source} (hi : i.InRange) (hf : m.fault? i = none)
    (hroll : rolled s i = (.ok roll, s')) : m.execute s i = ⟨none, m.apply i roll, s'⟩ := by
  have hcarry : m.carryOut roll i = (none, m.apply i roll) := by
    rw [carryOut_eq, hf]
  rw [execute_eq hi, hroll]
  simp [hcarry, Outcome.of]

theorem fault?_fetched (m : Machine) (word : UInt16) (i : Instruction ℕ) :
    (m.fetched word).fault? i = m.fault? i := by
  cases i <;> rfl

/-- The word at the program counter. -/
def opcode (m : Machine) : UInt16 :=
  m.memory.word m.pc.toNat

/-- The program counter is at the two bytes of an instruction. -/
def Reads (m : Machine) (i : Instruction ℕ) : Prop :=
  m.pc.toNat ≤ 0xffe ∧ i.InRange ∧ i.encode = m.opcode.toNat

theorem reads_iff :
    m.Reads i ↔ m.pc.toNat ≤ 0xffe ∧ Instruction.ofWord? m.opcode.toNat = some i := by
  rw [Instruction.ofWord?_eq_some_iff]
  rfl

theorem Reads.unique {j : Instruction ℕ} (hi : m.Reads i) (hj : m.Reads j) : i = j := by
  have h := (reads_iff.mp hi).2
  rw [(reads_iff.mp hj).2] at h
  exact (Option.some.inj h).symm

theorem readWord_of_le (h : m.pc.toNat ≤ 0xffe) :
    m.memory.readWord (m.pc.toNat : ℤ) = .ok m.opcode :=
  Memory.readWord_of_lt (show m.pc.toNat + 1 < 0x1000 by omega)

/-- A machine at a place in its program reads what the two bytes of the image encode there. -/
theorem reads_of_image_at {image : Array UInt8} {k : ℕ}
    (hm : m.memory = Memory.initial.withProgram image) (hpc : m.pc.toNat = 0x200 + k)
    (hk : k + 1 < Memory.maxProgram) (hi : i.InRange)
    (he : i.encode = (image[k]?.getD 0).toNat * 256 + (image[k + 1]?.getD 0).toNat) :
    m.Reads i := by
  have hsize : 0x200 + k + 1 < Memory.size := by
    simp only [Memory.maxProgram, Memory.size, Memory.programStart] at hk ⊢
    omega
  have hfirst : m.memory.get (0x200 + k) = image[k]?.getD 0 := by
    rw [hm, Memory.get_withProgram _ _ (by omega)]
    simp [Memory.programStart]
  have hsecond : m.memory.get (0x200 + k + 1) = image[k + 1]?.getD 0 := by
    rw [hm, Memory.get_withProgram _ _ hsize]
    simp [Memory.programStart, Nat.add_assoc]
  refine ⟨?_, hi, ?_⟩
  · simp only [Memory.size] at hsize
    omega
  · have hlt : i.encode < 0x10000 := by
      have := (image[k]?.getD 0).toNat_lt
      have := (image[k + 1]?.getD 0).toNat_lt
      omega
    rw [opcode, hpc, Memory.word, hfirst, hsecond, ← he, UInt16.toNat_ofNat_of_lt' hlt]

theorem reads_of_image {image : Array UInt8} (hm : m.memory = Memory.initial.withProgram image)
    (hpc : m.pc = 0x200) (hi : i.InRange)
    (he : i.encode = (image[0]?.getD 0).toNat * 256 + (image[1]?.getD 0).toNat) : m.Reads i := by
  have hstart : m.pc.toNat = 0x200 + 0 := by rw [hpc]; rfl
  exact reads_of_image_at hm hstart (by decide) hi he

/-- The fault of a word that means no instruction. -/
def unknownWord (m : Machine) : Fault :=
  .invalidOpcode (Float.ofNat m.opcode.toNat) (Float.ofNat m.pc.toNat)

def counted (m : Machine) : Machine :=
  { m with cycles := m.cycles + 1 }

/-- The ways in which a step ends. -/
inductive Stepped (m : Machine) (s : Source) : Outcome → Prop
  | refused {f : Fault} (hr : m.run = .halted f) : Stepped m s ⟨some (.fault (.halted f)), m, s⟩
  | polled {register : Register} (hr : m.run = .awaitingKey register) :
      Stepped m s ⟨none, m.pollKey register, s⟩
  | beyond {address : Float} (hr : m.run = .running) (hpc : 0xffe < m.pc.toNat) :
      Stepped m s
        ⟨some (.fault (.outOfBounds address .read)), m.halt (.outOfBounds address .read), s⟩
  | unknown (hr : m.run = .running) (hpc : m.pc.toNat ≤ 0xffe) (hi : ∀ i, ¬ m.Reads i) :
      Stepped m s ⟨some (.fault m.unknownWord), (m.fetched m.opcode).halt m.unknownWord, s⟩
  | faulted {i : Instruction ℕ} {f : Fault} (hr : m.run = .running) (hi : m.Reads i)
      (hf : m.fault? i = some f) :
      Stepped m s ⟨some (.fault f), (m.fetched m.opcode).halt f, s⟩
  | unrolled {i : Instruction ℕ} {e : Failure} {s' : Source} (hr : m.run = .running)
      (hi : m.Reads i) (he : rolled s i = (.error e, s')) :
      Stepped m s (settle ⟨some e, m.fetched m.opcode, s'⟩)
  | completed {i : Instruction ℕ} {roll : UInt8} {s' : Source} (hr : m.run = .running)
      (hi : m.Reads i) (hf : m.fault? i = none) (hroll : rolled s i = (.ok roll, s')) :
      Stepped m s ⟨none, ((m.fetched m.opcode).apply i roll).counted, s'⟩

theorem step_of_reads (hr : m.run = .running) (hi : m.Reads i) :
    m.step s = settle ((m.fetched m.opcode).execute s i) := by
  obtain ⟨hpc, hword⟩ := reads_iff.mp hi
  rw [step_of_running hr, fetchAndExecute_of_instruction (readWord_of_le hpc) hword]

theorem step_of_fault? {f : Fault} (hr : m.run = .running) (hi : m.Reads i)
    (hf : m.fault? i = some f) :
    m.step s = ⟨some (.fault f), (m.fetched m.opcode).halt f, s⟩ := by
  have hcarry : (m.fetched m.opcode).carryOut 0 i = (some f, m.fetched m.opcode) := by
    rw [carryOut_eq, fault?_fetched, hf]
  rw [step_of_reads hr hi, execute_eq hi.2.1, rolled_of_fault? hf]
  simp [hcarry, Outcome.of, settle]

theorem step_of_rolled {roll : UInt8} {s' : Source} (hr : m.run = .running) (hi : m.Reads i)
    (hf : m.fault? i = none) (hroll : rolled s i = (.ok roll, s')) :
    m.step s = ⟨none, ((m.fetched m.opcode).apply i roll).counted, s'⟩ := by
  have hexecute : (m.fetched m.opcode).execute s i = ⟨none, (m.fetched m.opcode).apply i roll, s'⟩ :=
    execute_of_rolled hi.2.1 (by rwa [fault?_fetched]) hroll
  rw [step_of_reads hr hi, hexecute]
  rfl

theorem stepped_of_reads (hr : m.run = .running) (hi : m.Reads i) : Stepped m s (m.step s) := by
  cases hf : m.fault? i with
  | some f =>
    rw [step_of_fault? hr hi hf]
    exact .faulted hr hi hf
  | none =>
    rcases hroll : rolled s i with ⟨e | roll, s'⟩
    · rw [step_of_reads hr hi, execute_eq hi.2.1, hroll]
      exact .unrolled hr hi hroll
    · rw [step_of_rolled hr hi hf hroll]
      exact .completed hr hi hf hroll

/-- There is no other way. -/
theorem stepped_step (m : Machine) (s : Source) : Stepped m s (m.step s) := by
  cases hr : m.run with
  | halted f =>
    rw [show m.step s = ⟨some (.fault (.halted f)), m, s⟩ by simp [step, hr]]
    exact .refused hr
  | awaitingKey register =>
    rw [show m.step s = ⟨none, m.pollKey register, s⟩ by simp [step, hr]]
    exact .polled hr
  | running =>
    by_cases hpc : m.pc.toNat ≤ 0xffe
    · cases hi : Instruction.ofWord? m.opcode.toNat with
      | none =>
        have hnot : ∀ i, ¬ m.Reads i := by
          intro i h
          have := (reads_iff.mp h).2
          simp [hi] at this
        have hstep : m.step s =
            ⟨some (.fault m.unknownWord), (m.fetched m.opcode).halt m.unknownWord, s⟩ := by
          simp [step_of_running hr, fetchAndExecute, readWord_of_le hpc, hi, settle, fetched,
            unknownWord]
        rw [hstep]
        exact .unknown hr hpc hnot
      | some i => exact stepped_of_reads hr (reads_iff.mpr ⟨hpc, hi⟩)
    · obtain ⟨address, hw⟩ := Memory.readWord_of_size_le (m := m.memory) (a := m.pc.toNat)
        (show 0x1000 ≤ m.pc.toNat + 1 by omega)
      rw [step_of_running hr, fetchAndExecute_of_error hw]
      exact .beyond hr (by omega)

end Machine

end Chip8
