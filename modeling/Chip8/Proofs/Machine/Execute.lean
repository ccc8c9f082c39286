import Chip8.Proofs.Machine.Accesses

/-! An instruction as a whole: a fault and nothing else, or no fault and all that it does. -/
namespace Chip8.Machine

variable {m : Machine} {a n : ℕ} {bs : List UInt8}

/-- Sets the registers from `x` on; behind the last one nothing is kept. -/
def setRegisters (m : Machine) (x : ℕ) : List UInt8 → Machine
  | [] => m
  | b :: bs => (m.setReg x b).setRegisters (x + 1) bs

/-- The fault of an access to `length` bytes from the index on. -/
def rangeFault? (m : Machine) (length : ℕ) (access : Access) : Option Fault :=
  match Memory.checkSpan m.index.toNat length access with
  | .ok () => none
  | .error f => some f

/-- A sprite is read row by row, so the fault names the first row that is not there. -/
def spriteFault? (m : Machine) (rows : ℕ) : Option Fault :=
  if rows = 0 ∨ m.index.toNat + rows ≤ Memory.size then none
  else some (.outOfBounds (Float.ofNat (max m.index.toNat Memory.size)) .read)

/-- The fault that an instruction ends in, if it does. -/
def fault? (m : Machine) : Instruction ℕ → Option Fault
  | .ret => m.stack.popFault?
  | .machineCall nnn => some (.unsupportedInstruction (Float.ofNat nnn) (Float.ofNat m.pc.toNat))
  | .call _ => m.stack.pushFault?
  | .draw _ _ n => m.spriteFault? n
  | .skipIfKey x => m.keyFault? (.of x)
  | .skipUnlessKey x => m.keyFault? (.of x)
  | .storeDecimal _ => m.rangeFault? 3 .write
  | .store x => m.rangeFault? (x + 1) .write
  | .load x => m.rangeFault? (x + 1) .read
  | _ => none

/-- What an instruction that has no fault does to everything but the program counter. -/
def completed (m : Machine) (roll : UInt8) : Instruction ℕ → Machine
  | .ret => { m with stack := m.stack.pop }
  | .call _ => { m with stack := m.stack.push (UInt16.ofNat m.returnAddress) }
  | .draw x y n => m.drawSprite (.of x) (.of y) (m.memory.load m.index.toNat n)
  | .storeDecimal x =>
    { m with memory := m.memory.store m.index.toNat (decimalDigits (m.read (.of x))) }
  | .store x =>
    { m with memory := m.memory.store m.index.toNat (m.firstRegisters (x + 1)) }.moveIndex x
  | .load x => (m.setRegisters 0 (m.memory.load m.index.toNat (x + 1))).moveIndex x
  | i => m.effect roll i

/-- The machine after an instruction that has no fault. -/
def apply (m : Machine) (i : Instruction ℕ) (roll : UInt8) : Machine :=
  { m.completed roll i with pc := UInt16.ofNat (m.nextAddress i) }

/-! Rows of accesses after their check. -/

theorem writeBytes_of_le (hl : Memory.programStart ≤ a) (h : a + bs.length ≤ Memory.size) :
    m.writeBytes a bs = (none, { m with memory := m.memory.store a bs }) := by
  induction bs generalizing m a with
  | nil => rfl
  | cons b bs ih =>
    rw [List.length_cons] at h
    have hb := Memory.writeByte_of_lt (m := m.memory) hl (by omega) b
    have hr := ih (m := { m with memory := m.memory.set a b }) (a := a + 1) (by omega) (by omega)
    rw [writeBytes, hb]
    exact hr

theorem readRegisters_of_le (h : a + n ≤ Memory.size) (x : ℕ) :
    m.readRegisters a x n = (none, m.setRegisters x (m.memory.load a n)) := by
  induction n generalizing m a x with
  | zero => rfl
  | succ n ih =>
    have hb := Memory.readByte_of_lt (m := m.memory) (a := a) (by omega)
    have hr := ih (m := m.setReg x (m.memory.get a)) (a := a + 1) (by omega) (x + 1)
    rw [readRegisters, hb, Memory.load_succ]
    exact hr

/-- Behind a check that goes well, a row of accesses that comes to an end for every checked range
comes to its end. -/
theorem checked_eq {access : Access} {next : Machine → Option Fault × Machine} {q : Machine}
    (hnext : m.index.toNat + (n + 1) ≤ Memory.size →
      (access = .write → Memory.programStart ≤ m.index.toNat) → next m = (none, q)) :
    m.checked (n + 1) access next =
      match m.rangeFault? (n + 1) access with
      | some f => (some f, m)
      | none => (none, q) := by
  simp only [checked, rangeFault?, Scalar.ofNat_nat]
  cases h : Memory.checkSpan m.index.toNat (n + 1) access with
  | error f => rfl
  | ok u =>
    obtain ⟨hle, hl⟩ := Memory.checkSpan_succ_eq_ok_iff.mp h
    exact hnext hle hl

/-! Instructions. -/

theorem perform_draw (roll : UInt8) (x y n : ℕ) :
    m.perform roll (.draw x y n) =
      match m.spriteFault? n with
      | some f => (some f, m)
      | none => (none, m.completed roll (.draw x y n)) := by
  by_cases h : n = 0 ∨ m.index.toNat + n ≤ Memory.size
  · have hread : m.memory.readBytes m.index.toNat n = .ok (m.memory.load m.index.toNat n) := by
      rcases h with rfl | h
      · rfl
      · exact Memory.readBytes_of_le h
    have htake : (m.memory.load m.index.toNat n).take n = m.memory.load m.index.toNat n :=
      List.take_of_length_le (by simp)
    simp [perform, spriteFault?, completed, hread, htake, h]
  · rw [not_or, not_le] at h
    have hread := Memory.readBytes_of_size_lt (m := m.memory) h.1 h.2
    have hn : ¬ m.index.toNat + n ≤ Memory.size := by omega
    simp [perform, spriteFault?, hread, h.1, hn]

theorem perform_storeDecimal (roll : UInt8) (x : ℕ) :
    m.perform roll (.storeDecimal x) =
      match m.rangeFault? 3 .write with
      | some f => (some f, m)
      | none => (none, m.completed roll (.storeDecimal x)) := by
  apply checked_eq
  intro hle hl
  exact writeBytes_of_le (hl rfl) hle

theorem perform_store (roll : UInt8) (x : ℕ) :
    m.perform roll (.store x) =
      match m.rangeFault? (x + 1) .write with
      | some f => (some f, m)
      | none => (none, m.completed roll (.store x)) := by
  apply checked_eq
  intro hle hl
  have hlength : (m.firstRegisters (x + 1)).length = x + 1 := by simp [firstRegisters]
  have hw := writeBytes_of_le (m := m) (hl rfl) (by rwa [← hlength] at hle)
  rw [Scalar.countUpTo_nat, hw]
  rfl

theorem perform_load (roll : UInt8) (x : ℕ) :
    m.perform roll (.load x) =
      match m.rangeFault? (x + 1) .read with
      | some f => (some f, m)
      | none => (none, m.completed roll (.load x)) := by
  apply checked_eq
  intro hle _
  rw [Scalar.countUpTo_nat, readRegisters_of_le hle]
  rfl

/-- Everything that can go wrong does so before anything is changed. -/
theorem perform_eq (m : Machine) (roll : UInt8) (i : Instruction ℕ) :
    m.perform roll i =
      match m.fault? i with
      | some f => (some f, m)
      | none => (none, m.completed roll i) := by
  cases i with
  | ret =>
    simp only [perform, fault?, Stack.pop?]
    cases m.stack.popFault? <;> rfl
  | call nnn =>
    simp only [perform, fault?, Stack.push?]
    cases m.stack.pushFault? <;> rfl
  | draw x y n => exact perform_draw roll x y n
  | skipIfKey x =>
    simp only [perform, fault?]
    cases m.keyFault? (.of x) <;> rfl
  | skipUnlessKey x =>
    simp only [perform, fault?]
    cases m.keyFault? (.of x) <;> rfl
  | storeDecimal x => exact perform_storeDecimal roll x
  | store x => exact perform_store roll x
  | load x => exact perform_load roll x
  | _ => rfl

theorem carryOut_eq (m : Machine) (roll : UInt8) (i : Instruction ℕ) :
    m.carryOut roll i =
      match m.fault? i with
      | some f => (some f, m)
      | none => (none, m.apply i roll) := by
  unfold carryOut
  rw [perform_eq, Scalar.toWord16_nat]
  cases m.fault? i <;> rfl

end Chip8.Machine
