import Chip8.Proofs.Machine.Sequence

/-! The interpreter's area at the bottom of memory, with the glyphs in it, is never written. -/
namespace Chip8

theorem Font.address_le (digit : ℕ) : address digit ≤ 75 := by
  simp only [address, base, glyphBytes]
  omega

namespace Memory

variable {m n : Memory} {a : ℕ}

/-- Everything below program space is as it was at first. -/
def Intact (m : Memory) : Prop :=
  ∀ a, a < programStart → m.get a = initialByte a

theorem lt_size_of_lt_programStart (h : a < programStart) : a < size :=
  Nat.lt_trans h (by decide)

theorem intact_initial : initial.Intact := by
  intro a ha
  rw [get_initial, if_pos (lt_size_of_lt_programStart ha)]

theorem Intact.set (h : m.Intact) (ha : programStart ≤ a) (b : UInt8) : (m.set a b).Intact := by
  intro c hc
  have hne : ¬ (a = c ∧ c < size) := by omega
  rw [get_set, if_neg hne]
  exact h c hc

theorem Intact.withProgram (h : m.Intact) (image : Array UInt8) : (m.withProgram image).Intact := by
  intro a ha
  rw [get_withProgram m image (lt_size_of_lt_programStart ha), if_pos ha]
  exact h a ha

/-- A write at any number at all is refused, or it lands in program space. -/
theorem Intact.writeByte {α : Type} [Scalar α] {address : α} {b : UInt8} (h : m.Intact)
    (hw : m.writeByte address b = .ok n) : n.Intact := by
  unfold Memory.writeByte at hw
  cases hl : locate address .write with
  | error f => simp [hl] at hw
  | ok a =>
    unfold checkWritable at hw
    by_cases hp : a < programStart
    · simp [hl, hp] at hw
    · obtain rfl : m.set a b = n := by simpa [hl, hp, pure, Except.pure] using hw
      exact h.set (Nat.le_of_not_lt hp) b

theorem Intact.withProgram? {image : Array UInt8} (h : m.Intact)
    (hw : m.withProgram? image = .ok n) : n.Intact := by
  unfold Memory.withProgram? at hw
  split at hw
  · cases hw
  · obtain rfl := Except.ok.inj hw
    exact h.withProgram image

theorem Intact.load_eq (h : m.Intact) :
    m.load 0 programStart = Font.glyphs.flatten ++ List.replicate 432 0 := by
  have hinitial : (List.range programStart).map initialByte =
      Font.glyphs.flatten ++ List.replicate 432 0 := by decide +kernel
  rw [← hinitial]
  apply List.map_congr_left
  intro a ha
  rw [Nat.zero_add]
  exact h a (List.mem_range.mp ha)

theorem glyph_eq (digit : Fin 16) :
    Font.glyphs[digit.val]? =
      some ((List.range Font.glyphBytes).map fun i => initialByte (Font.address digit.val + i)) := by
  revert digit
  decide

theorem Intact.readBytes_address (h : m.Intact) (digit : ℕ) :
    ∃ glyph, Font.glyphs[digit % 16]? = some glyph ∧
      m.readBytes (Font.address digit) Font.glyphBytes = .ok glyph := by
  have hmod : digit % 16 < 16 := Nat.mod_lt _ (by decide)
  have haddress : Font.address (digit % 16) = Font.address digit := by simp [Font.address]
  have hle : Font.address digit + Font.glyphBytes ≤ 80 :=
    Nat.add_le_add_right (Font.address_le digit) 5
  refine ⟨_, glyph_eq ⟨digit % 16, hmod⟩, ?_⟩
  rw [readBytes_of_le (hle.trans (by decide)), haddress]
  congr 1
  apply List.map_congr_left
  intro i hi
  have hlt : Font.address digit + i < programStart :=
    Nat.lt_of_lt_of_le (Nat.add_lt_add_left (List.mem_range.mp hi) _) (hle.trans (by decide))
  exact h _ hlt

end Memory

namespace Machine

variable {m : Machine} {s : Source}

section Operands

variable {α : Type} [Scalar α]

theorem intact_writeBytes (h : m.memory.Intact) (a : ℕ) (bs : List UInt8) :
    (m.writeBytes a bs).2.memory.Intact := by
  induction bs generalizing m a with
  | nil => exact h
  | cons b bs ih =>
    rw [writeBytes]
    cases hw : m.memory.writeByte a b with
    | error f => exact h
    | ok memory => exact ih (m := { m with memory }) (h.writeByte hw) (a + 1)

theorem memory_readRegisters (m : Machine) (a x n : ℕ) :
    (m.readRegisters a x n).2.memory = m.memory := by
  induction n generalizing m a x with
  | zero => rfl
  | succ n ih =>
    rw [readRegisters]
    cases m.memory.readByte a with
    | error f => rfl
    | ok b => exact ih (m.setReg x b) (a + 1) (x + 1)

theorem memory_moveIndex (m : Machine) (x : α) : (m.moveIndex x).memory = m.memory := by
  unfold moveIndex
  split <;> rfl

theorem memory_assign (m : Machine) (r : Register) (b : UInt8) :
    (m.assign r b).memory = m.memory := by
  obtain ⟨_, h⟩ := assign_eq m r b
  rw [h]

theorem memory_effect (m : Machine) (roll : UInt8) (i : Instruction α) :
    (m.effect roll i).memory = m.memory := by
  cases i with
  | setByte x nn => exact memory_assign m _ _
  | addByte x nn => exact memory_assign m _ _
  | random x nn => exact memory_assign m _ _
  | readDelay x => exact memory_assign m _ _
  | arith op x y =>
    obtain ⟨_, h⟩ := arith_eq m op (.of x) (.of y)
    exact (congrArg memory h :)
  | addIndex x =>
    obtain ⟨_, h⟩ := addToIndex_eq m (.of x)
    exact (congrArg memory h :)
  | _ => rfl

theorem intact_goOn {o : Option Fault × Machine} {next : Machine → Option Fault × Machine}
    (h : o.2.memory.Intact) (hnext : ∀ m, m.memory.Intact → (next m).2.memory.Intact) :
    (goOn o next).2.memory.Intact := by
  obtain ⟨_ | f, m⟩ := o
  · exact hnext m h
  · exact h

theorem intact_checked {length : α} {access : Access} {next : Machine → Option Fault × Machine}
    (h : m.memory.Intact) (hnext : (next m).2.memory.Intact) :
    (m.checked length access next).2.memory.Intact := by
  unfold checked
  split
  · exact hnext
  · exact h

/-- Whatever its operands, an instruction writes byte by byte, each with its own check. -/
theorem intact_perform (h : m.memory.Intact) (roll : UInt8) (i : Instruction α) :
    (m.perform roll i).2.memory.Intact := by
  have heffect (i : Instruction α) : (m.effect roll i).memory.Intact := by
    rwa [memory_effect]
  have hmove (x : α) (m : Machine) (h : m.memory.Intact) : (m.moveIndex x).memory.Intact := by
    rwa [memory_moveIndex]
  cases i with
  | ret =>
    rw [perform]
    cases m.stack.pop? <;> exact h
  | call nnn =>
    rw [perform]
    cases m.stack.push? (UInt16.ofNat m.returnAddress) <;> exact h
  | draw x y n =>
    rw [perform]
    cases m.memory.readBytes m.index.toNat (Scalar.count n) with
    | error f => exact h
    | ok bytes =>
      obtain ⟨_, _, hd, _⟩ := drawSprite_eq m (.of x) (.of y) (bytes.take (Scalar.toInt n).toNat)
      simpa only [hd] using h
  | machineCall nnn => exact h
  | skipIfKey x => exact h
  | skipUnlessKey x => exact h
  | storeDecimal x => exact intact_checked h (intact_writeBytes h _ _)
  | store x => exact intact_checked h (intact_goOn (intact_writeBytes h _ _) (hmove x))
  | load x =>
    refine intact_checked h (intact_goOn ?_ (hmove x))
    rwa [memory_readRegisters]
  | _ => exact heffect _

theorem intact_execute (h : m.memory.Intact) (s : Source) (i : Instruction α) :
    (m.execute s i).machine.memory.Intact := by
  have hcarry (roll : UInt8) : (m.carryOut roll i).2.memory.Intact :=
    intact_goOn (intact_perform h roll i) fun _ h => h
  unfold execute
  cases rowsFailure? i with
  | some f => exact h
  | none =>
    cases i with
    | random x nn =>
      simp only
      rcases s.next with ⟨e | x, s⟩
      · exact h
      · exact hcarry _
    | _ => exact hcarry 0

end Operands

theorem memory_settle (o : Outcome) : (settle o).machine.memory = o.machine.memory := by
  rcases o with ⟨_ | e, m, s⟩
  · rfl
  · cases e <;> rfl

theorem intact_step (h : m.memory.Intact) (s : Source) : (m.step s).machine.memory.Intact := by
  cases hr : m.run with
  | halted f => simpa [step, hr] using h
  | awaitingKey register =>
    rcases pollKey_cases m register with hp | ⟨_, _, hp⟩ <;> simpa [step, hr, hp] using h
  | running =>
    rw [step_of_running hr]
    unfold fetchAndExecute
    cases m.memory.readWord (m.pc.toNat : ℤ) with
    | error f => simpa only [memory_settle] using h
    | ok word =>
      simp only
      split
      · simpa only [memory_settle] using h
      · rw [memory_settle]
        exact intact_execute (m := { m with lastPc := m.pc, lastOpcode := word }) h s _

theorem intact_powerOn (dialect : Dialect) (cartridge : Option Cartridge) :
    (powerOn dialect cartridge).memory.Intact := by
  cases cartridge with
  | none => exact Memory.intact_initial
  | some c => exact Memory.intact_initial.withProgram c.image

/-- The digit is taken from the low four bits of the register. -/
theorem readBytes_apply_pointGlyph (h : m.memory.Intact) (x : Fin 16) (roll : UInt8) :
    let q := m.apply (.pointGlyph x.val) roll
    ∃ glyph, Font.glyphs[(m.reg x).toNat % 16]? = some glyph ∧
      q.memory.readBytes q.index.toNat Font.glyphBytes = .ok glyph := by
  intro q
  have hindex : q.index = UInt16.ofNat (Font.address (m.reg x).toNat) := by
    change UInt16.ofNat (Font.address (m.read (.of x.val)).toNat) = _
    rw [m.read_of_lt x.isLt]
  have haddress : q.index.toNat = Font.address (m.reg x).toNat := by
    rw [hindex]
    exact UInt16.toNat_ofNat_of_lt' (Nat.lt_of_le_of_lt (Font.address_le _) (by decide))
  rw [haddress]
  exact h.readBytes_address _

end Machine

end Chip8
