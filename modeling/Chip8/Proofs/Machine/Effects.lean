import Chip8.Proofs.Machine.Bounds
import Chip8.Proofs.Machine.Footprint
import Chip8.Proofs.Machine.Index
import Chip8.Proofs.Machine.Registers

/-! What a step that does not fail may change, part by part, and for the sake of which instruction. -/
namespace Chip8

namespace Instruction

/-- The instructions that put something into the index. Blocks of registers do so where the dialect
says so. -/
def MovesIndex (d : Dialect) : Instruction ℕ → Prop
  | setIndex _ => True
  | addIndex _ => True
  | pointGlyph _ => True
  | store _ => d.blocksMoveIndex = true
  | load _ => d.blocksMoveIndex = true
  | _ => False

/-- The instructions that name the address to go on at. -/
def Transfers : Instruction ℕ → Prop
  | ret => True
  | jump _ => True
  | call _ => True
  | jumpOffset _ => True
  | _ => False

/-- The instructions that may leave out the next one. -/
def Skips : Instruction ℕ → Prop
  | skipIfByte _ _ => True
  | skipUnlessByte _ _ => True
  | skipIfSame _ _ => True
  | skipUnlessSame _ _ => True
  | skipIfKey _ => True
  | skipUnlessKey _ => True
  | _ => False

end Instruction

namespace Machine

variable {m q : Machine} {s s' : Source} {i : Instruction ℕ} {register : Register} {a k : ℕ}
  {roll : UInt8}

/-! The parts behind an instruction. -/

theorem memory_apply_ne (h : (m.apply i roll).memory.get a ≠ m.memory.get a) :
    (∃ x, i = .storeDecimal x ∧ m.index.toNat ≤ a ∧ a ≤ m.index.toNat + 2) ∨
      ∃ x, i = .store x ∧ m.index.toNat ≤ a ∧ a ≤ m.index.toNat + x := by
  rw [memory_apply, memoryAfter_eq] at h
  have hin : m.index.toNat ≤ a ∧ a < m.index.toNat + (m.stored i).length := by
    by_contra hout
    exact h (Memory.get_store_of_outside (by omega))
  cases i with
  | storeDecimal x =>
    have hlength : (m.stored (.storeDecimal x)).length = 3 := rfl
    exact .inl ⟨x, rfl, by omega⟩
  | store x =>
    have hlength : (m.stored (.store x)).length = x + 1 := by simp [stored, firstRegisters]
    exact .inr ⟨x, rfl, by omega⟩
  | _ => exact absurd hin (by simp [stored])

theorem display_apply_ne (h : (m.apply i roll).display ≠ m.display) :
    i = .clear ∨ ∃ x y n, i = .draw x y n := by
  rw [display_apply] at h
  by_contra hnot
  rw [not_or] at hnot
  exact h (displayAfter_of_other hnot.1 fun x y n hi => hnot.2 ⟨x, y, n, hi⟩)

theorem delay_apply_ne (h : (m.apply i roll).timers.delay ≠ m.timers.delay) :
    ∃ x, i = .setDelay x := by
  rw [timers_apply] at h
  cases i with
  | setDelay x => exact ⟨x, rfl⟩
  | _ => exact absurd rfl h

theorem sound_apply_ne (h : (m.apply i roll).timers.sound ≠ m.timers.sound) :
    ∃ x, i = .setSound x := by
  rw [timers_apply] at h
  cases i with
  | setSound x => exact ⟨x, rfl⟩
  | _ => exact absurd rfl h

theorem latched_apply_ne (h : (m.apply i roll).keypad.latched ≠ m.keypad.latched) :
    ∃ x, i = .waitKey x := by
  rw [keypad_apply] at h
  cases i with
  | waitKey x => exact ⟨x, rfl⟩
  | _ => exact absurd rfl h

theorem stack_apply_ne (h : (m.apply i roll).stack ≠ m.stack) :
    i = .ret ∨ ∃ nnn, i = .call nnn := by
  rw [stack_apply] at h
  cases i with
  | ret => exact .inl rfl
  | call nnn => exact .inr ⟨nnn, rfl⟩
  | _ => exact absurd rfl h

theorem wideAfter_of_not_movesIndex (h : ¬ i.MovesIndex m.dialect) (n : ℕ) :
    m.wideAfter n i = n := by
  cases i with
  | setIndex | addIndex | pointGlyph => exact absurd trivial h
  | store | load => exact if_neg h
  | _ => rfl

theorem index_apply_ne (hi : i.InRange) (h : (m.apply i roll).index ≠ m.index) :
    i.MovesIndex m.dialect := by
  by_contra hnot
  have hindex := index_apply hi (toNat_index_mod m) roll
  rw [wideAfter_of_not_movesIndex hnot, ← toNat_index_mod] at hindex
  exact h (UInt16.toNat_inj.mp hindex)

theorem reg_apply_ne (hi : i.InRange) (h : (m.apply i roll).reg k ≠ m.reg k) :
    i.Targets k ∨ k = 15 ∧ i.Flags m.dialect := by
  by_contra hnot
  rw [not_or, not_and] at hnot
  exact h (reg_completed hi hnot.1 hnot.2 roll)

theorem nextAddress_eq (ht : ¬ i.Transfers) (hw : ∀ x, i ≠ .waitKey x) :
    m.nextAddress i = m.pc.toNat + 2 ∨ i.Skips ∧ m.nextAddress i = m.pc.toNat + 4 := by
  have hskip (skip : Bool) :
      m.skipTo skip = m.pc.toNat + 2 ∨ m.skipTo skip = m.pc.toNat + 4 := by
    cases skip
    · exact .inl rfl
    · exact .inr rfl
  cases i with
  | ret | jump | call | jumpOffset => exact absurd trivial ht
  | waitKey x => exact absurd rfl (hw x)
  | skipIfByte | skipUnlessByte | skipIfSame | skipUnlessSame | skipIfKey | skipUnlessKey =>
    exact (hskip _).imp_right fun h => ⟨trivial, h⟩
  | _ => exact .inl rfl

/-- From where an instruction can be read, neither of the two next addresses is cut. -/
theorem pc_apply (hpc : m.pc.toNat ≤ 0xffe) (ht : ¬ i.Transfers) (hw : ∀ x, i ≠ .waitKey x)
    (roll : UInt8) :
    (m.apply i roll).pc.toNat = m.pc.toNat + 2 ∨
      i.Skips ∧ (m.apply i roll).pc.toNat = m.pc.toNat + 4 := by
  have hnext := nextAddress_eq (m := m) ht hw
  have hlt : m.nextAddress i < 2 ^ 16 := by omega
  have hpcNext : (m.apply i roll).pc.toNat = m.nextAddress i := UInt16.toNat_ofNat_of_lt' hlt
  rwa [hpcNext]

/-! Steps. -/

/-- The next step executes the instruction. -/
def Executes (m : Machine) (i : Instruction ℕ) : Prop :=
  m.run = .running ∧ m.Reads i

/-- The next step looks at the keypad for the key that the register awaits, and there is one. -/
def Answered (m : Machine) (register : Register) : Prop :=
  m.run = .awaitingKey register ∧ ∃ k, m.keypad.Latched k

/-- What a step that leads from `m` to `q` and takes the source from `s` to `s'` may change. A step
that does not execute an instruction looks at the keypad for the key that is awaited. -/
structure Footprint (m : Machine) (s : Source) (q : Machine) (s' : Source) : Prop where
  executes : m.isAwaitingKey = false → ∃ i, m.Executes i
  memory : ∀ a, q.memory.get a ≠ m.memory.get a →
    (∃ x, m.Executes (.storeDecimal x) ∧ m.index.toNat ≤ a ∧ a ≤ m.index.toNat + 2) ∨
      ∃ x, m.Executes (.store x) ∧ m.index.toNat ≤ a ∧ a ≤ m.index.toNat + x
  display : q.display ≠ m.display → m.Executes .clear ∨ ∃ x y n, m.Executes (.draw x y n)
  delay : q.timers.delay ≠ m.timers.delay → ∃ x, m.Executes (.setDelay x)
  sound : q.timers.sound ≠ m.timers.sound → ∃ x, m.Executes (.setSound x)
  held : q.keypad.held = m.keypad.held
  latched : q.keypad.latched ≠ m.keypad.latched →
    (∃ x, m.Executes (.waitKey x)) ∨ ∃ register, m.Answered register
  stack : q.stack ≠ m.stack → m.Executes .ret ∨ ∃ nnn, m.Executes (.call nnn)
  index : q.index ≠ m.index → ∃ i, m.Executes i ∧ i.MovesIndex m.dialect
  registers : ∀ k : Fin 16, q.reg k ≠ m.reg k →
    (∃ i, m.Executes i ∧ (i.Targets k ∨ k = 15 ∧ i.Flags m.dialect)) ∨ m.Answered (.known k)
  source_random : ∀ x nn, m.Executes (.random x nn) → s' = { s with used := s.used + 1 }
  source_other : (∀ x nn, ¬ m.Executes (.random x nn)) → s' = s
  pc_next : ∀ i, m.Executes i → ¬ i.Transfers → (∀ x, i ≠ .waitKey x) →
    q.pc.toNat = m.pc.toNat + 2 ∨ i.Skips ∧ q.pc.toNat = m.pc.toNat + 4
  pc_waiting : ∀ x, m.Executes (.waitKey x) → q.pc = m.pc
  pc_answered : ∀ register, m.Answered register → q.run = .running ∧ q.pc = m.pc + 2
  pc_unanswered : m.isAwaitingKey = true → (∀ register, ¬ m.Answered register) → q.pc = m.pc

theorem Executes.unique {j : Instruction ℕ} (hi : m.Executes i) (hj : m.Executes j) : i = j :=
  hi.2.unique hj.2

theorem not_executes (hr : m.run = .awaitingKey register) : ¬ m.Executes i := by
  rintro ⟨hrunning, _⟩
  rw [hr] at hrunning
  cases hrunning

theorem footprint_executed (he : m.Executes i) (hroll : rolled s i = (.ok roll, s')) :
    Footprint m s ((m.fetched m.opcode).apply i roll).counted s' where
  -- Neither the fetch nor the count touches a part that is named here, so what the instruction
  -- changes in the fetched machine it changes in `m`.
  executes _ := ⟨i, he⟩
  memory a h := by
    obtain ⟨x, rfl, ha⟩ | ⟨x, rfl, ha⟩ := memory_apply_ne (m := m.fetched m.opcode) h
    · exact .inl ⟨x, he, ha⟩
    · exact .inr ⟨x, he, ha⟩
  display h := by
    obtain rfl | ⟨x, y, n, rfl⟩ := display_apply_ne (m := m.fetched m.opcode) h
    · exact .inl he
    · exact .inr ⟨x, y, n, he⟩
  delay h := by
    obtain ⟨x, rfl⟩ := delay_apply_ne (m := m.fetched m.opcode) h
    exact ⟨x, he⟩
  sound h := by
    obtain ⟨x, rfl⟩ := sound_apply_ne (m := m.fetched m.opcode) h
    exact ⟨x, he⟩
  held := held_apply (m.fetched m.opcode) i roll
  latched h := by
    obtain ⟨x, rfl⟩ := latched_apply_ne (m := m.fetched m.opcode) h
    exact .inl ⟨x, he⟩
  stack h := by
    obtain rfl | ⟨nnn, rfl⟩ := stack_apply_ne (m := m.fetched m.opcode) h
    · exact .inl he
    · exact .inr ⟨nnn, he⟩
  index h := ⟨i, he, index_apply_ne (m := m.fetched m.opcode) he.2.2.1 h⟩
  registers k h := by
    have hchanged := reg_apply_ne (m := m.fetched m.opcode) he.2.2.1 h
    exact .inl ⟨i, he, hchanged.imp_right fun hflag => ⟨Fin.ext hflag.1, hflag.2⟩⟩
  source_random x nn hx := by
    obtain rfl := he.unique hx
    exact (congrArg Prod.snd hroll).symm
  source_other h := by
    cases i with
    | random x nn => exact absurd he (h x nn)
    | _ => exact (congrArg Prod.snd hroll).symm
  pc_next j hj ht hw := by
    obtain rfl := he.unique hj
    exact pc_apply (m := m.fetched m.opcode) he.2.1 ht hw roll
  pc_waiting x hx := by
    obtain rfl := he.unique hx
    exact UInt16.ofNat_toNat
  pc_answered _ ha := absurd he (not_executes ha.1)
  pc_unanswered h := by simp [isAwaitingKey, he.1] at h

/-- A look at the keypad has the footprint of a step if what it does to the registers, the latch and
the program counter comes from a key that it finds. -/
theorem footprint_awaiting {registers : Vector UInt8 16} {latched : BitVec 16} {pc : UInt16}
    {run : RunState}
    (hq : q = { m with registers, keypad := { m.keypad with latched }, pc, run })
    (hr : m.run = .awaitingKey register)
    (hregisters : ∀ k : Fin 16, q.reg k ≠ m.reg k → m.Answered (.known k))
    (hlatched : latched ≠ m.keypad.latched → m.Answered register)
    (hanswered : m.Answered register → run = .running ∧ pc = m.pc + 2)
    (hunanswered : ¬ m.Answered register → pc = m.pc) (s : Source) : Footprint m s q s := by
  subst hq
  exact {
    executes := fun h => by simp [isAwaitingKey, hr] at h
    memory := fun _ h => absurd rfl h
    display := fun h => absurd rfl h
    delay := fun h => absurd rfl h
    sound := fun h => absurd rfl h
    held := rfl
    latched := fun h => .inr ⟨register, hlatched h⟩
    stack := fun h => absurd rfl h
    index := fun h => absurd rfl h
    registers := fun k h => .inr (hregisters k h)
    source_random := fun _ _ hx => absurd hx (not_executes hr)
    source_other := fun _ => rfl
    pc_next := fun _ hi => absurd hi (not_executes hr)
    pc_waiting := fun _ hx => absurd hx (not_executes hr)
    pc_answered := fun _ ha => hanswered ⟨hr, ha.2⟩
    pc_unanswered := fun _ hnot => hunanswered (hnot register) }

theorem reg_assign_ne {r : Register} {b : UInt8} {k : Fin 16}
    (h : (m.assign r b).reg k ≠ m.reg k) : r = .known k := by
  cases r with
  | known j =>
    by_contra hne
    have hjk : j.val ≠ k.val := fun hjk => hne (congrArg Register.known (Fin.ext hjk))
    exact h (reg_setReg_of_ne m hjk b)
  | stray x => exact absurd rfl h

theorem footprint_pollKey (hr : m.run = .awaitingKey register) (s : Source) :
    Footprint m s (m.pollKey register) s := by
  rcases pollKey_eq m register with ⟨hnone, hp⟩ | ⟨key, hkey, hp⟩
  · have hnot : ¬ m.Answered register := fun ha => ha.2.elim hnone
    rw [hp]
    exact footprint_awaiting rfl hr (fun _ h => absurd rfl h) (fun h => absurd rfl h)
      (fun ha => absurd ha hnot) (fun _ => rfl) s
  · have ha : m.Answered register := ⟨hr, key, hkey⟩
    have hpc : UInt16.ofNat (m.pc.toNat + 2) = m.pc + 2 := by
      rw [UInt16.ofNat_add, UInt16.ofNat_toNat]
      rfl
    have hregisters (k : Fin 16) (h : (m.pollKey register).reg k ≠ m.reg k) :
        m.Answered (.known k) := by
      rw [hp] at h
      exact reg_assign_ne h ▸ ha
    obtain ⟨registers, hassign⟩ := assign_eq m register (UInt8.ofNat key.val)
    rw [hassign] at hp
    exact footprint_awaiting (m := m) hp hr hregisters (fun _ => ha) (fun _ => ⟨rfl, hpc⟩)
      (fun hnot => absurd ha hnot) s

/-- A step that does not fail leaves everything alone but for what the instruction that it executes,
or the key that it finds, is there to change. -/
theorem step_footprint (h : (m.step s).failure? = none) :
    Footprint m s (m.step s).machine (m.step s).source := by
  have hstepped := stepped_step m s
  generalize m.step s = o at h hstepped ⊢
  cases hstepped with
  | refused => cases h
  | polled hr => exact footprint_pollKey hr s
  | beyond => cases h
  | unknown => cases h
  | faulted => cases h
  | unrolled => simp [failure?_settle] at h
  | completed hr hi hf hroll => exact footprint_executed ⟨hr, hi⟩ hroll

/-- A machine that is to load its own program into its first registers and to move its index behind
it. -/
def filling : Machine :=
  { powerOn ⟨true, false, false⟩ (some ⟨#[0xf1, 0x65], "fill", by decide, by decide⟩) with
    index := 0x200 }

theorem step_footprint_filling :
    (filling.step (.seeded 0)).failure? = none ∧
      (filling.step (.seeded 0)).machine.index = 0x202 ∧
      Footprint filling (.seeded 0) (filling.step (.seeded 0)).machine
        (filling.step (.seeded 0)).source := by
  have hi : (Instruction.load 1).InRange := show 1 < 16 by decide
  have hreads : filling.Reads (.load 1) := reads_of_image rfl rfl hi (by decide)
  have hstep : filling.step (.seeded 0) =
      ⟨none, ((filling.fetched filling.opcode).apply (.load 1) 0).counted, .seeded 0⟩ :=
    step_of_rolled rfl hreads rfl rfl
  have hnone : (filling.step (.seeded 0)).failure? = none := by rw [hstep]
  refine ⟨hnone, ?_, step_footprint hnone⟩
  rw [hstep]
  rfl

end Machine

end Chip8
