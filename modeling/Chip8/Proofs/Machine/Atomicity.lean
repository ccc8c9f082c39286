import Chip8.Machine.Step
import Chip8.Proofs.Machine.Execute

/-! What a step that fails leaves behind. -/
namespace Chip8.Machine

variable {m q : Machine} {s : Source} {i : Instruction ℕ} {e : Failure}

/-- The same machine but for its run state and for what was fetched last. -/
structure Same (m q : Machine) : Prop where
  memory : q.memory = m.memory
  registers : q.registers = m.registers
  index : q.index = m.index
  pc : q.pc = m.pc
  stack : q.stack = m.stack
  display : q.display = m.display
  timers : q.timers = m.timers
  keypad : q.keypad = m.keypad
  cycles : q.cycles = m.cycles
  dialect : q.dialect = m.dialect
  cartridge : q.cartridge = m.cartridge

/-- The last fetch is noted, if it went well. -/
def Traced (m q : Machine) : Prop :=
  match m.memory.readWord (m.pc.toNat : ℤ) with
  | .ok word => q.lastPc = m.pc ∧ q.lastOpcode = word
  | .error _ => q.lastPc = m.lastPc ∧ q.lastOpcode = m.lastOpcode

/-- A fault halts the machine. A failure of the random source leaves it running, and a further step
does what this one would have done. -/
def HaltsOrResumes (m : Machine) (s : Source) (e : Failure) (q : Machine) : Prop :=
  (∃ f, e = .fault f ∧ q.run = .halted f) ∨
    (∀ f, e ≠ .fault f) ∧ s.results s.used = .error e ∧ q.run = .running ∧
      ∀ s', q.step s' = m.step s'

theorem of_carryOut_failure {roll : UInt8}
    (h : (Outcome.of (m.carryOut roll i) s).failure? = some e) :
    (Outcome.of (m.carryOut roll i) s).machine = m ∧ ∃ f, m.fault? i = some f ∧ e = .fault f := by
  rw [carryOut_eq] at h ⊢
  cases hf : m.fault? i with
  | none => simp [Outcome.of, hf] at h
  | some f =>
    have he : Failure.fault f = e := by simpa [Outcome.of, hf] using h
    exact ⟨rfl, f, rfl, he.symm⟩

/-- An instruction that fails leaves the machine as it was. What is no fault comes from the random
source. -/
theorem execute_failure (hi : i.InRange) (h : (m.execute s i).failure? = some e) :
    (m.execute s i).machine = m ∧ ((∃ f, e = .fault f) ∨ s.results s.used = .error e) := by
  unfold execute at h ⊢
  rw [rowsFailure?_eq_none hi] at h ⊢
  dsimp only at h ⊢
  split at h
  · cases hs : s.results s.used with
    | error failure =>
      obtain rfl : failure = e := by simpa [Source.next, hs] using h
      simp [Source.next, hs]
    | ok x =>
      simp only [Source.next, hs] at h ⊢
      obtain ⟨hm, f, _, he⟩ := of_carryOut_failure h
      exact ⟨hm, .inl ⟨f, he⟩⟩
  · obtain ⟨hm, f, _, he⟩ := of_carryOut_failure h
    exact ⟨hm, .inl ⟨f, he⟩⟩

theorem settle_of_fault {o : Outcome} {f : Fault} (h : o.failure? = some (.fault f)) :
    settle o = { o with machine := o.machine.halt f } := by
  simp [settle, h]

theorem settle_of_no_fault {o : Outcome} (h : o.failure? = some e) (he : ∀ f, e ≠ .fault f) :
    settle o = o := by
  cases e with
  | fault f => exact absurd rfl (he f)
  | error name message => simp [settle, h]
  | value v => simp [settle, h]

theorem failure?_settle (o : Outcome) : (settle o).failure? = o.failure? := by
  unfold settle
  split <;> simp_all

/-- The machine once a word is fetched. -/
def fetched (m : Machine) (word : UInt16) : Machine :=
  { m with lastPc := m.pc, lastOpcode := word }

theorem same_fetched (m : Machine) (word : UInt16) : Same m (m.fetched word) := by
  constructor <;> rfl

theorem Same.halt (h : Same m q) (f : Fault) : Same m (q.halt f) := by
  cases h
  constructor <;> assumption

theorem traced_fetched {word : UInt16} (hw : m.memory.readWord (m.pc.toNat : ℤ) = .ok word) :
    Traced m (m.fetched word) := by
  simp [Traced, hw, fetched]

theorem Traced.halt (h : Traced m q) (f : Fault) : Traced m (q.halt f) :=
  h

theorem fetchAndExecute_of_error {f : Fault}
    (hw : m.memory.readWord (m.pc.toNat : ℤ) = .error f) :
    m.fetchAndExecute s = ⟨some (.fault f), m.halt f, s⟩ := by
  simp [fetchAndExecute, hw, settle]

theorem fetchAndExecute_of_unknown {word : UInt16}
    (hw : m.memory.readWord (m.pc.toNat : ℤ) = .ok word)
    (hi : Instruction.ofWord? word.toNat = none) :
    ∃ f, m.fetchAndExecute s = ⟨some (.fault f), (m.fetched word).halt f, s⟩ := by
  refine ⟨.invalidOpcode (Float.ofNat word.toNat) (Float.ofNat m.pc.toNat), ?_⟩
  simp [fetchAndExecute, hw, hi, settle, fetched]

theorem fetchAndExecute_of_instruction {word : UInt16}
    (hw : m.memory.readWord (m.pc.toNat : ℤ) = .ok word)
    (hi : Instruction.ofWord? word.toNat = some i) :
    m.fetchAndExecute s = settle ((m.fetched word).execute s i) := by
  simp [fetchAndExecute, hw, hi, fetched]

theorem step_of_running (hr : m.run = .running) (s : Source) : m.step s = m.fetchAndExecute s := by
  simp [step, hr]

/-- To fetch the same word again changes nothing. -/
theorem step_fetched {word : UInt16} (hr : m.run = .running)
    (hw : m.memory.readWord (m.pc.toNat : ℤ) = .ok word) (s : Source) :
    (m.fetched word).step s = m.step s := by
  rw [step_of_running hr, step_of_running (m := m.fetched word) hr]
  have hw' : (m.fetched word).memory.readWord ((m.fetched word).pc.toNat : ℤ) = .ok word := hw
  cases hi : Instruction.ofWord? word.toNat with
  | none => simp [fetchAndExecute, hw, hi, fetched]
  | some i =>
    rw [fetchAndExecute_of_instruction hw hi, fetchAndExecute_of_instruction hw' hi]
    rfl

/-- What is left when an instruction fails. -/
theorem settle_failure {word : UInt16} (hr : m.run = .running)
    (hw : m.memory.readWord (m.pc.toNat : ℤ) = .ok word)
    (hi : Instruction.ofWord? word.toNat = some i)
    (h : ((m.fetched word).execute s i).failure? = some e) :
    Same m (settle ((m.fetched word).execute s i)).machine ∧
      Traced m (settle ((m.fetched word).execute s i)).machine ∧
      HaltsOrResumes m s e (settle ((m.fetched word).execute s i)).machine := by
  obtain ⟨hm, hcause⟩ := execute_failure (Instruction.inRange_of_ofWord? hi) h
  have hsame := same_fetched m word
  have htraced := traced_fetched hw
  by_cases hf : ∃ f, e = .fault f
  · obtain ⟨f, rfl⟩ := hf
    rw [settle_of_fault h, hm]
    exact ⟨hsame.halt f, htraced.halt f, .inl ⟨f, rfl, rfl⟩⟩
  · have hne : ∀ f, e ≠ .fault f := fun f he => hf ⟨f, he⟩
    rw [settle_of_no_fault h hne, hm]
    refine ⟨hsame, htraced, .inr ⟨hne, ?_, hr, step_fetched hr hw⟩⟩
    rcases hcause with hcause | hcause
    · exact absurd hcause hf
    · exact hcause

/-- A step that fails leaves everything as it was, but for the run state of a machine that it
halts and for what it notes of a fetch that went well. -/
theorem step_failure (h : m.isHalted = false) (he : (m.step s).failure? = some e) :
    Same m (m.step s).machine ∧ Traced m (m.step s).machine ∧
      HaltsOrResumes m s e (m.step s).machine := by
  cases hr : m.run with
  | halted f => simp [isHalted, hr] at h
  | awaitingKey register => simp [step, hr] at he
  | running =>
    rw [step_of_running hr] at he ⊢
    cases hw : m.memory.readWord (m.pc.toNat : ℤ) with
    | error f =>
      rw [fetchAndExecute_of_error hw] at he ⊢
      obtain rfl : Failure.fault f = e := by simpa using he
      have hsame : Same m m := by constructor <;> rfl
      exact ⟨hsame.halt f, by simp [Traced, hw, halt], .inl ⟨f, rfl, rfl⟩⟩
    | ok word =>
      cases hi : Instruction.ofWord? word.toNat with
      | none =>
        obtain ⟨f, hf⟩ := fetchAndExecute_of_unknown (s := s) hw hi
        rw [hf] at he ⊢
        obtain rfl : Failure.fault f = e := by simpa using he
        exact ⟨(same_fetched m word).halt f, (traced_fetched hw).halt f, .inl ⟨f, rfl, rfl⟩⟩
      | some i =>
        rw [fetchAndExecute_of_instruction hw hi] at he ⊢
        rw [failure?_settle] at he
        exact settle_failure hr hw hi he

/-- A machine at a random instruction, and no random numbers. -/
def rolling : Machine :=
  powerOn .standard (some ⟨#[0xc0, 0xff], "roll", by decide, by decide⟩)

def dry : Source where
  results _ := .error (.error "Error" "no numbers")
  used := 0

theorem readWord_rolling :
    rolling.memory.readWord (rolling.pc.toNat : ℤ) = .ok 0xc0ff := by
  have hm : rolling.memory = Memory.initial.withProgram #[0xc0, 0xff] := rfl
  have hpc : rolling.pc.toNat = 0x200 := rfl
  have hfirst : rolling.memory.get 0x200 = 0xc0 := by
    rw [hm, Memory.get_withProgram _ _ (by decide)]
    rfl
  have hsecond : rolling.memory.get 0x201 = 0xff := by
    rw [hm, Memory.get_withProgram _ _ (by decide)]
    rfl
  have hword : rolling.memory.word 0x200 = 0xc0ff := by
    simp [Memory.word, hfirst, hsecond]
  rw [hpc, Memory.readWord_of_lt (by decide), hword]

theorem failure?_rolling : (rolling.step dry).failure? = some (.error "Error" "no numbers") := by
  have hi : Instruction.ofWord? (0xc0ff : UInt16).toNat = some (.random 0 0xff) := by decide
  rw [step_of_running rfl, fetchAndExecute_of_instruction readWord_rolling hi, failure?_settle]
  rfl

theorem step_failure_rolling :
    rolling.isHalted = false ∧
      (rolling.step dry).failure? = some (.error "Error" "no numbers") ∧
      Same rolling (rolling.step dry).machine ∧ Traced rolling (rolling.step dry).machine ∧
      HaltsOrResumes rolling dry (.error "Error" "no numbers") (rolling.step dry).machine :=
  ⟨rfl, failure?_rolling, step_failure rfl failure?_rolling⟩

end Chip8.Machine
