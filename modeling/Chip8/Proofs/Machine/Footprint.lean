import Chip8.Proofs.Machine.Glyphs
import Chip8.Proofs.Machine.Program

/-! Which bytes a step writes, and what it notes of its fetch. -/
namespace Chip8.Machine

variable {m : Machine} {s : Source} {i : Instruction ℕ} {a : ℕ} {p q : Machine × Source}
  {xs ys : List (Machine × Source)}

/-- The bytes that an instruction stores, from the index on. -/
def stored (m : Machine) : Instruction ℕ → List UInt8
  | .storeDecimal x => decimalDigits (m.read (.of x))
  | .store x => m.firstRegisters (x + 1)
  | _ => []

theorem memoryAfter_eq (m : Machine) (i : Instruction ℕ) :
    m.memoryAfter i = m.memory.store m.index.toNat (m.stored i) := by
  cases i <;> rfl

/-- The next step writes the byte at an address. -/
def Writes (m : Machine) (a : ℕ) : Prop :=
  m.run = .running ∧ ∃ i, m.Reads i ∧ m.fault? i = none ∧
    m.index.toNat ≤ a ∧ a < m.index.toNat + (m.stored i).length

/-- What a step does not write it leaves alone. -/
theorem get_step (h : ¬ m.Writes a) (s : Source) :
    (m.step s).machine.memory.get a = m.memory.get a := by
  generalize ho : m.step s = o
  have hstepped := stepped_step m s
  rw [ho] at hstepped
  cases hstepped with
  | refused => rfl
  | @polled register =>
    rcases pollKey_cases m register with hp | ⟨_, _, hp⟩ <;> rw [hp]
  | beyond => rfl
  | unknown => rfl
  | faulted => rfl
  | @unrolled _ e => cases e <;> rfl
  | @completed i roll _ hr hi hf =>
    have hmemory : ((m.fetched m.opcode).apply i roll).counted.memory =
        m.memory.store m.index.toNat (m.stored i) :=
      (memory_apply (m.fetched m.opcode) i roll).trans (memoryAfter_eq (m.fetched m.opcode) i)
    rw [hmemory]
    apply Memory.get_store_of_outside
    intro ha
    by_contra hlt
    exact h ⟨hr, i, hi, hf, ha, by omega⟩

/-! Rows of steps. -/

theorem Alike.memory (h : Alike p q) : p.1.memory = q.1.memory :=
  (congrArg Machine.memory h.machine :)

theorem Leads.get (h : Leads p xs q) (hxs : ∀ x ∈ xs, ¬ x.1.Writes a) :
    q.1.memory.get a = p.1.memory.get a := by
  induction xs generalizing p with
  | nil => rw [Alike.memory h]
  | cons x xs ih =>
    obtain ⟨hx, hrest⟩ := h
    calc q.1.memory.get a
      _ = (next x).1.memory.get a := ih hrest fun y hy => hxs y (by simp [hy])
      _ = x.1.memory.get a := get_step (hxs x (by simp)) x.2
      _ = p.1.memory.get a := by rw [hx.memory]

/-- A byte that no step before has written is there when the next step begins. -/
theorem Leads.get_of_split {x : Machine × Source} (h : Leads p (xs ++ x :: ys) q)
    (hxs : ∀ y ∈ xs, ¬ y.1.Writes a) : x.1.memory.get a = p.1.memory.get a := by
  obtain ⟨hbefore, hx, _⟩ := h.split
  rw [← hx.memory, hbefore.get hxs]

/-- A step that completes an instruction notes where it was and the word that was there, whatever
the instruction has done to that word. -/
theorem fetched_of_completes (h : completes p = true) :
    p.1.pc.toNat ≤ 0xffe ∧ (next p).1.lastPc = p.1.pc ∧ (next p).1.lastOpcode = p.1.opcode := by
  obtain ⟨m, s⟩ := p
  obtain ⟨hawait, hfailure⟩ := completes_iff.mp h
  have hnone : (m.step s).failure? = none := hfailure
  simp only [next]
  generalize ho : m.step s = o at hnone
  have hstepped := stepped_step m s
  rw [ho] at hstepped
  cases hstepped with
  | refused => cases hnone
  | polled hr => simp [isAwaitingKey, hr] at hawait
  | beyond => cases hnone
  | unknown => cases hnone
  | faulted => cases hnone
  | @unrolled _ e => cases e <;> cases hnone
  | @completed i roll _ _ hi =>
    obtain ⟨_, _, hcompleted⟩ := completed_eq (m.fetched m.opcode) roll i
    have hpc : (((m.fetched m.opcode).completed roll i)).lastPc = m.pc := by rw [hcompleted]; rfl
    have hopcode : (((m.fetched m.opcode).completed roll i)).lastOpcode = m.opcode := by
      rw [hcompleted]; rfl
    exact ⟨hi.1, hpc, hopcode⟩

end Chip8.Machine
