import Chip8.Proofs.Machine.Step

/-! When a step fails, and with which kind of fault. -/
namespace Chip8

namespace Machine

variable {m : Machine} {s : Source} {i : Instruction ℕ} {kind : String} {n : ℕ} {access : Access}

/-- The instructions that a machine does not carry out, each with the kind of the fault. -/
inductive Refuses (m : Machine) : Instruction ℕ → String → Prop
  | machineCall {nnn} : Refuses m (.machineCall nnn) "unsupported-instruction"
  | ret (hd : m.stack.depth = 0) : Refuses m .ret "stack-underflow"
  | call {nnn} (hd : m.stack.depth = 16) : Refuses m (.call nnn) "stack-overflow"
  | draw {x y n} (hn : 1 ≤ n) (hr : 0x1000 < m.index.toNat + n) :
      Refuses m (.draw x y n) "memory-out-of-bounds"
  | skipIfKey {x} (hk : 0xf < (m.reg x).toNat) : Refuses m (.skipIfKey x) "invalid-key"
  | skipUnlessKey {x} (hk : 0xf < (m.reg x).toNat) : Refuses m (.skipUnlessKey x) "invalid-key"
  | storeDecimalBeyond {x} (hr : 0x1000 < m.index.toNat + 3) :
      Refuses m (.storeDecimal x) "memory-out-of-bounds"
  | storeDecimalBelow {x} (hr : m.index.toNat + 3 ≤ 0x1000) (hl : m.index.toNat < 0x200) :
      Refuses m (.storeDecimal x) "memory-write-protected"
  | storeBeyond {x} (hr : 0x1000 < m.index.toNat + (x + 1)) :
      Refuses m (.store x) "memory-out-of-bounds"
  | storeBelow {x} (hr : m.index.toNat + (x + 1) ≤ 0x1000) (hl : m.index.toNat < 0x200) :
      Refuses m (.store x) "memory-write-protected"
  | load {x} (hr : 0x1000 < m.index.toNat + (x + 1)) : Refuses m (.load x) "memory-out-of-bounds"

/-- The conditions under which a machine that runs fails to take a step. -/
inductive Fails (m : Machine) : String → Prop
  | beyond (h : 0xffe < m.pc.toNat) : Fails m "memory-out-of-bounds"
  | unknown (h : m.pc.toNat ≤ 0xffe) (hi : ∀ i, ¬ m.Reads i) : Fails m "invalid-opcode"
  | refused {i : Instruction ℕ} {kind : String} (h : m.Reads i) (hi : m.Refuses i kind) : Fails m kind

/-- Some fault of this kind, if there is one at all. -/
def OfKind (f? : Option Fault) (kind : String) : Prop :=
  ∃ f, f? = some f ∧ f.kind = kind

@[simp] theorem ofKind_none : OfKind none kind ↔ False := by
  simp [OfKind]

@[simp] theorem ofKind_some {f : Fault} : OfKind (some f) kind ↔ kind = f.kind := by
  simp [OfKind, eq_comm]

/-! Single instructions. -/

theorem ofKind_rangeFault?_iff :
    OfKind (m.rangeFault? (n + 1) access) kind ↔
      (kind = "memory-out-of-bounds" ∧ 0x1000 < m.index.toNat + (n + 1)) ∨
      (kind = "memory-write-protected" ∧ access = .write ∧ m.index.toNat + (n + 1) ≤ 0x1000 ∧
        m.index.toNat < 0x200) := by
  unfold rangeFault?
  rw [Memory.checkSpan_succ]
  simp only [Memory.size, Memory.programStart]
  by_cases hfirst : 0x1000 ≤ m.index.toNat
  · simp only [hfirst, if_true, ofKind_some, Fault.kind]
    constructor
    · intro h
      exact .inl ⟨h, by omega⟩
    · rintro (⟨h, _⟩ | ⟨_, _, hle, _⟩)
      · exact h
      · omega
  · by_cases hlast : 0x1000 ≤ m.index.toNat + n
    · simp only [hfirst, hlast, if_true, if_false, ofKind_some, Fault.kind]
      constructor
      · intro h
        exact .inl ⟨h, by omega⟩
      · rintro (⟨h, _⟩ | ⟨_, _, hle, _⟩)
        · exact h
        · omega
    · by_cases hp : access = .write ∧ m.index.toNat < 0x200
      · simp only [hfirst, hlast, hp, and_self, if_true, if_false, ofKind_some, Fault.kind]
        constructor
        · intro h
          exact .inr ⟨h, trivial, by omega, trivial⟩
        · rintro (⟨_, hr⟩ | ⟨h, _⟩)
          · omega
          · exact h
      · simp only [hfirst, hlast, hp, if_false, ofKind_none, false_iff]
        rintro (⟨_, hr⟩ | ⟨_, hw, _, hl⟩)
        · omega
        · exact hp ⟨hw, hl⟩

theorem ofKind_spriteFault?_iff :
    OfKind (m.spriteFault? n) kind ↔
      kind = "memory-out-of-bounds" ∧ 1 ≤ n ∧ 0x1000 < m.index.toNat + n := by
  unfold spriteFault?
  simp only [Memory.size]
  by_cases h : n = 0 ∨ m.index.toNat + n ≤ 0x1000
  · simp only [h, if_true, ofKind_none, false_iff]
    omega
  · have hbeyond : 1 ≤ n ∧ 0x1000 < m.index.toNat + n := by omega
    simp only [h, if_false, ofKind_some, Fault.kind, hbeyond, and_true]

theorem ofKind_keyFault?_iff {x : ℕ} (hx : x < 16) :
    OfKind (m.keyFault? (.of x)) kind ↔ kind = "invalid-key" ∧ 0xf < (m.reg x).toNat := by
  unfold keyFault?
  simp only [m.value?_of_lt hx, Keypad.keyCount]
  by_cases h : (m.reg x).toNat < 16
  · simp only [h, if_true, ofKind_none, false_iff]
    omega
  · have hbeyond : 0xf < (m.reg x).toNat := by omega
    simp only [h, if_false, ofKind_some, Fault.kind, hbeyond, and_true]

theorem ofKind_popFault?_iff :
    OfKind m.stack.popFault? kind ↔ kind = "stack-underflow" ∧ m.stack.depth = 0 := by
  unfold Stack.popFault?
  split <;> simp_all [Fault.kind]

theorem ofKind_pushFault?_iff :
    OfKind m.stack.pushFault? kind ↔ kind = "stack-overflow" ∧ m.stack.depth = 16 := by
  have hle : m.stack.depth ≤ 16 := m.stack.depth_le
  unfold Stack.pushFault?
  simp only [Stack.capacity]
  by_cases h : m.stack.depth < 16
  · simp only [h, if_true, ofKind_none, false_iff]
    omega
  · have hfull : m.stack.depth = 16 := by omega
    simp [ofKind_some, Fault.kind, hfull]

/-- An instruction is refused exactly if it has a fault, and with the kind of that fault. -/
theorem ofKind_fault?_iff (hi : i.InRange) : OfKind (m.fault? i) kind ↔ m.Refuses i kind := by
  cases i with
  | machineCall nnn =>
    simp only [fault?, ofKind_some, Fault.kind]
    constructor
    · rintro rfl
      exact .machineCall
    · intro h
      cases h
      rfl
  | ret =>
    simp only [fault?, ofKind_popFault?_iff]
    constructor
    · rintro ⟨rfl, hd⟩
      exact .ret hd
    · intro h
      cases h with
      | ret hd => exact ⟨rfl, hd⟩
  | call nnn =>
    simp only [fault?, ofKind_pushFault?_iff]
    constructor
    · rintro ⟨rfl, hd⟩
      exact .call hd
    · intro h
      cases h with
      | call hd => exact ⟨rfl, hd⟩
  | draw x y n =>
    simp only [fault?, ofKind_spriteFault?_iff]
    constructor
    · rintro ⟨rfl, hn, hr⟩
      exact .draw hn hr
    · intro h
      cases h with
      | draw hn hr => exact ⟨rfl, hn, hr⟩
  | skipIfKey x =>
    simp only [fault?, ofKind_keyFault?_iff hi]
    constructor
    · rintro ⟨rfl, hk⟩
      exact .skipIfKey hk
    · intro h
      cases h with
      | skipIfKey hk => exact ⟨rfl, hk⟩
  | skipUnlessKey x =>
    simp only [fault?, ofKind_keyFault?_iff hi]
    constructor
    · rintro ⟨rfl, hk⟩
      exact .skipUnlessKey hk
    · intro h
      cases h with
      | skipUnlessKey hk => exact ⟨rfl, hk⟩
  | storeDecimal x =>
    simp only [fault?, ofKind_rangeFault?_iff (n := 2)]
    constructor
    · rintro (⟨rfl, hr⟩ | ⟨rfl, _, hr, hl⟩)
      · exact .storeDecimalBeyond hr
      · exact .storeDecimalBelow hr hl
    · intro h
      cases h with
      | storeDecimalBeyond hr => exact .inl ⟨rfl, hr⟩
      | storeDecimalBelow hr hl => exact .inr ⟨rfl, trivial, hr, hl⟩
  | store x =>
    simp only [fault?, ofKind_rangeFault?_iff]
    constructor
    · rintro (⟨rfl, hr⟩ | ⟨rfl, _, hr, hl⟩)
      · exact .storeBeyond hr
      · exact .storeBelow hr hl
    · intro h
      cases h with
      | storeBeyond hr => exact .inl ⟨rfl, hr⟩
      | storeBelow hr hl => exact .inr ⟨rfl, trivial, hr, hl⟩
  | load x =>
    simp only [fault?, ofKind_rangeFault?_iff]
    constructor
    · rintro (⟨rfl, hr⟩ | ⟨_, hw, _⟩)
      · exact .load hr
      · cases hw
    · intro h
      cases h with
      | load hr => exact .inl ⟨rfl, hr⟩
  | _ =>
    simp only [fault?, ofKind_none, false_iff]
    intro h
    cases h

/-! Steps. -/

theorem fails_beyond_iff (hpc : 0xffe < m.pc.toNat) :
    m.Fails kind ↔ kind = "memory-out-of-bounds" := by
  constructor
  · intro h
    cases h with
    | beyond => rfl
    | unknown h => omega
    | refused h => exact absurd h.1 (by omega)
  · rintro rfl
    exact .beyond hpc

theorem fails_unknown_iff (hpc : m.pc.toNat ≤ 0xffe) (hi : ∀ i, ¬ m.Reads i) :
    m.Fails kind ↔ kind = "invalid-opcode" := by
  constructor
  · intro h
    cases h with
    | beyond h => omega
    | unknown => rfl
    | refused h => exact absurd h (hi _)
  · rintro rfl
    exact .unknown hpc hi

theorem fails_reads_iff (hi : m.Reads i) : m.Fails kind ↔ OfKind (m.fault? i) kind := by
  rw [ofKind_fault?_iff hi.2.1]
  constructor
  · intro h
    cases h with
    | beyond h => exact absurd hi.1 (by omega)
    | unknown _ hnot => exact absurd hi (hnot i)
    | refused hj hk =>
      rw [hi.unique hj]
      exact hk
  · exact .refused hi

/-- A machine that runs, with numbers from the source, fails to take a step exactly under one of
the conditions, and then in a fault of their kind. Under none of them it counts one more cycle, and
runs on or awaits a key. -/
theorem step_fails_iff (hr : m.run = .running) (hs : s.Reliable) :
    (∀ e, (m.step s).failure? = some e → ∃ f, e = .fault f) ∧
    (∀ kind, (∃ f, (m.step s).failure? = some (.fault f) ∧ f.kind = kind) ↔ m.Fails kind) ∧
    ((∀ kind, ¬ m.Fails kind) →
      (m.step s).failure? = none ∧ (m.step s).machine.cycles = m.cycles + 1 ∧
        ((m.step s).machine.run = .running ∨
          ∃ register, (m.step s).machine.run = .awaitingKey register)) := by
  generalize ho : m.step s = o
  have h := stepped_step m s
  rw [ho] at h
  cases h with
  | refused hr' => simp [hr] at hr'
  | polled hr' => simp [hr] at hr'
  | beyond _ hpc => simp [fails_beyond_iff hpc, Fault.kind, eq_comm]
  | unknown _ hpc hi => simp [fails_unknown_iff hpc hi, unknownWord, Fault.kind, eq_comm]
  | faulted _ hi hf => simp [fails_reads_iff hi, hf, eq_comm]
  | unrolled _ _ he => exact absurd he (rolled_ne_error hs)
  | @completed i roll _ _ hi hf _ =>
    have hc := completes_apply (m.fetched m.opcode) i roll
    refine ⟨by simp, by simp [fails_reads_iff hi, hf], fun _ => ⟨rfl, ?_, ?_⟩⟩
    · exact congrArg (· + 1) hc.cycles
    · rcases hc.run with hrun | hrun
      · exact .inl (hrun.trans hr)
      · exact .inr hrun

/-- A machine that is to draw two rows of which only the first is in memory. -/
def edge : Machine :=
  { powerOn .standard (some ⟨#[0xd0, 0x02], "edge", by decide, by decide⟩) with index := 0xfff }

theorem step_fails_edge :
    edge.run = .running ∧ (Source.seeded 0).Reliable ∧
      ∃ f, (edge.step (.seeded 0)).failure? = some (.fault f) ∧ f.kind = "memory-out-of-bounds" := by
  have hi : (Instruction.draw 0 0 2).InRange := ⟨by decide, by decide, by decide⟩
  have hreads : edge.Reads (.draw 0 0 2) := reads_of_image rfl rfl hi (by decide)
  refine ⟨rfl, Source.reliable_seeded 0, ?_⟩
  exact ((step_fails_iff rfl (Source.reliable_seeded 0)).2.1 _).mpr
    (.refused hreads (.draw (by decide) (by decide)))

end Machine

end Chip8
