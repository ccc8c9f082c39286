import Chip8.Proofs.Machine.Sequence

/-! How far a program gets: the program counter, the return addresses and the awaited register of
every machine that a run reaches, and that no address is cut on its way there. -/
namespace Chip8.Machine

variable {m : Machine} {s : Source} {o : Outcome} {i : Instruction ℕ} {roll : UInt8}

/-- The addresses that a program can get to. A call is fetched from two bytes of memory, so it is
never returned to an address beyond the end; the farthest jump goes the greatest byte beyond the
greatest operand. -/
structure Sound (m : Machine) : Prop where
  pc_le : m.pc.toNat ≤ 0x10fe
  returns : ∀ a ∈ m.stack.toList, 2 ≤ a.toNat ∧ a.toNat ≤ 0x1000
  waits : ∀ register, m.run = .awaitingKey register →
    m.pc.toNat ≤ 0xffe ∧ ∃ x, register = .known x

theorem sound_of_eq {q : Machine} (h : Sound m) (hpc : q.pc = m.pc) (hstack : q.stack = m.stack)
    (hrun : q.run = m.run) : Sound q := by
  refine ⟨?_, ?_, ?_⟩
  · rw [hpc]
    exact h.pc_le
  · rw [hstack]
    exact h.returns
  · rw [hpc, hrun]
    exact h.waits

theorem sound_halt (h : Sound m) (f : Fault) : Sound (m.halt f) :=
  ⟨h.pc_le, h.returns, fun _ hr => by simp [halt] at hr⟩

theorem sound_powerOn (dialect : Dialect) (cartridge : Option Cartridge) :
    Sound (powerOn dialect cartridge) :=
  ⟨show (UInt16.ofNat Memory.programStart).toNat ≤ 0x10fe by decide, by simp [powerOn],
    fun _ hr => by simp [powerOn] at hr⟩

/-! The next address. -/

theorem skipTo_le (hpc : m.pc.toNat ≤ 0xffe) (skip : Bool) : m.skipTo skip ≤ 0x1002 := by
  cases skip <;> simp only [skipTo, if_true, if_false, Bool.false_eq_true] <;> omega

theorem top_le (h : Sound m) : (m.stack.top?.getD 0).toNat ≤ 0x1000 := by
  rw [Stack.top?_eq_getLast?]
  cases ha : m.stack.toList.getLast? with
  | none => simp
  | some a => exact (h.returns a (List.mem_of_getLast? ha)).2

theorem nextAddress_le (h : Sound m) (hpc : m.pc.toNat ≤ 0xffe) (hi : i.InRange) :
    m.nextAddress i ≤ 0x10fe := by
  have hskip := skipTo_le hpc
  cases i with
  | ret => exact (top_le h).trans (by decide)
  | jump nnn => exact Nat.le_of_lt_succ (Nat.lt_trans hi (by decide))
  | call nnn => exact Nat.le_of_lt_succ (Nat.lt_trans hi (by decide))
  | jumpOffset nnn =>
    have hbyte := (m.reg 0).toNat_lt
    have hnnn : nnn < 4096 := hi
    simp only [nextAddress, Scalar.ofNat_nat]
    omega
  | waitKey x => exact hpc.trans (by decide)
  | _ => exact (hskip _).trans (by decide)

theorem toNat_nextAddress (h : Sound m) (hpc : m.pc.toNat ≤ 0xffe) (hi : i.InRange) :
    (UInt16.ofNat (m.nextAddress i)).toNat = m.nextAddress i := by
  have hle := nextAddress_le h hpc hi
  exact UInt16.toNat_ofNat_of_lt' (show m.nextAddress i < 2 ^ 16 by omega)

theorem toNat_ofNat_pc_add_two (hpc : m.pc.toNat ≤ 0xffe) :
    (UInt16.ofNat (m.pc.toNat + 2)).toNat = m.pc.toNat + 2 :=
  UInt16.toNat_ofNat_of_lt' (show m.pc.toNat + 2 < 2 ^ 16 by omega)

/-! Steps. -/

theorem returns_stackAfter (h : Sound m) (hpc : m.pc.toNat ≤ 0xffe) :
    ∀ a ∈ (m.stackAfter i).toList, 2 ≤ a.toNat ∧ a.toNat ≤ 0x1000 := by
  cases i with
  | ret =>
    intro a ha
    rw [stackAfter, Stack.toList_pop] at ha
    exact h.returns a (List.mem_of_mem_dropLast ha)
  | call nnn =>
    intro a ha
    rw [stackAfter] at ha
    by_cases hroom : m.stack.depth < Stack.capacity
    · rw [Stack.toList_push hroom, List.mem_append, List.mem_singleton] at ha
      rcases ha with ha | rfl
      · exact h.returns a ha
      · rw [returnAddress, toNat_ofNat_pc_add_two hpc]
        omega
    · have hfull : m.stack.push (UInt16.ofNat m.returnAddress) = m.stack := dif_neg hroom
      rw [hfull] at ha
      exact h.returns a ha
  | _ => exact h.returns

theorem sound_apply (h : Sound m) (hr : m.run = .running) (hpc : m.pc.toNat ≤ 0xffe)
    (hi : i.InRange) (roll : UInt8) : Sound (m.apply i roll) := by
  refine ⟨?_, ?_, ?_⟩
  · exact (toNat_nextAddress h hpc hi).trans_le (nextAddress_le h hpc hi)
  · rw [stack_apply]
    exact returns_stackAfter h hpc
  · intro register hregister
    rw [run_apply] at hregister
    rcases runAfter_cases m i with hsame | ⟨x, rfl, hwait⟩
    · rw [hsame, hr] at hregister
      cases hregister
    · rw [hwait] at hregister
      obtain rfl := RunState.awaitingKey.inj hregister
      refine ⟨?_, ⟨x, hi⟩, Register.of_nat hi⟩
      exact (toNat_nextAddress h hpc hi).trans_le hpc

theorem sound_pollKey {register : Register} (h : Sound m) (hr : m.run = .awaitingKey register) :
    Sound (m.pollKey register) := by
  rcases pollKey_cases m register with hp | ⟨v, k, hp⟩
  · rwa [hp]
  · have hpc := (h.waits register hr).1
    rw [hp]
    refine ⟨?_, h.returns, fun _ hrun => by simp at hrun⟩
    change (UInt16.ofNat (m.pc.toNat + 2)).toNat ≤ 0x10fe
    rw [toNat_ofNat_pc_add_two hpc]
    omega

theorem Stepped.sound (h : Stepped m s o) (hm : Sound m) : Sound o.machine := by
  have hfetched : Sound (m.fetched m.opcode) := sound_of_eq hm rfl rfl rfl
  cases h with
  | refused => exact hm
  | polled hr => exact sound_pollKey hm hr
  | beyond => exact sound_halt hm _
  | unknown => exact sound_halt hfetched _
  | faulted => exact sound_halt hfetched _
  | @unrolled i e =>
    cases e with
    | fault f => exact sound_halt hfetched f
    | error name message => exact hfetched
    | value v => exact hfetched
  | @completed i roll s' hr hi =>
    exact sound_of_eq (sound_apply hfetched hr hi.1 hi.2.1 roll) rfl rfl rfl

/-! What a step stores. -/

theorem nextAddress_fetched (m : Machine) (word : UInt16) (i : Instruction ℕ) :
    (m.fetched word).nextAddress i = m.nextAddress i := by
  cases i <;> rfl

/-- An instruction that is there and does not fail is completed. -/
theorem step_of_no_failure (hr : m.run = .running) (hi : m.Reads i)
    (hf : (m.step s).failure? = none) :
    m.fault? i = none ∧
      ∃ roll s', m.step s = ⟨none, ((m.fetched m.opcode).apply i roll).counted, s'⟩ := by
  have h := stepped_step m s
  generalize m.step s = o at h hf
  cases h with
  | refused => cases hf
  | polled hr' => simp [hr] at hr'
  | beyond => cases hf
  | unknown => cases hf
  | faulted => cases hf
  | unrolled => simp [failure?_settle] at hf
  | completed _ hj hfault =>
    obtain rfl := hi.unique hj
    exact ⟨hfault, _, _, rfl⟩

/-- What a step from here puts into the program counter and onto the stack is the address that was
worked out, without a cut. -/
structure Uncut (m : Machine) (s : Source) : Prop where
  next : ∀ i, m.run = .running → m.Reads i → (m.step s).failure? = none →
    (m.step s).machine.pc.toNat = m.nextAddress i
  pushed : ∀ nnn, m.run = .running → m.Reads (.call nnn) → (m.step s).failure? = none →
    ∃ a, (m.step s).machine.stack.toList = m.stack.toList ++ [a] ∧ a.toNat = m.returnAddress
  resumed : m.isAwaitingKey = true → (m.step s).machine.run = .running →
    (m.step s).machine.pc.toNat = m.skipTo false

theorem Sound.uncut (h : Sound m) (s : Source) : Uncut m s where
  next i hr hi hf := by
    obtain ⟨_, roll, s', hstep⟩ := step_of_no_failure hr hi hf
    rw [hstep]
    change (UInt16.ofNat ((m.fetched m.opcode).nextAddress i)).toNat = m.nextAddress i
    rw [nextAddress_fetched]
    exact toNat_nextAddress h hi.1 hi.2.1
  pushed nnn hr hi hf := by
    obtain ⟨hfault, roll, s', hstep⟩ := step_of_no_failure hr hi hf
    have hroom : m.stack.depth < Stack.capacity := Stack.pushFault?_eq_none_iff.mp hfault
    refine ⟨UInt16.ofNat m.returnAddress, ?_, toNat_ofNat_pc_add_two hi.1⟩
    rw [hstep]
    exact Stack.toList_push hroom _
  resumed hw hr := by
    cases hrun : m.run with
    | running => simp [isAwaitingKey, hrun] at hw
    | halted f => simp [isAwaitingKey, hrun] at hw
    | awaitingKey register =>
      have hstep : (m.step s).machine = m.pollKey register := by simp [step, hrun]
      rw [hstep] at hr ⊢
      rcases pollKey_cases m register with hp | ⟨v, k, hp⟩
      · rw [hp, hrun] at hr
        cases hr
      · rw [hp]
        exact toNat_ofNat_pc_add_two (h.waits register hrun).1

/-- Everything that is stored stays in its range. -/
structure InBounds (m : Machine) : Prop extends Sound m where
  depth_le : m.stack.depth ≤ 16
  index_lt : m.index.toNat < 0x10000
  pixels : ∀ b ∈ m.display.picture.pixels, b = 0 ∨ b = 1
  delay_le : m.timers.delay.toNat ≤ 255
  sound_le : m.timers.sound.toNat ≤ 255
  held : ∀ k, m.keypad.held.getLsbD k = true → k ≤ 15
  latched : ∀ k, m.keypad.latched.getLsbD k = true → k ≤ 15

theorem Sound.inBounds (h : Sound m) : InBounds m where
  toSound := h
  depth_le := m.stack.depth_le
  index_lt := m.index.toNat_lt
  pixels b hb := by
    obtain ⟨lit, _, rfl⟩ := Array.mem_map.mp hb
    cases lit <;> simp
  delay_le := Nat.le_of_lt_succ m.timers.delay.toNat_lt
  sound_le := Nat.le_of_lt_succ m.timers.sound.toNat_lt
  held k hk := Nat.le_of_lt_succ (BitVec.lt_of_getLsbD hk)
  latched k hk := Nat.le_of_lt_succ (BitVec.lt_of_getLsbD hk)

end Chip8.Machine
