import Chip8.Proofs.Keypad.Latch
import Chip8.Proofs.Machine.Step

/-! Steps in a row: where they end, what they count, and what they draw. -/
namespace Chip8

namespace Machine

/-- A machine and its source after one more step, whatever came of it. -/
def next (p : Machine × Source) : Machine × Source :=
  ((p.1.step p.2).machine, (p.1.step p.2).source)

/-- What step number `j` failed with. The first step has number one. -/
def failureAt (p : Machine × Source) : ℕ → Option Failure
  | 0 => none
  | i + 1 => ((next^[i] p).1.step (next^[i] p).2).failure?

/-- Step number `j` fails, or leaves the machine awaiting a key. -/
def Ends (p : Machine × Source) (j : ℕ) : Prop :=
  (failureAt p j).isSome = true ∨ (next^[j] p).1.isAwaitingKey = true

/-- Of at most `n` steps, `j` are taken: up to the first that ends them. -/
def Spans (p : Machine × Source) (n j : ℕ) : Prop :=
  IsLeast {j | 1 ≤ j ∧ j ≤ n ∧ (Ends p j ∨ j = n)} j

variable {m : Machine} {s : Source} {o : Outcome} {p : Machine × Source} {i j n : ℕ}

theorem failureAt_succ (hj : 1 ≤ j) : failureAt p (j + 1) = failureAt (next p) j := by
  obtain ⟨i, rfl⟩ := Nat.exists_eq_add_of_le' hj
  rfl

theorem ends_succ_iff (hj : 1 ≤ j) : Ends p (j + 1) ↔ Ends (next p) j := by
  rw [Ends, failureAt_succ hj]
  rfl

theorem spans_one (hn : 1 ≤ n) (h : Ends p 1 ∨ n = 1) : Spans p n 1 := by
  refine ⟨⟨le_rfl, hn, h.imp_right Eq.symm⟩, ?_⟩
  rintro j ⟨hj, _⟩
  exact hj

theorem Spans.succ (h : Spans (next p) n j) (hp : ¬ Ends p 1) : Spans p (n + 1) (j + 1) := by
  obtain ⟨⟨hj, hjn, hend⟩, hleast⟩ := h
  refine ⟨⟨by omega, by omega, ?_⟩, ?_⟩
  · rw [ends_succ_iff hj]
    exact hend.imp_right (congrArg (· + 1))
  · rintro k ⟨hk, hkn, hkend⟩
    obtain ⟨k, rfl⟩ := Nat.exists_eq_add_of_le' hk
    rcases Nat.eq_zero_or_pos k with rfl | hpos
    · rcases hkend with hkend | hkend
      · exact absurd hkend hp
      · omega
    · rw [ends_succ_iff hpos] at hkend
      have := hleast ⟨hpos, by omega, hkend.imp_right fun h => by omega⟩
      omega

theorem Spans.not_ends (h : Spans p n j) (hi : 1 ≤ i) (hij : i < j) : ¬ Ends p i := by
  intro hend
  have := h.2 ⟨hi, by have := h.1.2.1; omega, .inl hend⟩
  omega

theorem next_of_rolled {i : Instruction ℕ} {roll : UInt8} (hr : p.1.run = .running)
    (hi : p.1.Reads i) (hf : p.1.fault? i = none) (hroll : rolled p.2 i = (.ok roll, s)) :
    failureAt p 1 = none ∧ next p = (((p.1.fetched p.1.opcode).apply i roll).counted, s) := by
  have hstep := step_of_rolled hr hi hf hroll
  refine ⟨(congrArg Outcome.failure? hstep :), ?_⟩
  rw [next, hstep]

/-- A step that does not fail ends nothing, unless it leaves the machine awaiting a key. -/
theorem not_ends_one (hf : failureAt p 1 = none) (hawait : ¬ (next p).1.isAwaitingKey = true) :
    ¬ Ends p 1 := by
  rintro (hfail | h)
  · simp [hf] at hfail
  · exact hawait h

/-! Cycles. Each step counts, but for one that fails and one that only looks at the keypad. -/

/-- A look at the keypad finds no key and leaves everything alone, or it takes one. -/
theorem pollKey_eq (m : Machine) (register : Register) :
    (∀ k, ¬ m.keypad.Latched k) ∧ m.pollKey register = m ∨
      ∃ k, m.keypad.Latched k ∧ m.pollKey register =
        { m.assign register (UInt8.ofNat k.val) with
          keypad := m.keypad.clearLatch, pc := UInt16.ofNat (m.skipTo false), run := .running } := by
  by_cases h : ∃ k, m.keypad.Latched k
  · obtain ⟨k, hk⟩ : ∃ k, IsLeast {k | m.keypad.Latched k} k :=
      Set.exists_min_image _ id (Set.toFinite _) h
    refine .inr ⟨k, hk.1, ?_⟩
    simp only [pollKey, Keypad.takeLatched_of_isLeast hk]
  · rw [not_exists] at h
    refine .inl ⟨h, ?_⟩
    simp only [pollKey, Keypad.takeLatched_of_not_latched h]

theorem pollKey_cases (m : Machine) (register : Register) :
    m.pollKey register = m ∨
      ∃ registers keypad, m.pollKey register =
        { m with registers, keypad, pc := UInt16.ofNat (m.skipTo false), run := .running } := by
  rcases pollKey_eq m register with ⟨_, h⟩ | ⟨k, _, h⟩
  · exact .inl h
  · obtain ⟨v, hv⟩ := assign_eq m register (UInt8.ofNat k.val)
    exact .inr ⟨v, _, by rw [h, hv]⟩

theorem cycles_settle (e : Failure) (m : Machine) (s : Source) :
    (settle ⟨some e, m, s⟩).machine.cycles = m.cycles := by
  cases e <;> rfl

theorem Stepped.cycles (h : Stepped m s o) (hh : m.isHalted = false) :
    o.machine.cycles + m.isAwaitingKey.toNat + o.failure?.isSome.toNat = m.cycles + 1 := by
  cases h with
  | refused hr => simp [isHalted, hr] at hh
  | @polled register hr =>
    rcases pollKey_cases m register with hp | ⟨v, k, hp⟩ <;> simp [isAwaitingKey, hr, hp]
  | beyond hr => simp [isAwaitingKey, hr, halt]
  | unknown hr => simp [isAwaitingKey, hr, halt, fetched]
  | faulted hr => simp [isAwaitingKey, hr, halt, fetched]
  | unrolled hr => simp [isAwaitingKey, hr, cycles_settle, failure?_settle, fetched]
  | @completed i roll s' hr =>
    have hc : ((m.fetched m.opcode).apply i roll).counted.cycles = m.cycles + 1 :=
      congrArg (· + 1) (completes_apply (m.fetched m.opcode) i roll).cycles
    simp [isAwaitingKey, hr, hc]

theorem cycles_le_step (m : Machine) (s : Source) : m.cycles ≤ (m.step s).machine.cycles := by
  cases hr : m.run with
  | halted f => simp [step, hr]
  | awaitingKey register =>
    rcases pollKey_cases m register with hp | ⟨v, k, hp⟩ <;> simp [step, hr, hp]
  | running =>
    have hstep := (stepped_step m s).cycles (by simp [isHalted, hr])
    have hfail := Bool.toNat_le (m.step s).failure?.isSome
    simp only [isAwaitingKey, hr, Bool.toNat_false] at hstep
    omega

theorem cycles_le_iterate (p : Machine × Source) (j : ℕ) : p.1.cycles ≤ (next^[j] p).1.cycles := by
  induction j with
  | zero => exact le_rfl
  | succ j ih =>
    rw [Function.iterate_succ_apply']
    exact ih.trans (cycles_le_step _ _)

/-- Only a step that fails halts a machine. -/
theorem Stepped.isHalted (h : Stepped m s o) (hf : o.failure? = none) :
    o.machine.isHalted = false := by
  cases h with
  | refused hr => simp at hf
  | @polled register hr =>
    rcases pollKey_cases m register with hp | ⟨v, k, hp⟩ <;> simp [Machine.isHalted, hr, hp]
  | beyond hr => simp at hf
  | unknown hr => simp at hf
  | faulted hr => simp at hf
  | unrolled hr => simp [failure?_settle] at hf
  | @completed i roll s' hr =>
    rcases (completes_apply (m.fetched m.opcode) i roll).run with hrun | ⟨register, hrun⟩
    · have hrun' : ((m.fetched m.opcode).apply i roll).counted.run = .running := hrun.trans hr
      simp [Machine.isHalted, hrun']
    · have hrun' : ((m.fetched m.opcode).apply i roll).counted.run = .awaitingKey register := hrun
      simp [Machine.isHalted, hrun']

/-- The count of a run of steps in which only the first may be a look at the keypad. -/
theorem cycles_before (hh : p.1.isHalted = false) (hq : ∀ l, 1 ≤ l → l ≤ i → ¬ Ends p l) :
    (next^[i] p).1.isHalted = false ∧
      (next^[i] p).1.cycles + p.1.isAwaitingKey.toNat =
        p.1.cycles + i + (next^[i] p).1.isAwaitingKey.toNat := by
  induction i with
  | zero => exact ⟨hh, rfl⟩
  | succ i ih =>
    obtain ⟨hhalt, hcycles⟩ := ih fun l hl hli => hq l hl (by omega)
    -- this step ends nothing, so only what the state before it did can be an uncounted look
    have hend := hq (i + 1) (by omega) le_rfl
    simp only [Ends, failureAt, not_or, Bool.not_eq_true, Option.isSome_eq_false_iff,
      Option.isNone_iff_eq_none] at hend
    obtain ⟨hfail, hawait⟩ := hend
    have hstep := (stepped_step (next^[i] p).1 (next^[i] p).2).cycles hhalt
    rw [hfail] at hstep
    rw [hawait]
    rw [Function.iterate_succ_apply']
    refine ⟨(stepped_step _ _).isHalted hfail, ?_⟩
    simp only [next, Option.isSome_none, Bool.toNat_false] at hstep ⊢
    omega

theorem Spans.cycles (h : Spans p n j) (hh : p.1.isHalted = false) :
    (next^[j] p).1.cycles + p.1.isAwaitingKey.toNat + (failureAt p j).isSome.toNat =
      p.1.cycles + j := by
  obtain ⟨i, rfl⟩ := Nat.exists_eq_add_of_le' h.1.1
  obtain ⟨hhalt, hcycles⟩ := cycles_before hh fun l hl hli => h.not_ends hl (Nat.lt_succ_of_le hli)
  have hstep := (stepped_step (next^[i] p).1 (next^[i] p).2).cycles hhalt
  rw [Function.iterate_succ_apply']
  simp only [next, failureAt] at hstep ⊢
  omega

/-! The screen. -/

theorem Stepped.noted (h : Stepped m s o) : m.display.Noted o.machine.display := by
  cases h with
  | refused => exact Display.noted_refl _
  | @polled register =>
    rcases pollKey_cases m register with hp | ⟨v, k, hp⟩ <;> rw [hp] <;>
      exact Display.noted_refl _
  | beyond => exact Display.noted_refl _
  | unknown => exact Display.noted_refl _
  | faulted => exact Display.noted_refl _
  | @unrolled i e => cases e <;> exact Display.noted_refl _
  | @completed i roll => exact (completes_apply (m.fetched m.opcode) i roll).display

theorem noted_iterate (p : Machine × Source) (j : ℕ) :
    p.1.display.Noted (next^[j] p).1.display := by
  induction j with
  | zero => exact Display.noted_refl _
  | succ j ih =>
    rw [Function.iterate_succ_apply']
    exact ih.trans (stepped_step _ _).noted

end Machine

end Chip8
