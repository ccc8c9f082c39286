import Chip8.Keypad
import Mathlib.Tactic

/-! The latch of a keypad, key by key. -/
namespace Chip8.Keypad

variable {p : Keypad} {j k : Key}

/-- The key went down since the latch was last cleared. -/
def Latched (p : Keypad) (k : Key) : Prop :=
  p.latched.getLsbD k.val = true

theorem getLsbD_bit (j k : Key) : (bit j).getLsbD k.val = true ↔ k = j := by
  simp only [bit, BitVec.getLsbD_twoPow, Bool.and_eq_true, decide_eq_true_eq, Fin.ext_iff]
  omega

theorem latched_press :
    (p.press j).Latched k ↔ p.Latched k ∨ k = j ∧ p.isDown j = false := by
  unfold Latched press
  cases hj : p.isDown j with
  | true => simp
  | false =>
    simp only [Bool.false_eq_true, if_false, BitVec.getLsbD_or, Bool.or_eq_true, getLsbD_bit,
      and_true]

/-- A key that is down is not pressed again. -/
theorem press_of_isDown (h : p.isDown k = true) : p.press k = p := by
  have hheld : p.held ||| bit k = p.held := by
    ext i hi
    simp only [← BitVec.getLsbD_eq_getElem, BitVec.getLsbD_or, Bool.or_eq_left_iff_imp]
    intro hbit
    obtain rfl : (⟨i, hi⟩ : Key) = k := (getLsbD_bit k ⟨i, hi⟩).mp hbit
    exact h
  unfold press
  rw [hheld, if_pos h]

theorem latched_release : (p.release j).Latched k ↔ p.Latched k :=
  Iff.rfl

theorem not_latched_clearLatch : ¬ p.clearLatch.Latched k := by
  simp [Latched, clearLatch]

theorem not_latched_releaseAll : ¬ p.releaseAll.Latched k := by
  simp [Latched, releaseAll, initial]

theorem takeLatched_of_not_latched (h : ∀ k, ¬ p.Latched k) : p.takeLatched = (none, p) := by
  have hnil : keysOf p.latched = [] := by
    apply List.filter_eq_nil_iff.mpr
    intro k _
    exact h k
  simp [takeLatched, hnil]

/-- The lowest of the latched keys is the one that is taken. -/
theorem takeLatched_of_isLeast (h : IsLeast {j | p.Latched j} k) :
    p.takeLatched = (some k, p.clearLatch) := by
  have hhead : (keysOf p.latched).head? = some k := by
    unfold keysOf
    rw [List.head?_filter, List.find?_eq_some_iff_getElem]
    refine ⟨h.1, k.val, by simp, by simp, ?_⟩
    intro i hi
    have hn : ¬ p.Latched ⟨i, by omega⟩ := by
      intro hl
      have := h.2 hl
      simp [Fin.le_def] at this
      omega
    simpa [Latched] using hn
  simp [takeLatched, hhead]

end Chip8.Keypad
