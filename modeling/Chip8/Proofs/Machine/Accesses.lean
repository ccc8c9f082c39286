import Chip8.Machine.Execute
import Mathlib.Tactic

/-! Checked accesses at natural addresses, one by one and in rows. -/
namespace Chip8

section Bind

variable {ε α β : Type} (g : α → Except ε β)

@[simp] theorem ok_bind (a : α) : (Except.ok a >>= g) = g a :=
  rfl

@[simp] theorem error_bind (e : ε) : (Except.error e >>= g) = .error e :=
  rfl

end Bind

namespace Memory

variable {m : Memory} {a n : ℕ} {access : Access}

theorem locate_of_lt (h : a < size) : locate a access = .ok a := by
  simp [locate, offset?, Option.filter_some, h]

theorem locate_of_size_le (h : size ≤ a) :
    locate a access = .error (.outOfBounds (Float.ofNat a) access) := by
  have hn : ¬ a < size := Nat.not_lt.mpr h
  simp [locate, offset?, Option.filter_some, hn, Scalar.toFloat]

theorem readByte_of_lt (h : a < size) : m.readByte a = .ok (m.get a) := by
  simp [readByte, locate_of_lt h, pure, Except.pure]

theorem readByte_of_size_le (h : size ≤ a) :
    m.readByte a = .error (.outOfBounds (Float.ofNat a) .read) := by
  simp [readByte, locate_of_size_le h]

theorem writeByte_of_lt (hl : programStart ≤ a) (h : a < size) (b : UInt8) :
    m.writeByte a b = .ok (m.set a b) := by
  have hn : ¬ a < programStart := Nat.not_lt.mpr hl
  simp [writeByte, locate_of_lt h, checkWritable, hn, pure, Except.pure]

theorem readWord_of_lt (h : a + 1 < size) : m.readWord (a : ℤ) = .ok (m.word a) := by
  have ha : a < size := by omega
  have hfirst : Scalar.natural? (a : ℤ) = some a := by
    simp [Scalar.natural?]
  have hsecond : Scalar.natural? ((a : ℤ) + Scalar.ofNat 1) = some (a + 1) := by
    simp [Scalar.natural?, Scalar.ofNat]
    omega
  simp [readWord, locate, offset?, hfirst, hsecond, Option.filter_some, ha, h, pure, Except.pure]

theorem get_store_of_outside {b : ℕ} {bs : List UInt8} (h : a ≤ b → a + bs.length ≤ b) :
    (m.store a bs).get b = m.get b := by
  rw [get_store]
  split
  · rw [List.getElem?_eq_none (by omega), Option.getD_none]
  · rfl

theorem load_succ (m : Memory) (a n : ℕ) : m.load a (n + 1) = m.get a :: m.load (a + 1) n := by
  simp [load, List.range_succ_eq_map, Nat.add_assoc, Nat.add_comm 1]

theorem readBytes_of_le (h : a + n ≤ size) : m.readBytes a n = .ok (m.load a n) := by
  induction n generalizing a with
  | zero => rfl
  | succ n ih =>
    have hb := readByte_of_lt (m := m) (a := a) (by omega)
    have hr := ih (a := a + 1) (by omega)
    simp [readBytes, hb, hr, load_succ, pure, Except.pure]

/-- Reading a row stops at the first byte that is not there. -/
theorem readBytes_of_size_lt (hn : n ≠ 0) (h : size < a + n) :
    m.readBytes a n = .error (.outOfBounds (Float.ofNat (max a size)) .read) := by
  induction n generalizing a with
  | zero => exact absurd rfl hn
  | succ n ih =>
    by_cases ha : a < size
    · have hb := readByte_of_lt (m := m) ha
      have hr := ih (a := a + 1) (by omega) (by omega)
      have hmax : max (a + 1) size = max a size := by omega
      simp [readBytes, hb, hr, hmax]
    · have hle : size ≤ a := Nat.not_lt.mp ha
      have hb := readByte_of_size_le (m := m) hle
      simp [readBytes, hb, Nat.max_eq_left hle]

/-- The first address is checked before the last one, and both before the protection. -/
theorem checkSpan_succ (a n : ℕ) (access : Access) :
    checkSpan a (n + 1) access =
      if size ≤ a then .error (.outOfBounds (Float.ofNat a) access)
      else if size ≤ a + n then .error (.outOfBounds (Float.ofNat (a + n)) access)
      else if access = .write ∧ a < programStart then .error (.writeProtected (Float.ofNat a))
      else .ok () := by
  have hn : ¬ n + 1 ≤ Scalar.ofNat 0 := by simp
  have hlast : a + (n + 1) - Scalar.ofNat 1 = a + n := by simp
  unfold checkSpan
  rw [if_neg hn, hlast]
  by_cases ha : size ≤ a
  · simp [locate_of_size_le ha, ha]
  · by_cases hl : size ≤ a + n
    · simp [locate_of_lt (Nat.lt_of_not_le ha), locate_of_size_le hl, ha, hl]
    · have hfirst : locate a access = .ok a := locate_of_lt (Nat.lt_of_not_le ha)
      have hend : locate (a + n) access = .ok (a + n) := locate_of_lt (Nat.lt_of_not_le hl)
      cases access with
      | read => simp [hfirst, hend, ha, hl, pure, Except.pure]
      | write =>
        by_cases hp : a < programStart <;>
          simp [hfirst, hend, ha, hl, hp, checkWritable, Scalar.toFloat]

/-- A checked row lies in the address space, and in program space if it is to be written. -/
theorem checkSpan_succ_eq_ok_iff :
    checkSpan a (n + 1) access = .ok () ↔
      a + (n + 1) ≤ size ∧ (access = .write → programStart ≤ a) := by
  rw [checkSpan_succ]
  split
  · simp
    omega
  · split
    · simp
      omega
    · split
      · rename_i hp
        simp [hp.1, hp.2]
      · rename_i hp
        simp only [not_and, not_lt] at hp
        simp only [true_iff]
        exact ⟨by omega, hp⟩

end Memory

end Chip8
