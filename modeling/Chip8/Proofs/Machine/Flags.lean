import Chip8.Proofs.Machine.Registers

/-! Sums, differences and shifts of two registers, and the flag that keeps what a byte cannot hold. -/
namespace Chip8

namespace ArithOp

/-- The flag of an operation on the bytes `a` and `b`, of which a shift takes the byte `s`: a sum that
is too great for a byte, a difference without a borrow, or the bit that a shift drops. -/
def carry? (a b s : ℕ) : ArithOp → Option Bool
  | add => some (255 < a + b)
  | sub => some (b ≤ a)
  | subFrom => some (a ≤ b)
  | shiftRight => some (s.testBit 0)
  | shiftLeft => some (s.testBit 7)
  | _ => none

/-- The result `r` and the flag `f` together lose nothing of what the operation takes. -/
def Balances (a b s r f : ℕ) : ArithOp → Prop
  | add => r + 256 * f = a + b
  | sub => r + b = a + 256 * (1 - f)
  | subFrom => r + a = b + 256 * (1 - f)
  | shiftRight => 2 * r + f = s
  | shiftLeft => r + 256 * f = 2 * s
  | _ => False

/-- The byte that a shift takes. -/
def shifted (d : Dialect) (a b : UInt8) : UInt8 :=
  if d.shiftsSecond then b else a

variable {op : ArithOp} {d : Dialect} {a b : UInt8} {c : Bool}

theorem flag_eval (h : op.carry? a.toNat b.toNat (shifted d a b).toNat = some c) :
    (op.eval d a b).2 = some c := by
  rw [← h]
  cases op with
  | add => rfl
  | sub => simp [eval, carry?, UInt8.le_iff_toNat_le]
  | subFrom => simp [eval, carry?, UInt8.le_iff_toNat_le]
  | shiftRight =>
    simp only [eval, carry?, Nat.testBit_zero, shifted]
    rfl
  | shiftLeft =>
    have hs := (shifted d a b).toNat_lt
    have hbit : (128 ≤ (shifted d a b).toNat) ↔ (shifted d a b).toNat / 2 ^ 7 % 2 = 1 := by omega
    simp only [eval, carry?, Nat.testBit_eq_decide_div_mod_eq, ← hbit]
    rfl
  | _ => cases h

theorem toNat_flag {p : Prop} [Decidable p] (h : some (decide p) = some c) : c.toNat = 1 ↔ p := by
  rw [Bool.toNat_eq_one, ← Option.some.inj h, decide_eq_true_iff]

theorem balances_eval (h : op.carry? a.toNat b.toNat (shifted d a b).toNat = some c) :
    op.Balances a.toNat b.toNat (shifted d a b).toNat (op.eval d a b).1.toNat c.toNat := by
  have ha := a.toNat_lt
  have hb := b.toNat_lt
  have hs := (shifted d a b).toNat_lt
  have hc := c.toNat_lt
  cases op with
  | add =>
    have hone : c.toNat = 1 ↔ 255 < a.toNat + b.toNat := toNat_flag h
    simp only [Balances, eval, UInt8.toNat_add]
    omega
  | sub =>
    have hone : c.toNat = 1 ↔ b.toNat ≤ a.toNat := toNat_flag h
    simp only [Balances, eval, UInt8.toNat_sub]
    omega
  | subFrom =>
    have hone : c.toNat = 1 ↔ a.toNat ≤ b.toNat := toNat_flag h
    simp only [Balances, eval, UInt8.toNat_sub]
    omega
  | shiftRight =>
    obtain rfl := Option.some.inj h
    have hr : (shifted d a b >>> 1).toNat = (shifted d a b).toNat / 2 := by
      simp [Nat.shiftRight_eq_div_pow]
    change 2 * (shifted d a b >>> 1).toNat + _ = _
    rw [hr, Nat.toNat_testBit]
    omega
  | shiftLeft =>
    obtain rfl := Option.some.inj h
    have hr : (shifted d a b <<< 1).toNat = 2 * (shifted d a b).toNat % 256 := by
      simp [Nat.shiftLeft_eq, Nat.mul_comm]
    change (shifted d a b <<< 1).toNat + _ = _
    rw [hr, Nat.toNat_testBit]
    omega
  | _ => cases h

end ArithOp

namespace Machine

variable {m q : Machine} {s : Source} {op : ArithOp} {x y : Fin 16} {c : Bool} {roll : UInt8}

/-- The number that a shift takes, from the second register where the dialect says so. -/
def shiftSource (m : Machine) (x y : Fin 16) : ℕ :=
  (m.reg (if m.dialect.shiftsSecond then y else x)).toNat

/-- What an operation with a flag leaves in the registers. The flag is there even if it took the
place of the result. -/
structure Flagged (m : Machine) (op : ArithOp) (x y : Fin 16) (c : Bool) (q : Machine) : Prop where
  flag : (q.reg 15).toNat = c.toNat
  result : x ≠ 15 →
    op.Balances (m.reg x).toNat (m.reg y).toNat (m.shiftSource x y) (q.reg x).toNat c.toNat
  kept : ∀ k, k ≠ x.val → k ≠ 15 → q.reg k = m.reg k

theorem shiftSource_eq (m : Machine) (x y : Fin 16) :
    m.shiftSource x y = (ArithOp.shifted m.dialect (m.reg x) (m.reg y)).toNat := by
  unfold shiftSource ArithOp.shifted
  split <;> rfl

theorem flagged_apply (hc : op.carry? (m.reg x).toNat (m.reg y).toNat (m.shiftSource x y) = some c)
    (roll : UInt8) : Flagged m op x y c (m.apply (.arith op x.val y.val) roll) := by
  rw [shiftSource_eq] at hc
  have hbalances := ArithOp.balances_eval hc
  have hreg (k : ℕ) : (m.apply (.arith op x.val y.val) roll).reg k =
      if k = 15 then (if c then 1 else 0)
      else if k = x.val then (op.eval m.dialect (m.reg x) (m.reg y)).1 else m.reg k := by
    have harith := reg_arith x.isLt y.isLt m op k
    rcases he : op.eval m.dialect (m.reg x) (m.reg y) with ⟨b, flag⟩
    obtain rfl : flag = some c := by rw [← ArithOp.flag_eval hc, he]
    rw [he] at harith
    exact harith
  constructor
  case flag =>
    rw [hreg, if_pos rfl]
    cases c <;> rfl
  case result =>
    intro hx
    have hne : x.val ≠ 15 := fun h => hx (Fin.ext h)
    rw [hreg, if_neg hne, if_pos rfl, shiftSource_eq]
    exact hbalances
  case kept =>
    intro k hk hk15
    rw [hreg, if_neg hk15, if_neg hk]

/-- An operation with a flag, handed in or read by a step, leaves the flag in its register, whatever
registers it is applied to. The result makes up for the flag, and no other register changes. -/
theorem arith_flagged
    (hc : op.carry? (m.reg x).toNat (m.reg y).toNat (m.shiftSource x y) = some c) (s : Source)
    (o : Outcome)
    (ho : o = m.execute s (.arith op x.val y.val) ∨
      m.run = .running ∧ m.Reads (.arith op x.val y.val) ∧ o = m.step s) :
    o.failure? = none ∧ Flagged m op x y c o.machine := by
  obtain rfl | ⟨hr, hi, rfl⟩ := ho
  · have hi : (Instruction.arith op x.val y.val).InRange := ⟨x.isLt, y.isLt⟩
    rw [execute_of_rolled hi rfl rfl]
    exact ⟨rfl, flagged_apply hc 0⟩
  · rw [step_of_rolled hr hi rfl rfl]
    have hflagged := flagged_apply (m := m.fetched m.opcode) hc 0
    exact ⟨rfl, hflagged.flag, hflagged.result, hflagged.kept⟩

/-- A machine that is to take its flag register, which holds 3, from register 1, which holds 2, with
the difference to be put into the flag register. -/
def borrowing : Machine :=
  ((powerOn .standard (some ⟨#[0x8f, 0x17], "borrow", by decide, by decide⟩)).setReg 15 3).setReg 1 2

theorem arith_flagged_borrowing :
    ArithOp.carry? (borrowing.reg 15).toNat (borrowing.reg 1).toNat
        (borrowing.shiftSource 15 1) .subFrom = some false ∧
      borrowing.run = .running ∧ borrowing.Reads (.arith .subFrom 15 1) ∧
      (borrowing.step (.seeded 0)).failure? = none ∧
      Flagged borrowing .subFrom 15 1 false (borrowing.step (.seeded 0)).machine := by
  have hc : ArithOp.carry? (borrowing.reg 15).toNat (borrowing.reg 1).toNat
      (borrowing.shiftSource 15 1) .subFrom = some false := by decide
  have hi : (Instruction.arith .subFrom 15 1).InRange := ⟨by decide, by decide⟩
  have hreads : borrowing.Reads (.arith .subFrom 15 1) := reads_of_image rfl rfl hi (by decide)
  exact ⟨hc, rfl, hreads,
    arith_flagged (x := 15) (y := 1) hc (.seeded 0) _ (.inr ⟨rfl, hreads, rfl⟩)⟩

end Machine

end Chip8
