import Chip8.Proofs.Machine.Step

/-! The byte registers behind an instruction. -/
namespace Chip8

namespace Instruction

/-- The registers that an instruction names as its destination. -/
def Targets : Instruction ℕ → ℕ → Prop
  | setByte x _, k => k = x
  | addByte x _, k => k = x
  | arith _ x _, k => k = x
  | random x _, k => k = x
  | readDelay x, k => k = x
  | load x, k => k ≤ x
  | _, _ => False

/-- The instructions that leave a flag. The bitwise operations do so where the dialect says so. -/
def Flags (d : Dialect) : Instruction ℕ → Prop
  | arith op _ _ =>
    match op with
    | .add | .sub | .shiftRight | .subFrom | .shiftLeft => True
    | .or | .and | .xor => d.logicClearsFlag = true
    | .copy => False
  | draw _ _ _ => True
  | _ => False

end Instruction

namespace Machine

variable {m : Machine} {i : Instruction ℕ} {x y k : ℕ}

theorem reg_assign (hx : x < 16) (m : Machine) (b : UInt8) (k : ℕ) :
    (m.assign (.of x) b).reg k = if k = x then b else m.reg k := by
  rw [Register.of_nat hx, assign, reg_setReg]
  by_cases h : k = x
  · simp [h, hx]
  · simp [h, Ne.symm h]

theorem reg_setFlag (m : Machine) (on : Bool) (k : ℕ) :
    (m.setFlag on).reg k = if k = 15 then (if on then 1 else 0) else m.reg k :=
  reg_assign (show 15 < 16 by decide) m _ k

/-- The result goes to the first register, and behind it the flag to its own, if there is one. -/
theorem reg_arith (hx : x < 16) (hy : y < 16) (m : Machine) (op : ArithOp) (k : ℕ) :
    (m.arith op (.of x) (.of y)).reg k =
      match op.eval m.dialect (m.reg x) (m.reg y) with
      | (b, some on) => if k = 15 then (if on then 1 else 0) else if k = x then b else m.reg k
      | (b, none) => if k = x then b else m.reg k := by
  unfold arith
  rw [m.value?_of_lt hx, m.value?_of_lt hy, ArithOp.evalAvailable_some]
  obtain ⟨b, flag⟩ := op.eval m.dialect (m.reg x) (m.reg y)
  cases flag with
  | none => exact reg_assign hx m b k
  | some on => simp only [reg_setFlag, reg_assign hx]

theorem reg_setRegisters (m : Machine) (x : ℕ) (bs : List UInt8) (k : ℕ) :
    (m.setRegisters x bs).reg k =
      if x ≤ k ∧ k < 16 then bs[k - x]?.getD (m.reg k) else m.reg k := by
  induction bs generalizing m x with
  | nil => simp [setRegisters]
  | cons b bs ih =>
    rw [setRegisters, ih, reg_setReg]
    rcases Nat.lt_trichotomy k x with h | rfl | h
    · have hbefore : ¬ x ≤ k ∧ ¬ x + 1 ≤ k ∧ x ≠ k := by omega
      simp [hbefore]
    · have hbehind : ¬ k + 1 ≤ k := by omega
      simp [hbehind]
    · have hsucc : k - x = k - (x + 1) + 1 := by omega
      have hbehind : x ≤ k ∧ x + 1 ≤ k ∧ x ≠ k := by omega
      simp [hbehind, hsucc]

theorem reg_moveIndex (m : Machine) (x k : ℕ) : (m.moveIndex x).reg k = m.reg k := by
  obtain ⟨_, h⟩ := moveIndex_eq m x
  rw [h]
  rfl

theorem reg_load (m : Machine) (roll : UInt8) (x k : ℕ) :
    (m.completed roll (.load x)).reg k =
      if k ≤ x ∧ k < 16 then m.memory.get (m.index.toNat + k) else m.reg k := by
  have hcompleted : m.completed roll (.load x) =
      (m.setRegisters 0 (m.memory.load m.index.toNat (x + 1))).moveIndex x := rfl
  rw [hcompleted, reg_moveIndex, reg_setRegisters, Nat.sub_zero]
  by_cases hk : k ≤ x
  · have hlt : k < (m.memory.load m.index.toNat (x + 1)).length := by
      rw [Memory.length_load]
      omega
    rw [List.getElem?_eq_getElem hlt, Option.getD_some, Memory.getElem_load]
    simp [hk]
  · have hle : (m.memory.load m.index.toNat (x + 1)).length ≤ k := by
      rw [Memory.length_load]
      omega
    rw [List.getElem?_eq_none hle, Option.getD_none]
    simp [hk]

theorem reg_drawSprite (hx : x < 16) (hy : y < 16) (m : Machine) (sprite : List UInt8)
    (hk : k ≠ 15) : (m.drawSprite (.of x) (.of y) sprite).reg k = m.reg k := by
  simp only [drawSprite, m.value?_of_lt hx, m.value?_of_lt hy, reg_setFlag, if_neg hk]
  rfl

theorem flags_of_eval {op : ArithOp} {d : Dialect} {a b : UInt8} (h : (op.eval d a b).2 ≠ none) :
    (Instruction.arith op x y).Flags d := by
  cases op with
  | copy => exact absurd rfl h
  | or | and | xor =>
    cases hd : d.logicClearsFlag with
    | true => exact hd
    | false => simp [ArithOp.eval, hd] at h
  | _ => trivial

/-- A register that is no destination stays as it was, but for the flag of an instruction that
leaves one. -/
theorem reg_completed (hi : i.InRange) (hk : ¬ i.Targets k) (hflag : k = 15 → ¬ i.Flags m.dialect)
    (roll : UInt8) : (m.completed roll i).reg k = m.reg k := by
  cases i with
  | setByte x nn => exact (reg_assign hi.1 m _ k).trans (if_neg hk)
  | addByte x nn => exact (reg_assign hi.1 m _ k).trans (if_neg hk)
  | random x nn => exact (reg_assign hi.1 m _ k).trans (if_neg hk)
  | readDelay x => exact (reg_assign hi m _ k).trans (if_neg hk)
  | arith op x y =>
    have hne : k ≠ x := hk
    refine (reg_arith hi.1 hi.2 m op k).trans ?_
    rcases he : op.eval m.dialect (m.reg x) (m.reg y) with ⟨b, _ | on⟩
    · exact if_neg hne
    · have h15 : k ≠ 15 := fun h => hflag h (flags_of_eval (by rw [he]; exact Option.some_ne_none on))
      simp only [if_neg h15, if_neg hne]
  | draw x y n =>
    have h15 : k ≠ 15 := fun h => hflag h trivial
    exact reg_drawSprite hi.1 hi.2.1 m _ h15
  | addIndex x =>
    obtain ⟨_, h⟩ := addToIndex_eq m (.of x)
    exact (congrArg (reg · k) h :)
  | store x => exact reg_moveIndex _ x k
  | load x =>
    have hle : ¬ (k ≤ x ∧ k < 16) := fun h => hk h.1
    exact (reg_load m roll x k).trans (if_neg hle)
  | _ => rfl

end Machine

end Chip8
