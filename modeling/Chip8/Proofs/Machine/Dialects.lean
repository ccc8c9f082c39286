import Chip8.Proofs.Machine.Program
import Chip8.Proofs.Runner.PowerOn

/-! Machines of different dialects, side by side. -/
namespace Chip8

/-- The points on which dialects differ, named after the instructions that tell them. -/
inductive Family where
  | shift
  | bitwise
  | block

/-- What a dialect says on a point. -/
def Dialect.choice (d : Dialect) : Family → Bool
  | .shift => d.shiftsSecond
  | .bitwise => d.logicClearsFlag
  | .block => d.blocksMoveIndex

namespace Instruction

variable {α : Type}

def family? : Instruction α → Option Family
  | arith op _ _ =>
    match op with
    | .shiftRight | .shiftLeft => some .shift
    | .or | .and | .xor => some .bitwise
    | _ => none
  | store _ => some .block
  | load _ => some .block
  | _ => none

end Instruction

/-- The dialects say the same on what the instruction depends on. -/
def Dialect.Agree {α : Type} (d e : Dialect) (i : Instruction α) : Prop :=
  ∀ family, i.family? = some family → d.choice family = e.choice family

theorem Dialect.Agree.evalAvailable_eq {α : Type} {d e : Dialect} {op : ArithOp} {x y : α}
    (h : d.Agree e (.arith op x y)) (a? b? : Option UInt8) :
    op.evalAvailable e a? b? = op.evalAvailable d a? b? := by
  cases op with
  | or | and | xor =>
    have hflag : d.logicClearsFlag = e.logicClearsFlag := h .bitwise rfl
    simp only [ArithOp.evalAvailable, ArithOp.eval, hflag]
  | shiftRight | shiftLeft =>
    have hsecond : d.shiftsSecond = e.shiftsSecond := h .shift rfl
    simp only [ArithOp.evalAvailable, ArithOp.eval, hsecond]
  | _ => rfl

def Machine.withDialect (m : Machine) (e : Dialect) : Machine :=
  { m with dialect := e }

def Outcome.withDialect (o : Outcome) (e : Dialect) : Outcome :=
  { o with machine := o.machine.withDialect e }

namespace Machine

section Operands

variable {α : Type} [Scalar α] {m p q : Machine} {e : Dialect} {i : Instruction α}

/-- The registers that the instruction combines hold the same. -/
def SameOperands (m : Machine) : Instruction α → Prop
  | .arith _ x y => m.value? (.of x) = m.value? (.of y)
  | _ => False

/-- How far machines may be apart behind an instruction that began in `m` but for the dialect: by
the flag, by the index, or not at all. Shifts are of no concern where the operands differ. -/
def Apart (m : Machine) (i : Instruction α) (p q : Machine) : Prop :=
  match i.family? with
  | none => q = p
  | some .shift => m.SameOperands i → q = p
  | some .bitwise => ∃ flag, q = p.setReg 15 flag
  | some .block => ∃ index, q = { p with index }

/-- They are so far apart at most, and not at all where the dialects agree. -/
structure Within (m : Machine) (e : Dialect) (i : Instruction α) (p q : Machine) : Prop where
  apart : m.Apart i p q
  same : m.dialect.Agree e i → q = p

theorem setReg_self (m : Machine) (x : ℕ) : m.setReg x (m.reg x) = m := by
  have h : m.registers.setIfInBounds x (m.reg x) = m.registers := by
    ext j hj
    by_cases hx : x = j
    · subst hx
      simp [reg, hj]
    · simp [Vector.getElem_setIfInBounds_ne, hx]
  rw [setReg, h]

theorem setReg_setReg (m : Machine) (x : ℕ) (a b : UInt8) :
    (m.setReg x a).setReg x b = m.setReg x b := by
  simp [setReg]

theorem within_refl (m : Machine) (e : Dialect) (i : Instruction α) (p : Machine) :
    Within m e i p p := by
  refine ⟨?_, fun _ => rfl⟩
  unfold Apart
  split
  · rfl
  · exact fun _ => rfl
  · exact ⟨p.reg 15, (setReg_self p 15).symm⟩
  · exact ⟨p.index, rfl⟩

/-- What is done to both leaves them as they were to each other, if it has no part in the flag and
in the index. -/
theorem Within.map {f : Machine → Machine} (h : Within m e i p q)
    (hflag : ∀ p flag, f (p.setReg 15 flag) = (f p).setReg 15 flag)
    (hindex : ∀ (p : Machine) index, f { p with index } = { f p with index }) :
    Within m e i (f p) (f q) := by
  obtain ⟨hapart, hsame⟩ := h
  refine ⟨?_, fun hagree => congrArg f (hsame hagree)⟩
  unfold Apart at hapart ⊢
  split at hapart
  · exact congrArg f hapart
  · exact fun hoperands => congrArg f (hapart hoperands)
  · obtain ⟨flag, rfl⟩ := hapart
    exact ⟨flag, hflag p flag⟩
  · obtain ⟨index, rfl⟩ := hapart
    exact ⟨index, hindex p index⟩

/-! The parts of an instruction. -/

theorem assign_withDialect (m : Machine) (e : Dialect) (r : Register) (b : UInt8) :
    (m.withDialect e).assign r b = (m.assign r b).withDialect e := by
  cases r <;> rfl

theorem value?_withDialect (m : Machine) (e : Dialect) (r : Register) :
    (m.withDialect e).value? r = m.value? r := by
  cases r <;> rfl

theorem read_withDialect (m : Machine) (e : Dialect) (r : Register) :
    (m.withDialect e).read r = m.read r := by
  cases r <;> rfl

theorem addToIndex_withDialect (m : Machine) (e : Dialect) (r : Register) :
    (m.withDialect e).addToIndex r = (m.addToIndex r).withDialect e := by
  cases r <;> rfl

theorem drawSprite_withDialect (m : Machine) (e : Dialect) (x y : Register) (sprite : List UInt8) :
    (m.withDialect e).drawSprite x y sprite = (m.drawSprite x y sprite).withDialect e := by
  have hflag (d : Display × Bool) :
      ({ m with display := d.1 }.withDialect e).setFlag d.2 =
        ({ m with display := d.1 }.setFlag d.2).withDialect e :=
    assign_withDialect _ e .flag _
  unfold drawSprite
  rw [value?_withDialect, value?_withDialect]
  cases m.value? x with
  | none => exact hflag (m.display.miss sprite)
  | some a =>
    cases m.value? y with
    | none => exact hflag (m.display.miss sprite)
    | some b => exact hflag (m.display.draw (a.toNat : ℤ) (b.toNat : ℤ) sprite)

theorem effect_withDialect (hi : ∀ op x y, i ≠ .arith op x y) (m : Machine) (e : Dialect)
    (roll : UInt8) : (m.withDialect e).effect roll i = (m.effect roll i).withDialect e := by
  cases i with
  | arith op x y => exact absurd rfl (hi op x y)
  | setByte x nn => exact assign_withDialect _ _ _ _
  | addByte x nn => simp only [effect, read_withDialect, assign_withDialect]
  | random x nn => exact assign_withDialect _ _ _ _
  | readDelay x => exact assign_withDialect _ _ _ _
  | setDelay x => simp only [effect, read_withDialect]; rfl
  | setSound x => simp only [effect, read_withDialect]; rfl
  | addIndex x => exact addToIndex_withDialect _ _ _
  | pointGlyph x => simp only [effect, read_withDialect]; rfl
  | _ => rfl

theorem nextAddress_withDialect (m : Machine) (e : Dialect) (i : Instruction α) :
    (m.withDialect e).nextAddress i = m.nextAddress i := by
  cases i <;> rfl

theorem writeBytes_withDialect (m : Machine) (e : Dialect) (a : ℕ) (bs : List UInt8) :
    (m.withDialect e).writeBytes a bs = (m.writeBytes a bs).map id (·.withDialect e) := by
  induction bs generalizing m a with
  | nil => rfl
  | cons b bs ih =>
    have hmemory : (m.withDialect e).memory = m.memory := rfl
    unfold writeBytes
    rw [hmemory]
    cases m.memory.writeByte a b with
    | error f => rfl
    | ok memory => exact ih { m with memory } (a + 1)

theorem readRegisters_withDialect (m : Machine) (e : Dialect) (a x n : ℕ) :
    (m.withDialect e).readRegisters a x n = (m.readRegisters a x n).map id (·.withDialect e) := by
  induction n generalizing m a x with
  | zero => rfl
  | succ n ih =>
    have hmemory : (m.withDialect e).memory = m.memory := rfl
    unfold readRegisters
    rw [hmemory]
    cases m.memory.readByte a with
    | error f => rfl
    | ok b => exact ih (m.setReg x b) (a + 1) (x + 1)

-- A machine under its own dialect is the machine itself, so the dialect is read off the right side.
theorem dialect_writeBytes (m : Machine) (a : ℕ) (bs : List UInt8) :
    (m.writeBytes a bs).2.dialect = m.dialect :=
  congrArg (·.2.dialect) (writeBytes_withDialect m m.dialect a bs)

theorem dialect_readRegisters (m : Machine) (a x n : ℕ) :
    (m.readRegisters a x n).2.dialect = m.dialect :=
  congrArg (·.2.dialect) (readRegisters_withDialect m m.dialect a x n)

theorem arith_withDialect {op : ArithOp} {x y : Register}
    (h : op.evalAvailable e (m.value? x) (m.value? y) =
      op.evalAvailable m.dialect (m.value? x) (m.value? y)) :
    (m.withDialect e).arith op x y = (m.arith op x y).withDialect e := by
  have hdialect : (m.withDialect e).dialect = e := rfl
  unfold arith
  rw [value?_withDialect, value?_withDialect, hdialect, h]
  obtain ⟨value, flag⟩ := op.evalAvailable m.dialect (m.value? x) (m.value? y)
  cases flag with
  | none => exact assign_withDialect m e x value
  | some f => simp only [setFlag, assign_withDialect]

/-- A bitwise operation is an assignment, and in some dialects the flag is cleared behind it. -/
theorem arith_bitwise {op : ArithOp} (hop : op = .or ∨ op = .and ∨ op = .xor) (x y : Register) :
    ∃ q : Machine, ∀ e, (m.withDialect e).arith op x y =
      (if e.logicClearsFlag then q.setReg 15 0 else q).withDialect e := by
  refine ⟨m.assign x (op.eval m.dialect ((m.value? x).getD 0) ((m.value? y).getD 0)).1, fun e => ?_⟩
  have hdialect : (m.withDialect e).dialect = e := rfl
  unfold arith
  rw [value?_withDialect, value?_withDialect, hdialect]
  rcases hop with rfl | rfl | rfl <;> cases h : e.logicClearsFlag <;>
    simp [ArithOp.evalAvailable, ArithOp.needsBoth, ArithOp.eval, h, assign_withDialect] <;> rfl

theorem apart_bitwise {op : ArithOp} (hop : op = .or ∨ op = .and ∨ op = .xor) (x y : Register) :
    ∃ flag, (m.withDialect e).arith op x y =
      ((m.arith op x y).withDialect e).setReg 15 flag := by
  obtain ⟨q, hq⟩ := arith_bitwise (m := m) hop x y
  have hset (d : Dialect) (flag : UInt8) :
      (if d.logicClearsFlag then q.setReg 15 0 else q).setReg 15 flag = q.setReg 15 flag := by
    split
    · exact setReg_setReg q 15 0 flag
    · rfl
  have hback : (if e.logicClearsFlag then q.setReg 15 0 else q) = q.setReg 15 _ :=
    (setReg_self _ 15).symm.trans (hset e _)
  have hm : m.arith op x y = _ := hq m.dialect
  refine ⟨(if e.logicClearsFlag then q.setReg 15 0 else q).reg 15, ?_⟩
  rw [hm, hq e]
  exact congrArg (·.withDialect e) (hback.trans (hset m.dialect _).symm)

theorem apart_arith (op : ArithOp) (x y : α) :
    m.Apart (.arith op x y) ((m.arith op (.of x) (.of y)).withDialect e)
      ((m.withDialect e).arith op (.of x) (.of y)) := by
  have hshift (hoperands : m.value? (.of x) = m.value? (.of y)) (hop : ∀ d d' b?,
      op.evalAvailable d b? b? = op.evalAvailable d' b? b?) :
      (m.withDialect e).arith op (.of x) (.of y) =
        (m.arith op (.of x) (.of y)).withDialect e := by
    apply arith_withDialect
    rw [hoperands]
    exact hop e m.dialect _
  cases op with
  | or => exact apart_bitwise (.inl rfl) _ _
  | and => exact apart_bitwise (.inr (.inl rfl)) _ _
  | xor => exact apart_bitwise (.inr (.inr rfl)) _ _
  | shiftRight | shiftLeft =>
    intro hoperands
    apply hshift hoperands
    simp [ArithOp.evalAvailable, ArithOp.needsBoth, ArithOp.eval]
  | _ => exact arith_withDialect rfl

theorem within_arith (op : ArithOp) (x y : α) :
    Within m e (.arith op x y) ((m.arith op (.of x) (.of y)).withDialect e)
      ((m.withDialect e).arith op (.of x) (.of y)) :=
  ⟨apart_arith op x y, fun hagree => arith_withDialect (hagree.evalAvailable_eq _ _)⟩

/-- The end of an instruction that began in `m`, beside its end under the other dialect. -/
structure Beside (m : Machine) (e : Dialect) (i : Instruction α) (o o' : Option Fault × Machine) :
    Prop where
  fault : o'.1 = o.1
  machine : Within m e i (o.2.withDialect e) o'.2

variable {o o' : Option Fault × Machine}

theorem beside_of_eq (h : o' = o.map id (·.withDialect e)) : Beside m e i o o' := by
  rw [h]
  exact ⟨rfl, within_refl m e i _⟩

theorem beside_checked {next : Machine → Option Fault × Machine} (length : α) (access : Access)
    (h : Beside m e i (next m) (next (m.withDialect e))) :
    Beside m e i (m.checked length access next) ((m.withDialect e).checked length access next) := by
  have hindex : (m.withDialect e).index = m.index := rfl
  unfold checked
  rw [hindex]
  cases Memory.checkSpan (Scalar.ofNat m.index.toNat) length access with
  | error f => exact beside_of_eq rfl
  | ok u => exact h

theorem within_moveIndex {x : α} (hi : i = .store x ∨ i = .load x) (q : Machine)
    (hq : q.dialect = m.dialect) :
    Within m e i ((q.moveIndex x).withDialect e) ((q.withDialect e).moveIndex x) := by
  have hfamily : i.family? = some .block := by
    rcases hi with rfl | rfl <;> rfl
  have hmove (q : Machine) : q.moveIndex x = { q with index := (q.moveIndex x).index } := by
    unfold moveIndex
    split <;> rfl
  constructor
  · simp only [Apart, hfamily]
    refine ⟨((q.withDialect e).moveIndex x).index, ?_⟩
    rw [hmove (q.withDialect e), hmove q]
    rfl
  · intro hagree
    have hchoice : q.dialect.blocksMoveIndex = e.blocksMoveIndex := by
      rw [hq]
      exact hagree .block hfamily
    have hdialect : (q.withDialect e).dialect = e := rfl
    unfold moveIndex
    rw [hdialect, hchoice]
    split <;> rfl

/-- The index moves at the end of a block, behind the accesses. -/
theorem beside_goOn {x : α} (hi : i = .store x ∨ i = .load x)
    (ho : o.2.dialect = m.dialect) :
    Beside m e i (goOn o fun m => (none, m.moveIndex x))
      (goOn (o.map id (·.withDialect e)) fun m => (none, m.moveIndex x)) := by
  obtain ⟨f, q⟩ := o
  cases f with
  | some f => exact beside_of_eq rfl
  | none => exact ⟨rfl, within_moveIndex hi q ho⟩

theorem beside_perform (m : Machine) (e : Dialect) (roll : UInt8) (i : Instruction α) :
    Beside m e i (m.perform roll i) ((m.withDialect e).perform roll i) := by
  cases i with
  | arith op x y => exact ⟨rfl, within_arith op x y⟩
  | store x =>
    apply beside_checked
    rw [writeBytes_withDialect]
    exact beside_goOn (.inl rfl) (dialect_writeBytes m _ _)
  | load x =>
    apply beside_checked
    rw [readRegisters_withDialect]
    exact beside_goOn (.inr rfl) (dialect_readRegisters m _ _ _)
  | ret =>
    have hstack : (m.withDialect e).stack = m.stack := rfl
    simp only [perform, hstack]
    cases m.stack.pop? <;> exact beside_of_eq rfl
  | call nnn =>
    have hstack : (m.withDialect e).stack = m.stack := rfl
    have haddress : (m.withDialect e).returnAddress = m.returnAddress := rfl
    simp only [perform, hstack, haddress]
    cases m.stack.push? (UInt16.ofNat m.returnAddress) <;> exact beside_of_eq rfl
  | draw x y n =>
    have hmemory : (m.withDialect e).memory = m.memory := rfl
    have hindex : (m.withDialect e).index = m.index := rfl
    simp only [perform, hmemory, hindex, drawSprite_withDialect]
    cases m.memory.readBytes m.index.toNat (Scalar.count n) <;> exact beside_of_eq rfl
  | storeDecimal x =>
    apply beside_checked
    apply beside_of_eq
    rw [read_withDialect]
    exact writeBytes_withDialect m e _ _
  | skipIfKey x | skipUnlessKey x =>
    simp only [perform, keyFault?, value?_withDialect]
    exact beside_of_eq rfl
  | machineCall nnn => exact beside_of_eq rfl
  | _ =>
    apply beside_of_eq
    refine congrArg (Prod.mk none) (effect_withDialect ?_ m e roll)
    simp

theorem beside_carryOut (m : Machine) (e : Dialect) (roll : UInt8) (i : Instruction α) :
    Beside m e i (m.carryOut roll i) ((m.withDialect e).carryOut roll i) := by
  obtain ⟨hfault, hmachine⟩ := beside_perform m e roll i
  simp only [carryOut, nextAddress_withDialect]
  generalize m.perform roll i = o at hfault hmachine
  generalize (m.withDialect e).perform roll i = o' at hfault hmachine
  obtain ⟨f, p⟩ := o
  obtain ⟨f', q⟩ := o'
  obtain rfl : f' = f := hfault
  cases f' with
  | some f => exact ⟨rfl, hmachine⟩
  | none =>
    refine ⟨rfl, ?_⟩
    exact hmachine.map (f := fun p => { p with pc := Scalar.toWord16 (m.nextAddress i) })
      (fun _ _ => rfl) (fun _ _ => rfl)

/-- What a call on `m` comes to, beside what it comes to under the other dialect. -/
structure Matches (m : Machine) (e : Dialect) (i : Instruction α) (o o' : Outcome) : Prop where
  failure : o'.failure? = o.failure?
  source : o'.source = o.source
  machine : Within m e i (o.machine.withDialect e) o'.machine

theorem matches_of_eq {o o' : Outcome} (h : o' = o.withDialect e) : Matches m e i o o' := by
  rw [h]
  exact ⟨rfl, rfl, within_refl m e i _⟩

theorem matches_execute (m : Machine) (e : Dialect) (s : Source) (i : Instruction α) :
    Matches m e i (m.execute s i) ((m.withDialect e).execute s i) := by
  have hmatches (roll : UInt8) (s : Source) :
      Matches m e i (.of (m.carryOut roll i) s) (.of ((m.withDialect e).carryOut roll i) s) := by
    obtain ⟨hfault, hmachine⟩ := beside_carryOut m e roll i
    exact ⟨congrArg (Option.map Failure.fault) hfault, rfl, hmachine⟩
  unfold execute
  cases rowsFailure? i with
  | some f => exact matches_of_eq rfl
  | none =>
    cases i with
    | random x nn =>
      rcases s.next with ⟨f | x, s⟩
      · exact matches_of_eq rfl
      · exact hmatches _ s
    | _ => exact hmatches 0 s

end Operands

section Steps

variable {m : Machine} {s : Source} {e : Dialect} {i : Instruction ℕ} {o o' : Outcome}

theorem Matches.settle (h : Matches m e i o o') : Matches m e i (settle o) (settle o') := by
  obtain ⟨failure, p, s⟩ := o
  obtain ⟨failure', q, s'⟩ := o'
  obtain ⟨rfl, rfl, hmachine⟩ : failure' = failure ∧ s' = s ∧ _ := ⟨h.failure, h.source, h.machine⟩
  cases failure' with
  | none =>
    exact ⟨rfl, rfl, hmachine.map (f := counted) (fun _ _ => rfl) (fun _ _ => rfl)⟩
  | some failure =>
    cases failure with
    | fault f => exact ⟨rfl, rfl, hmachine.map (f := (·.halt f)) (fun _ _ => rfl) (fun _ _ => rfl)⟩
    | _ => exact ⟨rfl, rfl, hmachine⟩

theorem matches_step (hr : m.run = .running) (hi : m.Reads i) (e : Dialect) (s : Source) :
    Matches m e i (m.step s) ((m.withDialect e).step s) := by
  have hr' : (m.withDialect e).run = .running := hr
  have hi' : (m.withDialect e).Reads i := hi
  rw [step_of_reads hr hi, step_of_reads hr' hi']
  obtain ⟨hfailure, hsource, hapart, hsame⟩ :=
    (matches_execute (m.fetched m.opcode) e s i).settle
  exact ⟨hfailure, hsource, hapart, hsame⟩

theorem Matches.eq_withDialect (h : Matches m e i o o') (hagree : m.dialect.Agree e i) :
    o' = o.withDialect e := by
  obtain ⟨failure, p, s⟩ := o
  obtain ⟨failure', q, s'⟩ := o'
  obtain ⟨rfl, rfl, rfl⟩ : failure' = failure ∧ s' = s ∧ q = p.withDialect e :=
    ⟨h.failure, h.source, h.machine.same hagree⟩
  rfl

theorem agree_of_rolled {s' : Source} {failure : Failure} (h : rolled s i = (.error failure, s'))
    (d e : Dialect) : d.Agree e i := by
  cases i with
  | random x nn => exact fun _ hfamily => nomatch hfamily
  | _ => cases h

theorem fault?_withDialect (m : Machine) (e : Dialect) (i : Instruction ℕ) :
    (m.withDialect e).fault? i = m.fault? i := by
  cases i <;> rfl

/-- An instruction that fails does so in every dialect, and nothing else happens. -/
theorem step_withDialect_of_reads (hr : m.run = .running) (hi : m.Reads i)
    (hagree : completes (m, s) = true → m.dialect.Agree e i) :
    (m.withDialect e).step s = (m.step s).withDialect e := by
  have hr' : (m.withDialect e).run = .running := hr
  have hi' : (m.withDialect e).Reads i := hi
  have hsame (h : m.dialect.Agree e i) := (matches_step hr hi e s).eq_withDialect h
  cases hf : m.fault? i with
  | some f =>
    rw [step_of_fault? hr hi hf, step_of_fault? hr' hi' ((fault?_withDialect m e i).trans hf)]
    rfl
  | none =>
    rcases hroll : rolled s i with ⟨failure | roll, s'⟩
    · exact hsame (agree_of_rolled hroll _ _)
    · exact hsame (hagree (completes_of_rolled hr hi hf hroll))

theorem step_withDialect_of_not_reads (hr : m.run = .running) (hi : ∀ i, ¬ m.Reads i) (e : Dialect)
    (s : Source) : (m.withDialect e).step s = (m.step s).withDialect e := by
  have hr' : (m.withDialect e).run = .running := hr
  rw [step_of_running hr, step_of_running hr']
  by_cases hpc : m.pc.toNat ≤ 0xffe
  · cases hword : Instruction.ofWord? m.opcode.toNat with
    | some i => exact absurd (reads_iff.mpr ⟨hpc, hword⟩) (hi i)
    | none =>
      have hword' : Instruction.ofWord? (m.withDialect e).opcode.toNat = none := hword
      simp only [fetchAndExecute, readWord_of_le hpc, readWord_of_le (m := m.withDialect e) hpc,
        hword, hword']
      rfl
  · obtain ⟨address, hw⟩ := Memory.readWord_of_size_le (m := m.memory) (a := m.pc.toNat)
      (show 0x1000 ≤ m.pc.toNat + 1 by omega)
    rw [fetchAndExecute_of_error hw, fetchAndExecute_of_error (m := m.withDialect e) hw]
    rfl

theorem pollKey_withDialect (m : Machine) (e : Dialect) (register : Register) :
    (m.withDialect e).pollKey register = (m.pollKey register).withDialect e := by
  have hkeypad : (m.withDialect e).keypad = m.keypad := rfl
  unfold pollKey
  rw [hkeypad]
  rcases m.keypad.takeLatched with ⟨none | k, keypad⟩
  · rfl
  · simp only [assign_withDialect]
    rfl

/-- A step comes to the same in both dialects if they agree on the instruction that it completes. -/
theorem step_withDialect
    (hagree : completes (m, s) = true → ∀ i, m.Reads i → m.dialect.Agree e i) :
    (m.withDialect e).step s = (m.step s).withDialect e := by
  cases hr : m.run with
  | halted f =>
    have hr' : (m.withDialect e).run = .halted f := hr
    simp only [step, hr, hr']
    rfl
  | awaitingKey register =>
    have hr' : (m.withDialect e).run = .awaitingKey register := hr
    simp only [step, hr, hr', pollKey_withDialect]
    rfl
  | running =>
    by_cases hreads : ∃ i, m.Reads i
    · obtain ⟨i, hi⟩ := hreads
      exact step_withDialect_of_reads hr hi fun h => hagree h i hi
    · exact step_withDialect_of_not_reads hr (not_exists.mp hreads) e s

end Steps

/-! Rows of inputs. -/

variable {p : Machine × Source} {e : Dialect}

/-- What each of the inputs fails with. -/
def failures (p : Machine × Source) : List Input → List (Option Failure)
  | [] => []
  | x :: xs => inputFailure? p x :: failures (feed p x) xs

/-- The dialects agree on every instruction that the inputs make a machine complete. -/
def AgreeOn (d e : Dialect) (p : Machine × Source) : List Input → Prop
  | [] => True
  | x :: xs =>
    (x = .step → completes p = true → ∀ i, p.1.Reads i → d.Agree e i) ∧ AgreeOn d e (feed p x) xs

/-- The machine under another dialect, with the same source. -/
def under (e : Dialect) (p : Machine × Source) : Machine × Source :=
  (p.1.withDialect e, p.2)

theorem feed_under {x : Input}
    (h : x = .step → completes p = true → ∀ i, p.1.Reads i → p.1.dialect.Agree e i) :
    feed (under e p) x = under e (feed p x) ∧
      inputFailure? (under e p) x = inputFailure? p x := by
  cases x with
  | key x down =>
    have hkeypad : (p.1.withDialect e).keypad = p.1.keypad := rfl
    simp only [under, feed, inputFailure?, setKey, hkeypad]
    cases p.1.keypad.setKey x down <;> exact ⟨rfl, rfl⟩
  | releaseAll => exact ⟨rfl, rfl⟩
  | tick => exact ⟨rfl, rfl⟩
  | step =>
    have hstep := step_withDialect (h rfl)
    simp only [under, feed, inputFailure?, hstep]
    exact ⟨rfl, rfl⟩

theorem feedAll_under {inputs : List Input} (h : AgreeOn p.1.dialect e p inputs) :
    feedAll (under e p) inputs = under e (feedAll p inputs) ∧
      failures (under e p) inputs = failures p inputs := by
  induction inputs generalizing p with
  | nil => exact ⟨rfl, rfl⟩
  | cons x xs ih =>
    have hdialect : (feed p x).1.dialect = p.1.dialect :=
      (enduring_dialect p.1.dialect).toSteady.feed rfl x
    obtain ⟨hfeed, hfailure⟩ := feed_under h.1
    obtain ⟨hall, hfailures⟩ := ih (p := feed p x) (by rw [hdialect]; exact h.2)
    constructor
    · change feedAll (feed (under e p) x) xs = _
      rw [hfeed]
      exact hall
    · rw [failures, failures, hfailure, hfeed, hfailures]

/-- A machine and the same one in another dialect stay the same and fail alike as long as they
complete no instruction that the dialects differ on. Such an instruction, read or handed in, fails
alike too, and takes them apart by the flag or by the index alone; a shift does so only if its
registers are not the same. -/
theorem dialects_isolated {α : Type} [Scalar α] (m : Machine) (s : Source) (e : Dialect) :
    (∀ inputs, AgreeOn m.dialect e (m, s) inputs →
      feedAll (under e (m, s)) inputs = under e (feedAll (m, s) inputs) ∧
        failures (under e (m, s)) inputs = failures (m, s) inputs) ∧
    (∀ i : Instruction ℕ, m.run = .running → m.Reads i →
      Matches m e i (m.step s) ((m.withDialect e).step s)) ∧
    ∀ i : Instruction α, Matches m e i (m.execute s i) ((m.withDialect e).execute s i) :=
  ⟨fun _ h => feedAll_under (p := (m, s)) h, fun _ hr hi => matches_step hr hi e s,
    matches_execute m e s⟩

/-- A machine that adds one to a register. -/
def adding : Machine :=
  powerOn .standard (some ⟨#[0x70, 0x01], "add", by decide, by decide⟩)

/-- A machine that halves a register, with the same number in another one. -/
def halving : Machine :=
  ((powerOn .standard (some ⟨#[0x80, 0x16], "halve", by decide, by decide⟩)).setReg 0 7).setReg 1 7

theorem dialects_isolated_halving :
    let e : Dialect := ⟨true, true, true⟩
    let s := Source.seeded 0
    AgreeOn Dialect.standard e (adding, s) [.tick, .step] ∧
      feedAll (under e (adding, s)) [.tick, .step] = under e (feedAll (adding, s) [.tick, .step]) ∧
      halving.Reads (.arith .shiftRight 0 1) ∧
      ((halving.withDialect e).step s).machine = (halving.step s).machine.withDialect e := by
  intro e s
  have hadd : adding.tick.Reads (.addByte 0 1) :=
    reads_of_image rfl rfl ⟨by decide, by decide⟩ (by decide)
  have hagree : AgreeOn Dialect.standard e (adding, s) [.tick, .step] := by
    refine ⟨fun hx => (nomatch hx), fun _ _ i hi => ?_, trivial⟩
    obtain rfl := Reads.unique hi hadd
    exact fun _ hfamily => nomatch hfamily
  have hshift : halving.Reads (.arith .shiftRight 0 1) :=
    reads_of_image rfl rfl ⟨by decide, by decide⟩ (by decide)
  obtain ⟨hrun, _, _⟩ := dialects_isolated (α := ℕ) adding s e
  obtain ⟨_, hstep, _⟩ := dialects_isolated (α := ℕ) halving s e
  exact ⟨hagree, (hrun _ hagree).1, hshift, (hstep _ rfl hshift).machine.apart rfl⟩

end Machine

end Chip8
