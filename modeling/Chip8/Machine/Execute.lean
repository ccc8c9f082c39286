import Chip8.Instruction
import Chip8.Machine.Arithmetic
import Chip8.Source

/-! One decoded instruction, access by access. -/

namespace Chip8

/-- The end of a call on a machine: why it failed, if it did, and what it left behind. -/
structure Outcome where
  failure? : Option Failure
  machine : Machine
  source : Source

def Outcome.of (o : Option Fault × Machine) (source : Source) : Outcome where
  failure? := o.1.map .fault
  machine := o.2
  source

namespace Machine

section Operands

variable {α : Type} [Scalar α]

/-- The error for a count of sprite rows that no array has: a negative one, or one that is too
great. -/
def rowsFailure? : Instruction α → Option Failure
  | .draw _ _ n =>
    if n + Scalar.ofNat 1 ≤ Scalar.ofNat 0 ∨ Scalar.ofNat (Failure.lengthLimit + 1) ≤ n then
      some (.invalidLength (Scalar.text n))
    else none
  | _ => none

/-- The fault of a question for the key that a register names. -/
def keyFault? (m : Machine) (r : Register) : Option Fault :=
  match m.value? r with
  | some b => if b.toNat < Keypad.keyCount then none else some (.invalidKey (Float.ofNat b.toNat))
  | none => some .missingKey

/-- Whether the key of a register is down. -/
def keyDown (m : Machine) (r : Register) : Bool :=
  m.keypad.held.getLsbD (m.read r).toNat

/-- Whether a register holds a number. One that is not there holds none. -/
def holds (m : Machine) (r : Register) (nn : α) : Bool :=
  match m.value? r with
  | some b => Scalar.natural? nn == some b.toNat
  | none => false

/-- The address behind the next instruction if `skip`, and of the next one otherwise. -/
def skipTo (m : Machine) (skip : Bool) : Nat :=
  m.pc.toNat + if skip then 4 else 2

/-- The address that the program goes on at, before it is cut to sixteen bits. -/
def nextAddress (m : Machine) : Instruction α → α
  | .ret => Scalar.ofNat (m.stack.top?.getD 0).toNat
  | .jump nnn => nnn
  | .call nnn => nnn
  | .jumpOffset nnn => nnn + Scalar.ofNat (m.reg 0).toNat
  | .skipIfByte x nn => Scalar.ofNat (m.skipTo (m.holds (.of x) nn))
  | .skipUnlessByte x nn => Scalar.ofNat (m.skipTo !(m.holds (.of x) nn))
  | .skipIfSame x y => Scalar.ofNat (m.skipTo (m.value? (.of x) == m.value? (.of y)))
  | .skipUnlessSame x y => Scalar.ofNat (m.skipTo (m.value? (.of x) != m.value? (.of y)))
  | .skipIfKey x => Scalar.ofNat (m.skipTo (m.keyDown (.of x)))
  | .skipUnlessKey x => Scalar.ofNat (m.skipTo !(m.keyDown (.of x)))
  | .waitKey _ => Scalar.ofNat m.pc.toNat
  | _ => Scalar.ofNat (m.skipTo false)

/-- The address that a call returns to, before it is cut to sixteen bits. -/
def returnAddress (m : Machine) : Nat :=
  m.pc.toNat + 2

/-- The three decimal digits of a byte. -/
def decimalDigits (b : UInt8) : List UInt8 :=
  [b / 100, b / 10 % 10, b % 10]

/-- The first registers; behind the last one there are zeros. -/
def firstRegisters (m : Machine) (count : Nat) : List UInt8 :=
  (List.range count).map m.reg

/-- Adds a register to the index. Nothing can be added from one that is not there, and the index
is lost. -/
def addToIndex (m : Machine) (r : Register) : Machine :=
  match m.value? r with
  | some b => { m with index := UInt16.ofNat (m.index.toNat + b.toNat) }
  | none => { m with index := 0 }

/-- The index moves behind a block of registers up to `x` where the dialect says so. -/
def moveIndex (m : Machine) (x : α) : Machine :=
  if m.dialect.blocksMoveIndex then
    { m with
      index := Scalar.toWord16 (Scalar.ofNat m.index.toNat + x + Scalar.ofNat 1) }
  else m

/-- Draws a sprite at the position that two registers hold. -/
def drawSprite (m : Machine) (x y : Register) (sprite : List UInt8) : Machine :=
  let (display, collided) := match m.value? x, m.value? y with
    | some a, some b => m.display.draw (a.toNat : Int) (b.toNat : Int) sprite
    | _, _ => m.display.miss sprite
  { m with display }.setFlag collided

/-- What an instruction that cannot fail does to everything but the program counter. `roll` is a
random byte. -/
def effect (m : Machine) (roll : UInt8) : Instruction α → Machine
  | .clear => { m with display := m.display.clear }
  | .setByte x nn => m.assign (.of x) (Scalar.toByte nn)
  | .addByte x nn =>
    m.assign (.of x) (Scalar.toByte (Scalar.ofNat (m.read (.of x)).toNat + nn))
  | .arith op x y => m.arith op (.of x) (.of y)
  | .setIndex nnn => { m with index := Scalar.toWord16 nnn }
  | .random x nn => m.assign (.of x) (roll &&& Scalar.toByte nn)
  | .readDelay x => m.assign (.of x) m.timers.delay
  | .waitKey x => { m with keypad := m.keypad.clearLatch, run := .awaitingKey (.of x) }
  | .setDelay x => { m with timers := { m.timers with delay := m.read (.of x) } }
  | .setSound x => { m with timers := { m.timers with sound := m.read (.of x) } }
  | .addIndex x => m.addToIndex (.of x)
  | .pointGlyph x => { m with index := UInt16.ofNat (Font.address (m.read (.of x)).toNat) }
  | _ => m

/-- Writes bytes one after the other, each with its own check. A fault leaves those before it
written. -/
def writeBytes (m : Machine) (address : Nat) : List UInt8 → Option Fault × Machine
  | [] => (none, m)
  | b :: bs =>
    match m.memory.writeByte address b with
    | .ok memory => { m with memory }.writeBytes (address + 1) bs
    | .error f => (some f, m)

/-- Reads bytes into the registers from `x` on, each with its own check. A fault leaves those before
it read. -/
def readRegisters (m : Machine) (address x : Nat) : Nat → Option Fault × Machine
  | 0 => (none, m)
  | n + 1 =>
    match m.memory.readByte address with
    | .ok b => (m.setReg x b).readRegisters (address + 1) (x + 1) n
    | .error f => (some f, m)

/-- Goes on where nothing went wrong. -/
def goOn (o : Option Fault × Machine) (next : Machine → Option Fault × Machine) :
    Option Fault × Machine :=
  match o with
  | (none, m) => next m
  | (some f, m) => (some f, m)

/-- Goes on behind a check of `length` bytes from the index on. -/
def checked (m : Machine) (length : α) (access : Access)
    (next : Machine → Option Fault × Machine) : Option Fault × Machine :=
  match Memory.checkSpan (Scalar.ofNat m.index.toNat) length access with
  | .ok () => next m
  | .error f => (some f, m)

/-- What an instruction does to everything but the program counter, in the order of its accesses. A
fault leaves what was done before it. -/
def perform (m : Machine) (roll : UInt8) : Instruction α → Option Fault × Machine
  | .ret =>
    match m.stack.pop? with
    | .ok (_, stack) => (none, { m with stack })
    | .error f => (some f, m)
  | .machineCall nnn =>
    (some (.unsupportedInstruction (Scalar.toFloat nnn) (Float.ofNat m.pc.toNat)), m)
  | .call _ =>
    match m.stack.push? (UInt16.ofNat m.returnAddress) with
    | .ok stack => (none, { m with stack })
    | .error f => (some f, m)
  | .draw x y n =>
    match m.memory.readBytes m.index.toNat (Scalar.count n) with
    | .ok bytes => (none, m.drawSprite (.of x) (.of y) (bytes.take (Scalar.toInt n).toNat))
    | .error f => (some f, m)
  | .skipIfKey x => (m.keyFault? (.of x), m)
  | .skipUnlessKey x => (m.keyFault? (.of x), m)
  | .storeDecimal x =>
    m.checked (Scalar.ofNat 3 : α) .write fun m =>
      m.writeBytes m.index.toNat (decimalDigits (m.read (.of x)))
  | .store x =>
    m.checked (x + Scalar.ofNat 1) .write fun m =>
      goOn (m.writeBytes m.index.toNat (m.firstRegisters (Scalar.countUpTo x)))
        fun m => (none, m.moveIndex x)
  | .load x =>
    m.checked (x + Scalar.ofNat 1) .read fun m =>
      goOn (m.readRegisters m.index.toNat 0 (Scalar.countUpTo x))
        fun m => (none, m.moveIndex x)
  | i => (none, m.effect roll i)

/-- One instruction. The program goes on at an address that is known before. -/
def carryOut (m : Machine) (roll : UInt8) (i : Instruction α) : Option Fault × Machine :=
  let pc := Scalar.toWord16 (m.nextAddress i)
  goOn (m.perform roll i) fun m => (none, { m with pc })

/-- Applies one instruction. The random source is asked once by an instruction that needs a random
byte, and otherwise not at all. -/
def execute (m : Machine) (s : Source) (i : Instruction α) : Outcome :=
  match rowsFailure? i with
  | some f => ⟨some f, m, s⟩
  | none =>
    match i with
    | .random .. =>
      match s.next with
      | (.ok x, s) => .of (m.carryOut (Source.toByte x) i) s
      | (.error failure, s) => ⟨some failure, m, s⟩
    | _ => .of (m.carryOut 0 i) s

end Operands

/-- No word encodes a count of rows that is out of reach. -/
theorem rowsFailure?_eq_none {i : Instruction Nat} (h : i.InRange) : rowsFailure? i = none := by
  cases i <;> simp_all [rowsFailure?, Instruction.InRange, Failure.lengthLimit]
  omega

/-- A word without meaning, handed in from outside, only moves the program on. -/
def skipUnknown (m : Machine) : Machine :=
  { m with pc := UInt16.ofNat (m.skipTo false) }

end Machine

end Chip8
