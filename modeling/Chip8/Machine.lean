import Chip8.Cartridge
import Chip8.Dialect
import Chip8.Display
import Chip8.Keypad
import Chip8.Register
import Chip8.Stack
import Chip8.Timers

/-! The complete state of the machine. -/

namespace Chip8

/-- What the processor is doing. -/
inductive RunState where
  | running
  | awaitingKey (register : Register)
  | halted (fault : Fault)
  deriving DecidableEq

/-- `cycles` counts the instructions that were completed; `lastPc` and `lastOpcode` tell what was
fetched last. -/
structure Machine where
  memory : Memory
  registers : Vector UInt8 16
  index : UInt16
  pc : UInt16
  stack : Stack
  display : Display
  timers : Timers
  keypad : Keypad
  run : RunState
  cycles : Nat
  lastPc : UInt16
  lastOpcode : UInt16
  dialect : Dialect
  cartridge : Option Cartridge

namespace Machine

/-- The machine after power-on, with the image of its cartridge in memory. -/
def powerOn (dialect : Dialect) (cartridge : Option Cartridge) : Machine where
  memory := match cartridge with
    | some c => Memory.initial.withProgram c.image
    | none => Memory.initial
  registers := Vector.replicate 16 0
  index := 0
  pc := UInt16.ofNat Memory.programStart
  stack := .empty
  display := .initial
  timers := .initial
  keypad := .initial
  run := .running
  cycles := 0
  lastPc := 0
  lastOpcode := 0
  dialect
  cartridge

/-- Resets the processor: its registers and its stack, what it is doing, and what it has counted
and noted. -/
def resetProcessor (m : Machine) : Machine :=
  { m with
    registers := Vector.replicate 16 0
    index := 0
    pc := UInt16.ofNat Memory.programStart
    stack := .empty
    run := .running
    cycles := 0
    lastPc := 0
    lastOpcode := 0 }

/-- Copies the image of the cartridge, if there is one, into memory. -/
def copyImage (m : Machine) : Machine :=
  { m with
    memory := match m.cartridge with
      | some c => m.memory.withProgram c.image
      | none => m.memory }

/-- Resets one part after the other, and copies the image again. Clearing the screen marks it, so
the mark is taken at once. -/
def reset (m : Machine) : Machine :=
  { m with
    memory := m.memory.reset
    display := m.display.clear.takeDirty.2
    timers := m.timers.reset
    keypad := m.keypad.releaseAll }.resetProcessor.copyImage

def insert (m : Machine) (c : Cartridge) : Machine :=
  { m with cartridge := some c }.reset

/-- Puts in an image without a name. -/
def loadImage (m : Machine) (image : Array UInt8) : Except Fault Machine := do
  return m.insert (← Cartridge.make image Cartridge.defaultName)

/-- A new machine that a cartridge is put into. -/
def ofCartridge (dialect : Dialect) (c : Cartridge) : Machine :=
  (powerOn dialect none).insert c

/-- A machine that starts with an image. -/
def ofImage (dialect : Dialect) (image : Array UInt8) : Except Fault Machine := do
  return ofCartridge dialect (← Cartridge.make image Cartridge.defaultName)

/-- A reset forgets everything but the dialect and the cartridge. -/
theorem reset_eq_powerOn (m : Machine) : m.reset = powerOn m.dialect m.cartridge := by
  have hdisplay : m.display.clear.takeDirty.2 = Display.initial := rfl
  simp only [reset, resetProcessor, copyImage, powerOn, Memory.reset_eq_initial, hdisplay,
    Timers.reset, Keypad.releaseAll]

theorem insert_eq_powerOn (m : Machine) (c : Cartridge) :
    m.insert c = powerOn m.dialect (some c) :=
  reset_eq_powerOn _

/-- A register; a number past the last one reads as zero. -/
def reg (m : Machine) (x : Nat) : UInt8 :=
  m.registers[x]?.getD 0

def setReg (m : Machine) (x : Nat) (b : UInt8) : Machine :=
  { m with registers := m.registers.setIfInBounds x b }

theorem reg_setReg (m : Machine) (x : Nat) (b : UInt8) (y : Nat) :
    (m.setReg x b).reg y = if x = y ∧ y < 16 then b else m.reg y := by
  by_cases h : y < 16
  · by_cases e : x = y <;> simp [reg, setReg, h, e]
  · simp [reg, h]

theorem reg_setReg_self (m : Machine) {x : Nat} (h : x < 16) (b : UInt8) :
    (m.setReg x b).reg x = b := by
  rw [reg_setReg, if_pos ⟨rfl, h⟩]

theorem reg_setReg_of_ne (m : Machine) {x y : Nat} (h : x ≠ y) (b : UInt8) :
    (m.setReg x b).reg y = m.reg y := by
  rw [reg_setReg, if_neg fun hxy => h hxy.1]

/-- What a register holds; nothing if it is not there. -/
def value? (m : Machine) : Register → Option UInt8
  | .known i => some (m.reg i)
  | .stray _ => none

/-- What a register holds; one that is not there reads as zero. -/
def read (m : Machine) (r : Register) : UInt8 :=
  (m.value? r).getD 0

theorem value?_of_lt (m : Machine) {x : Nat} (h : x < 16) : m.value? (.of x) = some (m.reg x) := by
  rw [Register.of_nat h]
  rfl

theorem read_of_lt (m : Machine) {x : Nat} (h : x < 16) : m.read (.of x) = m.reg x := by
  rw [Register.of_nat h]
  rfl

/-- Puts a byte into a register; one that is not there keeps nothing. -/
def assign (m : Machine) (r : Register) (b : UInt8) : Machine :=
  match r with
  | .known i => m.setReg i b
  | .stray _ => m

theorem read_assign_known (m : Machine) (i j : Fin 16) (b : UInt8) :
    (m.assign (.known i) b).read (.known j) = if i = j then b else m.read (.known j) := by
  simp [assign, read, value?, reg_setReg, Fin.ext_iff]

def setFlag (m : Machine) (on : Bool) : Machine :=
  m.assign .flag (if on then 1 else 0)

def isAwaitingKey (m : Machine) : Bool :=
  match m.run with
  | .awaitingKey _ => true
  | _ => false

def isHalted (m : Machine) : Bool :=
  match m.run with
  | .halted _ => true
  | _ => false

def tick (m : Machine) : Machine :=
  { m with timers := m.timers.tick }

def setKey (m : Machine) (key : Float) (down : Bool) : Except Fault Machine := do
  return { m with keypad := ← m.keypad.setKey key down }

end Machine

end Chip8
