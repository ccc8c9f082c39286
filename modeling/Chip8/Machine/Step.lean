import Chip8.Instruction.Encoding
import Chip8.Machine.Execute

/-! Fetch, decode, execute. -/

namespace Chip8.Machine

/-- A look at the keypad while a key is awaited: the lowest latched key goes into the register, and
the program goes on. -/
def pollKey (m : Machine) (register : Register) : Machine :=
  match m.keypad.takeLatched with
  | (some k, keypad) =>
    { m.assign register (UInt8.ofNat k.val) with
      keypad, pc := UInt16.ofNat (m.skipTo false), run := .running }
  | (none, _) => m

def halt (m : Machine) (f : Fault) : Machine :=
  { m with run := .halted f }

/-- What a completed instruction leaves is counted, and a fault halts the machine. -/
def settle (o : Outcome) : Outcome :=
  match o.failure? with
  | none => { o with machine := { o.machine with cycles := o.machine.cycles + 1 } }
  | some (.fault f) => { o with machine := o.machine.halt f }
  | some _ => o

/-- Executes the word at the program counter. -/
def fetchAndExecute (m : Machine) (s : Source) : Outcome :=
  match m.memory.readWord (m.pc.toNat : Int) with
  | .error f => settle ⟨some (.fault f), m, s⟩
  | .ok word =>
    let m := { m with lastPc := m.pc, lastOpcode := word }
    match Instruction.ofWord? word.toNat with
    | none =>
      let f := Fault.invalidOpcode (Float.ofNat word.toNat) (Float.ofNat m.pc.toNat)
      settle ⟨some (.fault f), m, s⟩
    | some i => settle (m.execute s i)

/-- One step. A halted machine refuses, and one that awaits a key only looks at the keypad. -/
def step (m : Machine) (s : Source) : Outcome :=
  match m.run with
  | .halted f => ⟨some (.fault (.halted f)), m, s⟩
  | .awaitingKey register => ⟨none, m.pollKey register, s⟩
  | .running => m.fetchAndExecute s

end Chip8.Machine
