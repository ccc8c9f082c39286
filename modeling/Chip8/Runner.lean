import Chip8.Budget
import Chip8.Disassembly
import Chip8.Machine.Step
import Chip8.Settings

/-! Frames: some steps of the machine, then one tick of its timers. -/

namespace Chip8

/-- What a frame left to be shown. `executed` counts its completed instructions. -/
structure Frame where
  number : Nat
  executed : Nat
  pixels : Vector Bool 2048
  displayChanged : Bool
  soundActive : Bool
  awaitingKey : Bool
  fault? : Option Fault

def Frame.picture (f : Frame) : Picture :=
  { Display.initial with pixels := f.pixels : Display }.picture

/-- A machine that is run frame by frame. A budget of none is what came from a number that is no
number. Trace lines are collected in `trace` if there is a place for them. -/
structure Runner where
  machine : Machine
  source : Source
  budget : Option Nat
  mode : FaultMode
  traceEvery : Int
  tracing : Bool
  lastFault? : Option Fault
  frames : Nat
  trace : Array String

namespace Runner

/-- The signed 32-bit interval that a number of instructions stands for; only a positive one
counts. -/
def interval (n : Int) : Int :=
  (Int32.ofInt (max 0 n)).toInt

def make (machine : Machine) (source : Source) (budget : Option Nat) (mode : FaultMode)
    (traceEvery : Int) (tracing : Bool) : Runner where
  machine
  source
  budget
  mode
  traceEvery := interval traceEvery
  tracing
  lastFault? := none
  frames := 0
  trace := #[]

/-- The last instruction and the registers that it left. -/
def traceLine (m : Machine) : String :=
  let registers := m.registers.toList.map fun b => Text.hex b.toNat 2
  "[TRACE] " ++ Text.hex m.lastPc.toNat 3 ++ " " ++ Text.hex m.lastOpcode.toNat 4 ++ " "
    ++ Text.padRight 16 (Disassembly.wordText m.lastOpcode.toNat)
    ++ " I=" ++ Text.hex m.index.toNat 3 ++ " SP=" ++ toString m.stack.depth
    ++ " V=" ++ " ".intercalate registers

/-- Whether a line is due after the latest instruction. -/
def traceDue (r : Runner) : Bool :=
  r.tracing && 0 < r.traceEvery && (r.machine.cycles : Int) % r.traceEvery == 0

def traced (r : Runner) : Runner :=
  if r.traceDue then { r with trace := r.trace.push (traceLine r.machine) } else r

/-- Takes at most so many steps: up to a fault, or until the machine awaits a key. The answer is
the failure that ends the whole frame, if there is one. A recorded fault only ends its steps. -/
def steps : Nat → Runner → Option Failure × Runner
  | 0, r => (none, r)
  | n + 1, r =>
    let before := r.machine.cycles
    let o := r.machine.step r.source
    let r := { r with machine := o.machine, source := o.source }
    match o.failure? with
    | some (.fault f) =>
      let r := { r with lastFault? := some f }
      match r.mode with
      | .raise => (some (.fault f), r)
      | .record => (none, r)
    | some failure => (some failure, r)
    | none =>
      let r := if r.machine.cycles = before then r else r.traced
      if r.machine.isAwaitingKey then (none, r) else steps n r

/-- The steps of a frame. A halted machine takes none, and its fault stays on record; otherwise
the record of an earlier fault is cleared, since the machine was reset. -/
def work (r : Runner) : Option Failure × Runner :=
  if r.machine.isHalted then (none, r)
  else steps (r.budget.getD 0) { r with lastFault? := none }

/-- The end of a frame: a tick of the timers, and a look at the screen. -/
def close (r : Runner) (executed : Nat) : Frame × Runner :=
  let m := r.machine.tick
  let (changed, display) := m.display.takeDirty
  let r := { r with machine := { m with display }, frames := r.frames + 1 }
  (⟨r.frames, executed, display.pixels, changed, m.timers.soundActive, m.isAwaitingKey,
    r.lastFault?⟩, r)

/-- One frame. Timers run on while a key is awaited and after a halt. -/
def frame (r : Runner) : Except Failure Frame × Runner :=
  let before := r.machine.cycles
  match r.work with
  | (some failure, r) => (.error failure, r)
  | (none, r) =>
    let (f, r) := r.close (r.machine.cycles - before)
    (.ok f, r)

/-- Frames up to a number of them, or up to one with a fault. The answer is the last one. -/
def runFrames : Nat → Option Frame → Runner → Except Failure (Option Frame) × Runner
  | 0, last, r => (.ok last, r)
  | n + 1, _, r =>
    match r.frame with
    | (.error failure, r) => (.error failure, r)
    | (.ok f, r) => if f.fault?.isSome then (.ok (some f), r) else runFrames n (some f) r

/-- The trace lines since the last look. -/
def takeTrace (r : Runner) : List String × Runner :=
  (r.trace.toList, { r with trace := #[] })

end Runner

end Chip8
