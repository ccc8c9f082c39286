import Chip8.Budget
import Chip8.Dialect
import Chip8.Number.Literal

/-! Settings from environment variables and from flags laid over them. -/

namespace Chip8

/-- What happens when the machine faults inside a frame. -/
inductive FaultMode where
  | raise
  | record
  deriving DecidableEq, Repr

/-- `traceEvery` is the number of instructions from one trace line to the next, zero for none. -/
structure Settings where
  budget : Nat
  dialect : Dialect
  mode : FaultMode
  traceEvery : Nat
  deriving DecidableEq, Repr

namespace Settings

def standard : Settings where
  budget := Budget.standard
  dialect := .standard
  mode := .record
  traceEvery := 0

/-- A switch by one of six words; any other text leaves the fallback. -/
def switch (raw : Option String) (fallback : Bool) : Bool :=
  match raw with
  | none => fallback
  | some s =>
    let word := Text.keyword s
    if word = "1" ∨ word = "true" ∨ word = "on" then true
    else if word = "0" ∨ word = "false" ∨ word = "off" then false
    else fallback

/-- The integer part of a number; a blank text or one that is no finite number leaves the
fallback. -/
def integer (raw : Option String) (fallback : Int) : Int :=
  match raw with
  | none => fallback
  | some s =>
    if Text.isAllBlank s then fallback else (Number.trunc? (Number.ofText s)).getD fallback

/-- The mode that a word names. -/
def mode? (word : String) : Option FaultMode :=
  if word = "throw" then some .raise
  else if word = "record" then some .record
  else none

/-- Environment variables and flags, as a list or as a look-up. -/
abbrev Lookup := String → Option String

/-- Settings by environment variables. The error mode may be written in any case and with blanks
around it. -/
def ofEnvironment (env : Lookup) : Settings where
  budget := Budget.clamp (integer (env "CHIP8_IPF") Budget.standard)
  dialect := {
    blocksMoveIndex :=
      switch (env "CHIP8_QUIRK_LOAD_STORE_INC") Dialect.standard.blocksMoveIndex
    shiftsSecond := switch (env "CHIP8_QUIRK_SHIFT_VY") Dialect.standard.shiftsSecond
    logicClearsFlag := switch (env "CHIP8_QUIRK_LOGIC_VF") Dialect.standard.logicClearsFlag }
  mode := (mode? (Text.keyword ((env "CHIP8_ON_CPU_ERROR").getD ""))).getD standard.mode
  traceEvery := (integer (env "CHIP8_TRACE") 0).toNat

/-- Lays flags over settings. The error mode has to be written exactly. -/
def overlay (base : Settings) (flags : Lookup) : Settings where
  budget := match flags "ipf" with
    | some s => Budget.clamp (integer (some s) base.budget)
    | none => base.budget
  dialect := {
    blocksMoveIndex := switch (flags "loadStoreInc") base.dialect.blocksMoveIndex
    shiftsSecond := switch (flags "shiftVy") base.dialect.shiftsSecond
    logicClearsFlag := switch (flags "logicVf") base.dialect.logicClearsFlag }
  mode := ((flags "onCpuError").bind mode?).getD base.mode
  traceEvery := match flags "trace" with
    | some s => (integer (some s) base.traceEvery).toNat
    | none => base.traceEvery

end Settings

end Chip8
