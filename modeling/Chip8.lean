import Chip8.Main
import Chip8.Proofs.Pacer.Calls
import Chip8.Proofs.Pacer.Run
import Chip8.Proofs.Pacer.Timers
import Chip8.Proofs.Pacer.Tone
import Chip8.Proofs.Pacer.Reports
import Chip8.Proofs.Machine.Accesses
import Chip8.Proofs.Machine.Execute
import Chip8.Proofs.Machine.Atomicity
import Chip8.Proofs.Display.Marks
import Chip8.Proofs.Instruction.Table
import Chip8.Proofs.Machine.Step
import Chip8.Proofs.Machine.Faults
import Chip8.Proofs.Keypad.Latch
import Chip8.Proofs.Machine.KeyWait
import Chip8.Proofs.Machine.Sequence
import Chip8.Proofs.Runner.Frames
import Chip8.Proofs.Runner.Screen
import Chip8.Proofs.Machine.Subroutine
import Chip8.Proofs.Runner.Operations
import Chip8.Proofs.Machine.Bounds
import Chip8.Proofs.Runner.Deeds
import Chip8.Proofs.Runner.Reach
import Chip8.Proofs.Runner.PowerOn
import Chip8.Proofs.Runner.Halts
import Chip8.Proofs.Pacer.Frames
import Chip8.Proofs.Pacer.Pacing
import Chip8.Proofs.Pacer.Delays
import Chip8.Proofs.Machine.Program
import Chip8.Proofs.Runner.Interference
import Chip8.Proofs.Pacer.Alternation
import Chip8.Proofs.Machine.Glyphs
import Chip8.Proofs.Runner.Handling
import Chip8.Proofs.Runner.Standstill
import Chip8.Proofs.Machine.Index
import Chip8.Proofs.Text.Digits
import Chip8.Proofs.Instruction.Tokens
import Chip8.Proofs.Disassembly.Assembly
import Chip8.Proofs.Machine.Dialects
import Chip8.Proofs.Disassembly.Lines
import Chip8.Proofs.Machine.Footprint
import Chip8.Proofs.Runner.Tracing
import Chip8.Proofs.Runner.Keys
import Chip8.Proofs.Pacer.Work
import Chip8.Proofs.Command.KeyTimers
import Chip8.Proofs.Command.Ticking
import Chip8.Proofs.Command.KeyHolding
import Chip8.Proofs.Display.Drawing
import Chip8.Proofs.Display.Torus
import Chip8.Proofs.Machine.Registers
import Chip8.Proofs.Machine.Flags
import Chip8.Proofs.Machine.Blocks
import Chip8.Proofs.Machine.Effects
import Chip8.Proofs.Machine.Sprites
import Chip8.Proofs.Runner.Changes
import Chip8.Proofs.Hash.Changes
import Chip8.Proofs.Number.Double
import Chip8.Proofs.Number.Amount
import Chip8.Proofs.Number.Whole
import Chip8.Proofs.Number.Floor
import Chip8.Proofs.Tone.Continuity
import Chip8.Proofs.Runner.Countdown
import Chip8.Proofs.Tone.Levels
import Chip8.Proofs.Tone.Wav
import Chip8.Proofs.Runner.Progress
import Chip8.Proofs.Runner.TraceLines
import Chip8.Proofs.Number.Rounding
import Chip8.Proofs.Number.Narrowing
import Chip8.Proofs.Tone.Phases
import Chip8.Proofs.Picture.Rendering
import Chip8.Proofs.Runner.Modes
import Chip8.Proofs.Command.Soundtrack
import Chip8.Proofs.Command.Recording
import Chip8.Proofs.Number.Numeral
import Chip8.Proofs.Settings.Readings
import Chip8.Proofs.Settings.Overlay
import Chip8.Proofs.Arguments.Grammar
import Chip8.Proofs.Pacer.Endings
import Chip8.Proofs.Command.Endings
import Chip8.Proofs.Keypad.Calls
import Chip8.Proofs.Number.Sums
import Chip8.Proofs.Machine.Spans
import Chip8.Proofs.Command.Screen
