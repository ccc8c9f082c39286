import Chip8.Command.Report
import Chip8.Keyboard
import Chip8.Timeline

/-! The command that plays an image in a terminal. -/

namespace Chip8.Command

def playerUsage : String :=
  "Usage: npm run play -- path/to/game.ch8 [--ipf=10] [--shiftVy=1] [--loadStoreInc=1] [--logicVf=1]"

/-- What the player asks of the terminal's input. -/
inductive Terminal where
  | raw (on : Bool)
  | pause
  deriving DecidableEq, Repr

/-- What reaches a player. -/
inductive Input where
  | advance (ms : Float)
  | typed (text : String)

/-- What is written to the terminal, one piece at a time. -/
inductive Writing where
  | greeting (c : Cartridge) (budget : Nat)
  | screen (title : String) (frame : Frame)
  | bell
  | lineEnd
  | showCursor

namespace Writing

def hideCursorText : String := "\x1b[?25l"

def showCursorText : String := "\x1b[?25h"

/-- The screen of a frame and the line below it. -/
def screenText (title : String) (f : Frame) : String :=
  "\x1b[H" ++ "\n".intercalate f.picture.halfBlocks ++ "\n" ++ title ++ "  frame "
    ++ toString f.number ++ (if f.awaitingKey then "  [waiting for key]" else "") ++ "\x1b[K\n"

def text : Writing → String
  | greeting c budget =>
    "\x1b[2J" ++ hideCursorText ++ "[run] " ++ c.name ++ " " ++ toString c.image.size
      ++ " bytes at " ++ toString budget ++ " ipf\n"
  | screen title f => screenText title f
  | bell => "\x07"
  | lineEnd => "\n"
  | showCursor => showCursorText

end Writing

/-- A key counts as held until its timer runs, since a terminal tells of presses only. -/
structure Release where
  key : Key
  alarm : Alarm Float

/-- A player. Its own timers share the clock and the numbers of the loop's timers. `releases` holds
those that are pending, and `timers` the number of the timer that each key waits for. -/
structure Player where
  timeline : Timeline Float
  releases : List Release
  timers : Vector (Option Nat) 16
  holdMs : Float
  title : String
  tty : Bool
  shown : Bool
  out : Array Writing
  err : String
  terminal : List Terminal
  exit? : Option Nat

namespace Player

/-- How long a key is held by default. -/
def standardHoldMs : Float := 150

def pacer (p : Player) : Pacer Float :=
  p.timeline.pacer

def withPacer (p : Player) (pacer : Pacer Float) : Player :=
  { p with timeline := { p.timeline with pacer } }

def mapMachine (p : Player) (f : Machine → Machine) : Player :=
  let runner := p.pacer.runner
  p.withPacer { p.pacer with runner := { runner with machine := f runner.machine } }

def write (p : Player) (w : Writing) : Player :=
  { p with out := p.out.push w }

def warn (p : Player) (line : String) : Player :=
  { p with err := p.err ++ line ++ "\n" }

/-- Draws a frame, unless the screen is as it was. -/
def showFrame (p : Player) (f : Frame) : Player :=
  if f.displayChanged || !p.shown then { p with shown := true }.write (.screen p.title f) else p

/-- Cancels a timer of a key, if there is one. -/
def cancel (releases : List Release) (id? : Option Nat) : List Release :=
  match id? with
  | some id => releases.filter (·.alarm.id != id)
  | none => releases

/-- Gives the terminal back and ends the program. -/
def shutdown (p : Player) (code : Nat) : Player :=
  let (_, timeline) := p.timeline.stop
  let releases := p.timers.toList.foldl cancel p.releases
  let terminal := p.terminal ++ (if p.tty then [.raw false] else []) ++ [.pause]
  { p with timeline, releases, terminal, exit? := some code }.write .showCursor

def haltText (error : Failure) (frame? : Option Frame) : String :=
  "[run] halted" ++ (match frame? with
    | some f => " at frame " ++ toString f.number
    | none => "") ++ ": " ++ error.describe

/-- What the terminal shows of an event of the loop. Nothing is shown once the player has ended. -/
def handle (p : Player) (e : Event) : Player :=
  if p.exit?.isSome then p
  else match e with
    | .present f => p.showFrame f
    | .tone on => if on then p.write .bell else p
    | .fault error frame? _ => ((p.write .lineEnd).warn (haltText error frame?)).shutdown 1

/-- Passes on what the loop has told since the last time. -/
def drain (p : Player) : Player :=
  let (events, pacer) := p.pacer.takeEvents
  let (trace, runner) := pacer.runner.takeTrace
  let p := p.withPacer { pacer with runner }
  events.foldl handle (trace.foldl warn p)

/-- A timer of the loop or of a key. -/
inductive Due where
  | frame (alarm : Alarm Float)
  | release (r : Release)

def Due.alarm : Due → Alarm Float
  | .frame a => a
  | .release r => r.alarm

/-- All timers that are set. -/
def due (p : Player) : List Due :=
  p.pacer.pending.map .frame ++ p.releases.map .release

/-- Lets go of a key, which waits for no timer then. -/
def release (p : Player) (r : Release) : Player :=
  let clock := if p.timeline.clock ≤ r.alarm.due then r.alarm.due else p.timeline.clock
  let releases := cancel p.releases (some r.alarm.id)
  let timers := p.timers.set r.key none
  { p with releases, timers, timeline := { p.timeline with clock } }.mapMachine fun m =>
    { m with keypad := m.keypad.set r.key false }

/-- Runs a timer. -/
def runDue (p : Player) : Due → Player
  | .frame a =>
    let (_, timeline) := p.timeline.run a
    { p with timeline }.drain
  | .release r => p.release r

/-- Runs the timers that are due at `target`, until the player ends. -/
def runTimers (target : Float) : Nat → Player → Player
  | 0, p => p
  | fuel + 1, p =>
    if p.exit?.isSome then p
    else match Alarm.earliest? Due.alarm target p.due with
      | none => p
      | some d => runTimers target fuel (p.runDue d)

def advance (p : Player) (ms : Float) : Player :=
  let target := p.timeline.clock + ms
  let p := runTimers target Timeline.limit p
  { p with timeline := { p.timeline with clock := target } }

/-- Holds a key down from now on, and lets it go after a while without a repeat. The timer that the
key waited for is cancelled. -/
def pressKey (p : Player) (k : Key) : Player :=
  let id := p.pacer.nextId
  let alarm : Alarm Float := ⟨id, p.timeline.clock + p.holdMs⟩
  let releases := cancel p.releases p.timers[k] ++ [⟨k, alarm⟩]
  let timers := p.timers.set k (some id)
  let p := { p with releases, timers }.withPacer { p.pacer with nextId := id + 1 }
  p.mapMachine fun m => { m with keypad := m.keypad.set k true }

def isQuit (c : Char) : Bool :=
  c == '\x03' || c == '\x1b'

/-- The key of the pad that a typed character stands for. -/
def keyOf? (c : Char) : Option Key :=
  match Keyboard.keyFor (String.singleton c) with
  | some k => if h : k < 16 then some ⟨k, h⟩ else none
  | none => none

/-- A typed character: the end of the program, a key of the pad, or nothing. -/
def typeChar (p : Player) (c : Char) : Player :=
  if isQuit c then p.shutdown 0
  else match keyOf? c with
    | some k => p.pressKey k
    | none => p

/-- Typed characters, up to one that ends the program. -/
def type (p : Player) : List Char → Player
  | [] => p
  | c :: cs => if p.exit?.isSome then p else (p.typeChar c).type cs

def step (p : Player) (input : Input) : Player :=
  if p.exit?.isSome then p
  else match input with
    | .advance ms => p.advance ms
    | .typed text => p.type text.toList

/-- What was said since the last look. -/
def takeOutput (p : Player) : (String × String) × Player :=
  let out := p.out.foldl (fun text w => text ++ w.text) ""
  ((out, p.err), { p with out := #[], err := "" })

/-- A player that has said one thing and ended before it began. -/
def refused (runner : Runner) (line : String) (code : Nat) : Player where
  timeline := .make (.make runner ⟨none, none, fun _ => .silent⟩ 0 0)
  releases := []
  timers := Vector.replicate 16 none
  holdMs := 0
  title := ""
  tty := false
  shown := false
  out := #[]
  err := line ++ "\n"
  terminal := []
  exit? := some code

/-- The runner of a player that has no image. -/
def idleRunner (source : Source) : Runner :=
  .make (.powerOn .standard none) source none .record 0 false

/-- Takes the terminal over and starts the loop. -/
def start (q : Request) (source : Source) (tty : Bool) : Player :=
  match q.imagePath? with
  | none => refused (idleRunner source) playerUsage 2
  | some path =>
    let settings := q.settings
    match q.loadCartridge path with
    | .error failure =>
      refused (idleRunner source) ("[run] Unhandled error: " ++ failure.describe) 1
    | .ok c =>
      let runner := Runner.make (.powerOn settings.dialect (some c)) source
        (some settings.budget) settings.mode (if q.debug then settings.traceEvery else 0) true
      let adapters : Adapters Float :=
        ⟨some fun _ => .silent, some fun _ => .silent, fun _ => .silent⟩
      let pacer := Pacer.make runner adapters Pacer.frameMs Pacer.standardCatchUp
      { timeline := (Timeline.make pacer).start
        releases := []
        timers := Vector.replicate 16 none
        holdMs := Number.ofArgument (q.args.flag "holdMs") standardHoldMs 16 2000
        title := c.name ++ " (fnv=" ++ c.checksum ++ ")"
        tty
        shown := false
        out := #[.greeting c settings.budget]
        err := ""
        terminal := if tty then [.raw true] else []
        exit? := none }

end Player

end Chip8.Command
