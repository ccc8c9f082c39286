import Chip8.Runner

/-! Frames in real time: a loop on timers that hands frames to a screen and a tone to a speaker. -/

namespace Chip8

/-- A timer that was set and has not run. Numbers grow with age. -/
structure Alarm (τ : Type) where
  id : Nat
  due : τ

/-- What the outside is told, in order. -/
inductive Event where
  | present (frame : Frame)
  | tone (on : Bool)
  | fault (error : Failure) (frame? : Option Frame) (running : Bool)

inductive Command where
  | start
  | stop
  deriving DecidableEq, Repr

/-- A reading of both clocks: the one that timers run on, and the one that tells the time. -/
structure Moment (τ : Type) where
  clock : τ
  now : τ

/-- A call back into the loop. A guarded call does not pass a failure on. The clocks may have gone
on since the adapter was called. -/
structure Call (τ : Type) where
  command : Command
  guarded : Bool
  later? : Option (Moment τ) := none

/-- What an adapter does when it is called: calls back into the loop, and then perhaps a
failure. -/
structure Reaction (τ : Type) where
  calls : List (Call τ)
  failure? : Option Failure

def Reaction.silent {τ : Type} : Reaction τ where
  calls := []
  failure? := none

/-- The outside of the loop, with a reaction for every call by its number. A screen or a speaker
may be missing. -/
structure Adapters (τ : Type) where
  present? : Option (Nat → Reaction τ)
  tone? : Option (Nat → Reaction τ)
  onFault : Nat → Reaction τ

/-- The loop. `timer?` is the timer that it will cancel when it stops, and `pending` holds all
timers that it has set. -/
structure Pacer (τ : Type) where
  runner : Runner
  adapters : Adapters τ
  frameTime : τ
  catchUp : Nat
  running : Bool
  timer? : Option Nat
  nextAt : τ
  toneOn : Bool
  latest? : Option Frame
  fault? : Option Failure
  pending : List (Alarm τ)
  nextId : Nat
  presents : Nat
  tones : Nat
  faults : Nat
  events : Array Event

namespace Pacer

/-- Sixty frames in a second, in milliseconds. -/
def frameMs : Float := 1000 / 60

/-- How many frames may run back to back after a stall, from any number. -/
def catchUpOf (x : Float) : Nat :=
  Number.naturalsBelow (Number.greatest 1 x)

def standardCatchUp : Nat := 4

variable {τ : Type} [Scalar τ]

def make (runner : Runner) (adapters : Adapters τ) (frameTime : τ) (catchUp : Nat) : Pacer τ where
  runner
  adapters
  frameTime
  catchUp
  running := false
  timer? := none
  nextAt := Scalar.ofNat 0
  toneOn := false
  latest? := none
  fault? := none
  pending := []
  nextId := 0
  presents := 0
  tones := 0
  faults := 0
  events := #[]

def record (p : Pacer τ) (e : Event) : Pacer τ :=
  { p with events := p.events.push e }

/-- Sets a timer, at the earliest at once. -/
def arm (p : Pacer τ) (t : Moment τ) (delay : τ) : Pacer τ :=
  let delay := if delay ≤ Scalar.ofNat 0 then Scalar.ofNat 0 else delay
  { p with
    timer? := some p.nextId
    pending := p.pending ++ [⟨p.nextId, t.clock + delay⟩]
    nextId := p.nextId + 1 }

/-- Starts a loop that does not run, with the first frame due at once. -/
def start (p : Pacer τ) (t : Moment τ) : Pacer τ :=
  if p.running then p
  else
    { p with running := true, fault? := none, nextAt := t.now }.arm t (Scalar.ofNat 0)

/-- Stops the loop and cancels its timer, without a word to the speaker. -/
def halt (p : Pacer τ) : Pacer τ :=
  { p with
    running := false
    timer? := none
    pending := match p.timer? with
      | some id => p.pending.filter (·.id != id)
      | none => p.pending }

/-- Calls from an adapter while no tone is on, when stopping has nothing to silence. -/
def performQuiet (t : Moment τ) (calls : List (Call τ)) (p : Pacer τ) : Pacer τ :=
  calls.foldl (fun p c => match c.command with
    | .start => p.start (c.later?.getD t)
    | .stop => p.halt) p

/-- Notes that the tone is on or off, and tells the speaker if there is one. -/
def switch (on : Bool) (p : Pacer τ) : Pacer τ :=
  let told := p.adapters.tone?.isSome
  { p with
    toneOn := on
    tones := if told then p.tones + 1 else p.tones
    events := if told then p.events.push (.tone on) else p.events }

/-- What the speaker does at its latest call. -/
def speakerReaction (p : Pacer τ) : Reaction τ :=
  match p.adapters.tone? with
  | none => .silent
  | some reaction => reaction p.tones

/-- Takes the tone off. The speaker's own calls come when the tone is off already. -/
def silence (t : Moment τ) (p : Pacer τ) : Option Failure × Pacer τ :=
  if p.toneOn then
    let p := p.switch false
    (p.speakerReaction.failure?, p.performQuiet t p.speakerReaction.calls)
  else (none, p)

/-- Stops the loop and takes the tone off. -/
def stop (t : Moment τ) (p : Pacer τ) : Option Failure × Pacer τ :=
  p.halt.silence t

/-- Calls from an adapter, up to the first failure that it does not guard against. -/
def perform (t : Moment τ) : List (Call τ) → Pacer τ → Option Failure × Pacer τ
  | [], p => (none, p)
  | ⟨.start, _, later?⟩ :: calls, p => perform t calls (p.start (later?.getD t))
  | ⟨.stop, guarded, later?⟩ :: calls, p =>
    match p.stop (later?.getD t) with
    | (some failure, p) => if guarded then perform t calls p else (some failure, p)
    | (none, p) => perform t calls p

def react (t : Moment τ) (r : Reaction τ) (p : Pacer τ) : Option Failure × Pacer τ :=
  match p.perform t r.calls with
  | (some failure, p) => (some failure, p)
  | (none, p) => (r.failure?, p)

/-- Puts the tone on. -/
def sound (t : Moment τ) (p : Pacer τ) : Option Failure × Pacer τ :=
  if p.toneOn then (none, p)
  else
    let p := p.switch true
    p.react t p.speakerReaction

/-- The speaker is told of changes only. -/
def setTone (t : Moment τ) (on : Bool) (p : Pacer τ) : Option Failure × Pacer τ :=
  if on then p.sound t else p.silence t

/-- Counts a frame that the screen is handed. -/
def noteFrame (f : Frame) (p : Pacer τ) : Pacer τ :=
  { p with presents := p.presents + 1 }.record (.present f)

def present (t : Moment τ) (f : Frame) (p : Pacer τ) : Option Failure × Pacer τ :=
  match p.adapters.present? with
  | none => (none, p)
  | some reaction =>
    let p := p.noteFrame f
    p.react t (reaction p.presents)

/-- Keeps the error that is about to be reported. -/
def noteFault (error : Failure) (frame? : Option Frame) (p : Pacer τ) : Pacer τ :=
  { p with fault? := some error, faults := p.faults + 1 }.record (.fault error frame? p.running)

/-- Stops the loop and reports why. A failure of the speaker on the way is passed on instead. -/
def fail (t : Moment τ) (error : Failure) (frame? : Option Frame) (p : Pacer τ) :
    Option Failure × Pacer τ :=
  match p.stop t with
  | (some failure, p) => (some failure, p)
  | (none, p) =>
    let p := p.noteFault error frame?
    p.react t (p.adapters.onFault p.faults)

/-- Hands a frame to the screen and the speaker. -/
def deliver (t : Moment τ) (f : Frame) (p : Pacer τ) : Option Failure × Pacer τ :=
  match p.present t f with
  | (some failure, p) => (some failure, p)
  | (none, p) => p.setTone t f.soundActive

/-- How a frame ended: the loop goes on, it does not, or a failure leaves the loop. -/
inductive Verdict where
  | goOn
  | stopped
  | escaped (failure : Failure)

def verdictOf (escaped? : Option Failure) : Verdict :=
  match escaped? with
  | some failure => .escaped failure
  | none => .stopped

/-- Runs one frame and hands it out. The answer is what went wrong with it, if anything did, with
the frame unless there is none. -/
def tryFrame (t : Moment τ) (p : Pacer τ) : Option (Failure × Option Frame) × Pacer τ :=
  match p.runner.frame with
  | (.error failure, runner) => (some (failure.asError, none), { p with runner })
  | (.ok f, runner) =>
    match { p with runner, latest? := some f }.deliver t f with
    | (some failure, p) => (some (failure.asError, some f), p)
    | (none, p) => (f.fault?.map fun fault => (.fault fault, some f), p)

/-- Runs one frame. Whatever goes wrong with it stops the loop. -/
def runFrame (t : Moment τ) (p : Pacer τ) : Verdict × Pacer τ :=
  match p.tryFrame t with
  | (some (error, frame?), p) =>
    let (escaped?, p) := p.fail t error frame?
    (verdictOf escaped?, p)
  | (none, p) => (if p.running then .goOn else .stopped, p)

/-- The next frame is due one frame later than the last one was. -/
def postpone (p : Pacer τ) : Pacer τ :=
  { p with nextAt := p.nextAt + p.frameTime }

/-- Runs the frames that are due, as many as may be caught up. -/
def runDue (t : Moment τ) : Nat → Pacer τ → Verdict × Pacer τ
  | 0, p => (.goOn, p)
  | n + 1, p =>
    if p.nextAt ≤ t.now then
      match p.runFrame t with
      | (.goOn, p) => runDue t n p.postpone
      | (verdict, p) => (verdict, p)
    else (.goOn, p)

/-- Sets the timer for the next frame. A backlog that is left is dropped. -/
def rearm (t : Moment τ) (p : Pacer τ) : Pacer τ :=
  let p := if p.nextAt ≤ t.now then { p with nextAt := t.now + p.frameTime } else p
  p.arm t (p.nextAt - t.now)

/-- A timer that runs is pending no more, and the loop holds no timer while it runs. -/
def take (a : Alarm τ) (p : Pacer τ) : Pacer τ :=
  { p with timer? := none, pending := p.pending.filter (·.id != a.id) }

/-- One of the timers that were set runs. -/
def fire (t : Moment τ) (a : Alarm τ) (p : Pacer τ) : Option Failure × Pacer τ :=
  let p := p.take a
  if p.running then
    match p.runDue t p.catchUp with
    | (.goOn, p) => (none, p.rearm t)
    | (.stopped, p) => (none, p)
    | (.escaped failure, p) => (some failure, p)
  else (none, p)

/-- The events since the last look. -/
def takeEvents (p : Pacer τ) : List Event × Pacer τ :=
  (p.events.toList, { p with events := #[] })

end Pacer

end Chip8
