import Chip8.Pacer

/-! A virtual clock that runs timers when it is moved on. -/

namespace Chip8

namespace Alarm

variable {α : Type} {τ : Type} [Scalar τ]

/-- The earlier of two entries by their alarms; of two with one due time the older. -/
def sooner (alarm : α → Alarm τ) (best : Option α) (a : α) : Option α :=
  match best with
  | none => some a
  | some b =>
    if (alarm b).due ≤ (alarm a).due then
      if (alarm a).due ≤ (alarm b).due ∧ (alarm a).id < (alarm b).id then some a else some b
    else some a

/-- The earliest of the entries that are due at `target`. -/
def earliest? (alarm : α → Alarm τ) (target : τ) (entries : List α) : Option α :=
  (entries.filter fun a => (alarm a).due ≤ target).foldl (sooner alarm) none

end Alarm

/-- A loop on a clock of its own. The time that the loop reads may be `skew` ahead of the clock
that its timers run on. -/
structure Timeline (τ : Type) where
  pacer : Pacer τ
  clock : τ
  skew : τ

namespace Timeline

variable {τ : Type} [Scalar τ]

def make (pacer : Pacer τ) : Timeline τ where
  pacer
  clock := Scalar.ofNat 0
  skew := Scalar.ofNat 0

def moment (t : Timeline τ) : Moment τ where
  clock := t.clock
  now := t.clock + t.skew

def start (t : Timeline τ) : Timeline τ :=
  { t with pacer := t.pacer.start t.moment }

def stop (t : Timeline τ) : Option Failure × Timeline τ :=
  let (failure?, pacer) := t.pacer.stop t.moment
  (failure?, { t with pacer })

/-- Lets the time go on without the timers. -/
def stall (t : Timeline τ) (ms : τ) : Timeline τ :=
  { t with skew := t.skew + ms }

/-- Runs a timer. A clock that is past its time already is not turned back. -/
def run (t : Timeline τ) (a : Alarm τ) : Option Failure × Timeline τ :=
  let clock := if t.clock ≤ a.due then a.due else t.clock
  let t := { t with clock }
  let (failure?, pacer) := t.pacer.fire t.moment a
  (failure?, { t with pacer })

/-- How many timers one move of the clock may run. -/
def limit : Nat := 100

/-- Runs the timers that are due at `target`, and counts them. -/
def runTimers (target : τ) : Nat → Nat → Timeline τ → Except Failure Nat × Timeline τ
  | 0, count, t => (.ok count, t)
  | fuel + 1, count, t =>
    match Alarm.earliest? id target t.pacer.pending with
    | none => (.ok count, t)
    | some a =>
      match t.run a with
      | (some failure, t) => (.error failure, t)
      | (none, t) => runTimers target fuel (count + 1) t

/-- Moves the clock on. A failure that escapes from a timer ends the move at its target. -/
def advance (t : Timeline τ) (ms : τ) : Except Failure Nat × Timeline τ :=
  let target := t.clock + ms
  let (answer, t) := t.runTimers target limit 0
  (answer, { t with clock := target })

end Timeline

end Chip8
