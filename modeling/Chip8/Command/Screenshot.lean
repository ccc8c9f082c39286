import Chip8.Command.Report
import Chip8.Runner

/-! The command that runs an image for some frames and takes a picture. -/

namespace Chip8.Command

def screenshotUsage : String :=
  "Usage: npm run screenshot -- --rom=path/to/game.ch8 --out=./out.png [--frames=120] [--scale=8] [--ipf=10] [--holdKey=5] [--onCpuError=record|throw]"

/-- Holds down a key of the pad; any other number is none. -/
def holdKey (m : Machine) (key : Option Int) : Machine :=
  match key with
  | some (.ofNat k) => if h : k < 16 then { m with keypad := m.keypad.set ⟨k, h⟩ true } else m
  | _ => m

def runStateName : RunState → String
  | .running => "running"
  | .awaitingKey _ => "awaitingKey"
  | .halted _ => "halted"

/-- Prints the trace lines of a runner. -/
def printTrace (r : Report) (runner : Runner) : Report :=
  runner.trace.foldl Report.print r

/-- The picture of the last frame, and what is said about it. -/
def developPicture (q : Request) (r : Report) (runner : Runner) (last : Frame)
    (out : String) (scale : Nat) (budget : String) : Report :=
  let picture := last.picture
  let width := Display.width * scale
  let height := Display.height * scale
  let r := r.write (q.absolute out) (.image width height (picture.rgba scale .standard))
  let r :=
    if q.debug then
      r.print ("[screenshot][debug] lit=" ++ toString runner.machine.display.litCount
        ++ " frameHash=" ++ picture.fingerprintText
        ++ " cycles=" ++ toString runner.machine.cycles
        ++ " state=" ++ runStateName runner.machine.run)
    else r
  r.print ("Wrote " ++ out ++ " (" ++ toString width ++ "x" ++ toString height ++ ") after "
    ++ toString last.number ++ " frames at " ++ budget ++ " ipf")

def takeScreenshot (q : Request) (source : Source) : Report :=
  match q.imagePath? with
  | none => (Report.empty.warn screenshotUsage).exit 1
  | some path =>
    let label := "[screenshot] Unhandled error:"
    let out := q.outPath "screenshot.png"
    let frames := Number.truncate (Number.ofArgument (q.args.flag "frames") 120 1 Number.infinity)
    let scale := (Number.toInt (Number.ofArgument (q.args.flag "scale") 8 1 32)).toNat
    let settings := q.settings
    let budget := toString settings.budget
    match q.loadCartridge path with
    | .error failure => Report.empty.abort label failure
    | .ok c =>
      let r := Report.empty.print
        ("[screenshot] ROM: " ++ c.name ++ " (" ++ toString c.image.size ++ " bytes, fnv="
          ++ c.checksum ++ ")  out: " ++ out ++ "  frames: " ++ Number.text frames ++ "  ipf: "
          ++ budget ++ "  scale: " ++ toString scale)
      let machine := holdKey (.powerOn settings.dialect (some c))
        ((q.args.flag "holdKey").bind Number.leadingHex?)
      let runner :=
        Runner.make machine source (some settings.budget) settings.mode settings.traceEvery true
      match runner.runFrames (Number.naturalsBelow frames) none with
      | (.error failure, runner) => (printTrace r runner).abort label failure
      | (.ok none, runner) => printTrace r runner
      | (.ok (some last), runner) =>
        let r := printTrace r runner
        let r := match last.fault? with
          | some f =>
            r.warn ("[screenshot] stopped at frame " ++ toString last.number ++ ": "
              ++ (Failure.fault f).describe)
          | none => r
        developPicture q r runner last out scale budget

end Chip8.Command
