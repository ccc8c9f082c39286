import Chip8.Command.Report
import Chip8.Runner
import Chip8.Tone.Wav

/-! The command that records the buzzer of a running image. -/

namespace Chip8.Command

def recordingUsage : String :=
  "Usage: npm run wav -- --rom=path/to/game.ch8 [--out=out.wav] [--seconds=5] [--rate=44100] [--freq=440] [--gain=0.25]"

/-- A recording in the making: the machine, the wave, the samples so far, and how many frames had
a tone. -/
structure Recording where
  runner : Runner
  tone : Tone
  samples : Array Sample
  activeFrames : Nat

/-- How the frames of a recording ended: all that were wanted are there, or one had a fault. -/
inductive RecordingEnd where
  | complete
  | stopped (frame : Nat) (fault : Fault)
  | raised (failure : Failure)

namespace Recording

/-- Records one frame. -/
def addFrame (rec : Recording) (perFrame : Nat) : RecordingEnd × Recording :=
  match rec.runner.frame with
  | (.error failure, runner) => (.raised failure, { rec with runner })
  | (.ok f, runner) =>
    let (samples, tone) :=
      if f.soundActive then rec.tone.play perFrame rec.samples
      else (rec.samples ++ Array.replicate perFrame 0, rec.tone)
    let activeFrames := rec.activeFrames + if f.soundActive then 1 else 0
    let rec' := { runner, tone, samples, activeFrames }
    match f.fault? with
    | some fault => (.stopped f.number fault, rec')
    | none => (.complete, rec')

/-- Records so many frames, or up to one with a fault. -/
def addFrames (perFrame : Nat) : Nat → Recording → RecordingEnd × Recording
  | 0, rec => (.complete, rec)
  | n + 1, rec =>
    match rec.addFrame perFrame with
    | (.complete, rec) => addFrames perFrame n rec
    | (ended, rec) => (ended, rec)

/-- The samples, with silence behind them up to a length. -/
def padded (rec : Recording) (size : Nat) : Array Sample :=
  rec.samples ++ Array.replicate (size - rec.samples.size) 0

end Recording

/-- Writes the file of a recording. -/
def developRecording (q : Request) (r : Report) (rec : Recording) (frames perFrame : Nat)
    (rate : Float) : Report :=
  let r :=
    if q.debug then
      r.print ("[wav][debug] tone active in " ++ toString rec.activeFrames ++ "/"
        ++ toString frames ++ " frames")
    else r
  match Wav.encode? (rec.padded (frames * perFrame)) rate with
  | none =>
    r.abort "[wav] Unhandled error:"
      (.error "RangeError" "The value of a header field is out of range.")
  | some file =>
    let out := q.absolute (q.outPath "out.wav")
    (r.write out (.sound file)).print
      ("Wrote " ++ Number.twoPlaces (Wav.seconds file) ++ "s WAV to " ++ out ++ " at "
        ++ Number.text rate ++ " Hz (1 ch).")

def recordSound (q : Request) (source : Source) : Report :=
  match q.imagePath? with
  | none => (Report.empty.warn recordingUsage).exit 2
  | some path =>
    let label := "[wav] Unhandled error:"
    let seconds := Number.ofArgument (q.args.flag "seconds") 5 0.1 600
    let rate := Number.truncate (Number.ofArgument (q.args.flag "rate") 44100 8000 192000)
    let tone := Tone.make rate (Number.ofArgument (q.args.flag "freq") 440 20 20000)
      (Number.ofArgument (q.args.flag "gain") 0.25 0 1)
    let settings := q.settings
    match q.loadCartridge path with
    | .error failure => Report.empty.abort label failure
    | .ok c =>
      let runner := Runner.make (.powerOn settings.dialect (some c)) source
        (some settings.budget) settings.mode 0 false
      let frames := Number.naturalsBelow (seconds * 60)
      let perFrame := (Number.toInt (tone.samplesPerFrame 60)).toNat
      match Recording.addFrames perFrame frames ⟨runner, tone, #[], 0⟩ with
      | (.raised failure, _) => Report.empty.abort label failure
      | (.stopped number fault, rec) =>
        let r := Report.empty.warn
          ("[wav] stopped at frame " ++ toString number ++ ": " ++ (Failure.fault fault).describe)
        developRecording q r rec frames perFrame rate
      | (.complete, rec) => developRecording q Report.empty rec frames perFrame rate

end Chip8.Command
