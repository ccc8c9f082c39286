import Chip8.Command.Listing
import Chip8.Command.Player
import Chip8.Command.Recording
import Chip8.Command.Screenshot
import Chip8.Picture.Png

/-! The command line: `disasm`, `screenshot`, `wav` or `play`, and the arguments of the command. -/

namespace Chip8.CommandLine

def usage : String :=
  "Usage: disasm|screenshot|wav|play [arguments]"

/-- The environment variables that a command may look at. -/
def variableNames : List String :=
  ["CHIP8_IPF", "CHIP8_QUIRK_LOAD_STORE_INC", "CHIP8_QUIRK_SHIFT_VY", "CHIP8_QUIRK_LOGIC_VF",
    "CHIP8_ON_CPU_ERROR", "CHIP8_TRACE", "CHIP8_DEBUG"]

def readFile? (path : String) : IO (Option (Array UInt8)) := do
  try
    return some (← IO.FS.readBinFile path).data
  catch _ => return none

/-- The request of a command, with the one file that it reads. -/
def request (args : List String) : IO Command.Request := do
  let env ← variableNames.filterMapM fun name => do
    return (← IO.getEnv name).map fun value => (name, value)
  let directory := (← IO.currentDir).toString
  let q : Command.Request :=
    { args := Arguments.ofList args
      env := fun k => env.lookup k
      directory
      files := fun _ => none }
  match q.imagePath? with
  | none => return q
  | some path =>
    let path := q.absolute path
    let file? ← readFile? path
    return { q with files := fun p => if p = path then file? else none }

def fileBytes : Command.Artifact → Array UInt8
  | .sound bytes => bytes
  | .image width height rgba => Png.encode width height rgba

def finish (r : Command.Report) : IO UInt32 := do
  IO.print r.out
  IO.eprint r.err
  for (path, a) in r.files do
    IO.FS.writeBinFile path ⟨fileBytes a⟩
  return UInt32.ofNat (r.exit?.getD 0)

def randomSource : IO Source := do
  return Source.seeded (UInt64.ofNat (← IO.monoNanosNow))

/-- Collects what is typed, line by line. -/
partial def listen (input : IO.FS.Stream) (typed : IO.Ref String) : IO Unit := do
  let line ← input.getLine
  unless line.isEmpty do
    typed.modify (· ++ line)
    listen input typed

/-- Writes what the player has said. -/
def say (p : Command.Player) : IO Command.Player := do
  let ((out, err), p) := p.takeOutput
  IO.print out
  IO.eprint err
  (← IO.getStdout).flush
  return p

/-- Plays in real time until the player ends. -/
partial def playOn (p : Command.Player) (typed : IO.Ref String) (last : Nat) : IO UInt32 := do
  let p ← say p
  match p.exit? with
  | some code => return UInt32.ofNat code
  | none =>
    IO.sleep 4
    let now ← IO.monoMsNow
    let text ← typed.modifyGet fun s => (s, "")
    let p := if text.isEmpty then p else p.step (.typed text)
    playOn (p.step (.advance (Float.ofNat (now - last)))) typed now

def play (q : Command.Request) (s : Source) : IO UInt32 := do
  let typed ← IO.mkRef ""
  let _ ← IO.asTask (listen (← IO.getStdin) typed) .dedicated
  playOn (Command.Player.start q s false) typed (← IO.monoMsNow)

end Chip8.CommandLine

open Chip8 CommandLine in
def main (args : List String) : IO UInt32 := do
  let q ← request args.tail
  let s ← randomSource
  match args.head? with
  | some "disasm" => finish (Command.printListing q)
  | some "screenshot" => finish (Command.takeScreenshot q s)
  | some "wav" => finish (Command.recordSound q s)
  | some "play" => play q s
  | _ =>
    IO.eprintln usage
    return 2
