import Chip8.Arguments
import Chip8.Cartridge
import Chip8.Command.Path
import Chip8.Settings

/-! What a command is given, and what it answers. -/

namespace Chip8.Command

/-- Arguments, environment variables, the working directory, and the files that can be read, by
absolute path. -/
structure Request where
  args : Arguments
  env : Settings.Lookup
  directory : String
  files : String → Option (Array UInt8)

/-- A file to be written. -/
inductive Artifact where
  | sound (bytes : Array UInt8)
  | image (width height : Nat) (rgba : Array UInt8)

/-- Everything that a command says, in order, and the exit code if it ends the program. -/
structure Report where
  out : String
  err : String
  exit? : Option Nat
  files : List (String × Artifact)

namespace Report

def empty : Report where
  out := ""
  err := ""
  exit? := none
  files := []

def print (r : Report) (line : String) : Report :=
  { r with out := r.out ++ line ++ "\n" }

def warn (r : Report) (line : String) : Report :=
  { r with err := r.err ++ line ++ "\n" }

def exit (r : Report) (code : Nat) : Report :=
  { r with exit? := some code }

def write (r : Report) (path : String) (a : Artifact) : Report :=
  { r with files := r.files ++ [(path, a)] }

/-- The last words of a command that failed. -/
def abort (r : Report) (label : String) (failure : Failure) : Report :=
  (r.warn (label ++ " " ++ failure.describe)).exit 1

end Report

namespace Request

/-- The program image that the arguments name: the flag first, then the first other argument. An
empty name is none. -/
def imagePath? (q : Request) : Option String :=
  let path := match q.args.flag "rom" with
    | some p => some p
    | none => q.args.positional.head?
  path.filter (· != "")

def absolute (q : Request) (path : String) : String :=
  Path.resolve q.directory path

def notFound (path : String) : Failure :=
  .error "Error" ("ENOENT: no such file or directory, open '" ++ path ++ "'")

/-- Reads a program image; a cartridge is named after its file. -/
def loadCartridge (q : Request) (path : String) : Except Failure Cartridge :=
  let path := q.absolute path
  match q.files path with
  | none => .error (notFound path)
  | some bytes => (Cartridge.make bytes (Path.fileName path)).mapError .fault

/-- Settings by the environment with the flags laid over them. -/
def settings (q : Request) : Settings :=
  (Settings.ofEnvironment q.env).overlay q.args.flag

/-- Extra output is asked for by any setting but `0`. -/
def debug (q : Request) : Bool :=
  (q.env "CHIP8_DEBUG").getD "0" != "0"

/-- The path to write to, with a default for an empty one. -/
def outPath (q : Request) (default : String) : String :=
  match q.args.flag "out" with
  | some p => if p = "" then default else p
  | none => default

end Request

end Chip8.Command
