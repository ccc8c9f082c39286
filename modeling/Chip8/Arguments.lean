/-! Command-line arguments: flags `--key=value`, a bare `--key`, and everything else. -/

namespace Chip8

/-- Flags with their last setting, and the other arguments in order. -/
structure Arguments where
  flags : List (String × String)
  positional : List String
  deriving DecidableEq, Repr

namespace Arguments

def empty : Arguments where
  flags := []
  positional := []

def isLineEnd (c : Char) : Bool :=
  c == '\n' || c == '\r' || c == '\u2028' || c == '\u2029'

/-- The key and the value of a flag. A key is not empty and holds no equals sign; a value that is
written out holds no line end. A bare key has the value `1`. -/
def flag? (a : String) : Option (String × String) :=
  match a.toList with
  | '-' :: '-' :: body =>
    let key := body.takeWhile (· != '=')
    if key.isEmpty then none
    else match body.dropWhile (· != '=') with
      | [] => some (String.ofList key, "1")
      | _ :: value =>
        if value.any isLineEnd then none else some (String.ofList key, String.ofList value)
  | _ => none

/-- Sets a flag in place of an earlier setting. -/
def setFlag (flags : List (String × String)) (key value : String) : List (String × String) :=
  flags.filter (·.1 != key) ++ [(key, value)]

def add (args : Arguments) (a : String) : Arguments :=
  match flag? a with
  | some (key, value) => { args with flags := setFlag args.flags key value }
  | none => { args with positional := args.positional ++ [a] }

def ofList (as : List String) : Arguments :=
  as.foldl add empty

/-- The arguments behind the name of the interpreter and the name of the program. -/
def ofCommandLine (argv : List String) : Arguments :=
  ofList (argv.drop 2)

def flag (args : Arguments) (key : String) : Option String :=
  args.flags.lookup key

end Arguments

end Chip8
