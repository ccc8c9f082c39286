/-! File paths, with `/` between their parts. -/

namespace Chip8.Path

/-- Takes one more part into a path, the last part first. -/
def enter (path : List String) (part : String) : List String :=
  if part = "" ∨ part = "." then path
  else if part = ".." then path.tail
  else part :: path

/-- The parts of a path without `.`, `..` and empty ones, the last part first. -/
def parts (path : String) : List String :=
  (path.splitOn "/").foldl enter []

/-- The absolute path that a path means in a directory. -/
def resolve (directory path : String) : String :=
  let path := if path.startsWith "/" then path else directory ++ "/" ++ path
  "/" ++ "/".intercalate (parts path).reverse

/-- The last part. -/
def fileName (path : String) : String :=
  (parts path).head?.getD ""

end Chip8.Path
