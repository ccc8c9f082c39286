import Chip8.Command.Report
import Chip8.Disassembly

/-! The command that lists a program image. -/

namespace Chip8.Command

def listingUsage : String :=
  "Usage: npm run disasm -- path/to/game.ch8"

def printListing (q : Request) : Report :=
  match q.imagePath? with
  | none => (Report.empty.warn listingUsage).exit 2
  | some path =>
    match q.loadCartridge path with
    | .error failure => Report.empty.abort "[disasm]" failure
    | .ok c =>
      let lines := Disassembly.lines (Memory.programStart : Int) c.image.toList
      (Report.empty.print
        ("; " ++ c.name ++ "  " ++ toString c.image.size ++ " bytes  fnv=" ++ c.checksum)).print
        (Disassembly.listing lines)

end Chip8.Command
