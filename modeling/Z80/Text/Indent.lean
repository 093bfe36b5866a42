/-!
Texts of several lines in places that are laid out by lines: what belongs to one
entry stays to the right of where the next entry begins.
-/

namespace Z80.Indent

def blanks : List Char := [' ', ' ', ' ', ' ']

/-- Moves every line but the first to the right. -/
def hanging (text : String) : String :=
  .ofList (text.toList.flatMap fun c => if c = '\n' then c :: blanks else [c])

/-- Moves every line to the right. -/
def block (text : String) : String :=
  .ofList blanks ++ hanging text

end Z80.Indent
