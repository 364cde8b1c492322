import LineForth.Text

/-!
# Lines

A text is cut into lines at its newlines; one carriage return before a newline, or at the end, is
dropped.  What follows the last newline is a line too, unless it is empty.  A line that fills
`Lines.limit` bytes without a newline cannot be read, and ends the reading.
-/

namespace LineForth

structure Lines where
  lines : List Text
  overlong : Bool
deriving DecidableEq

namespace Lines

def limit : Nat := 65536

/-- A line from its bytes, last one first. -/
def ofReversed : Text → Text
  | [] => []
  | b :: t => if b = 0x0D then t.reverse else (b :: t).reverse

/-- Cuts lines onto `acc`, last one first; `piece` holds the `count` bytes of the current line, last
one first. -/
def cutOnto (acc : List Text) (piece : Text) (count : Nat) : Text → Lines
  | [] => ⟨(if count = 0 then acc else ofReversed piece :: acc).reverse, false⟩
  | b :: t =>
    if b = Text.newline then cutOnto (ofReversed piece :: acc) [] 0 t
    else if count + 1 = limit then ⟨acc.reverse, true⟩
    else cutOnto acc (b :: piece) (count + 1) t

def ofText (t : Text) : Lines := cutOnto [] [] 0 t

end Lines

end LineForth
