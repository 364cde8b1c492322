import LineForth.Language.Cell

/-!
# The data stack

Cells, top first.  The stack also remembers whether anything was ever pushed, which only its
listing in a trace can show.
-/

namespace LineForth

structure Stack where
  cells : List Cell := []
  touched : Bool := false
deriving DecidableEq

namespace Stack

def push (s : Stack) (c : Cell) : Stack := { cells := c :: s.cells, touched := true }

def pushAll (s : Stack) (cs : List Cell) : Stack := cs.foldl push s

def pop? (s : Stack) : Option (Cell × Stack) :=
  match s.cells with
  | [] => none
  | c :: cs => some (c, { s with cells := cs })

def depth (s : Stack) : Nat := s.cells.length

/-- The cells from the bottom up. -/
def values (s : Stack) : List Cell := s.cells.reverse

def display (s : Stack) : Text :=
  Text.join [Text.space] (s.values.map Cell.text) ++ Text.ofString " <- Top "

/-- The usual listing of the cells in a trace. -/
def listing (s : Stack) : Text :=
  if s.cells.isEmpty then (if s.touched then [] else Text.ofString "nil")
  else Text.ofString "[]int\x7b" ++ Text.join (Text.ofString ", ") (s.values.map Cell.text) ++
    Text.ofString "\x7d"

end Stack

end LineForth
