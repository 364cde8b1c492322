import LineForth.Input.Lines
import LineForth.Problem

/-!
# Input

Lines are read through a queue of streams, one after the other.  A stream ends after its lines, or
breaks off with a problem; then it is closed, if it can be, and the next one follows.  A problem of
reading is reported before one of closing.  The location of the last line read is kept, and so is
the history of closings, by the key of the stream.
-/

namespace LineForth

structure Stream where
  key : Nat := 0
  name : Text := []
  /-- The lines still to be read. -/
  lines : List Text := []
  /-- What breaks off the reading after the lines. -/
  trouble : Option Problem := none
  closable : Bool := false
  closeTrouble : Option Problem := none
deriving DecidableEq

namespace Stream

/-- What a stream without a name is called. -/
def anonymous (kind : Text) : Text :=
  Text.ofString "<unnamed " ++ kind ++ Text.ofString ">"

/-- A stream with the lines of a text; an overlong line hides what follows it. -/
def ofText (name text : Text) (trouble : Option Problem) : Stream :=
  let cut := Lines.ofText text
  { name, lines := cut.lines, trouble := if cut.overlong then some .lineTooLong else trouble }

/-- The same stream as one that can be closed. -/
def closing (s : Stream) (trouble : Option Problem) : Stream :=
  { s with closable := true, closeTrouble := trouble }

end Stream

structure Input where
  queue : List Stream := []
  current : Option Stream := none
  last : Location := {}
  /-- The keys of the streams closed so far, latest first. -/
  closings : List Nat := []

namespace Input

def enqueue (i : Input) (s : Stream) : Input := { i with queue := i.queue ++ [s] }

def close1 (i : Input) (s : Stream) : Input × Option Problem :=
  if s.closable then ({ i with closings := s.key :: i.closings }, s.closeTrouble) else (i, none)

/-- Takes a line from `s` as the current stream; one without lines is closed, and gives nothing
unless it ends badly. -/
def take (i : Input) (s : Stream) : Input × Option (Except Problem Text) :=
  match s.lines with
  | l :: ls =>
    ({ i with
        current := some { s with lines := ls }
        last := { i.last with line := i.last.line + 1 } },
      some (.ok l))
  | [] =>
    let (i, p) := { i with current := none }.close1 s
    (i, (s.trouble.or p).map .error)

/-- Goes through streams as the rest of the queue until one gives a line or ends badly. -/
def advance (i : Input) : List Stream → Input × Except Problem Text
  | [] => ({ i with queue := [] }, .error .endOfFile)
  | s :: rest =>
    match { i with queue := rest, last := { name := s.name } }.take s with
    | (i, some r) => (i, r)
    | (i, none) => i.advance rest

def readLine (i : Input) : Input × Except Problem Text :=
  match i.current with
  | none => i.advance i.queue
  | some s =>
    match i.take s with
    | (i, some r) => (i, r)
    | (i, none) => i.advance i.queue

/-- Closes streams in order; the first problem counts. -/
def closeAll (i : Input) (p : Option Problem) : List Stream → Input × Option Problem
  | [] => (i, p)
  | s :: rest =>
    let (i, q) := i.close1 s
    i.closeAll (p.or q) rest

/-- Closes the current stream and those still queued. -/
def close (i : Input) : Input × Option Problem :=
  { i with current := none, queue := [] }.closeAll none (i.current.toList ++ i.queue)

/-- How many lines are still to be read. -/
def remaining (i : Input) : Nat :=
  ((i.current.toList ++ i.queue).flatMap Stream.lines).length

end Input

end LineForth
