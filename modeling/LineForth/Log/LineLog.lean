import LineForth.Output.Sink

/-!
# Line logs

Bytes written to a line log come out as lines, each as soon as its newline has arrived.  Closing the
log gives what is left as a last line.
-/

namespace LineForth

structure LineLog where
  /-- The bytes that have not come out as lines. -/
  pending : Text := []
deriving DecidableEq

namespace LineLog

/-- Takes line after line from the pending bytes, and at the end, if `all` is set, what has no
newline; gives the lines and the bytes that stay.  Every round takes at least a newline. -/
def takeLines (all : Bool) (pending : Text) : List Text × Text :=
  if pending.isEmpty then ([], [])
  else match pending.idxOf? Text.newline with
    | some i =>
      let (lines, kept) := takeLines all (pending.drop (i + 1))
      (pending.take i :: lines, kept)
    | none => if all then ([pending], []) else ([], pending)
termination_by pending.length
decreasing_by
  have : pending.length ≠ 0 := by simp_all
  simp only [List.length_drop]
  omega

/-- The log after a write, the lines that the write completed, and what the write reports. -/
def write (l : LineLog) (p : Text) : LineLog × List Text × Written :=
  let (lines, pending) := takeLines false (l.pending ++ p)
  ({ pending }, lines, ⟨p.length, none⟩)

def close (l : LineLog) : LineLog × List Text × Option Problem :=
  let (lines, pending) := takeLines true l.pending
  ({ pending }, lines, none)

end LineLog

end LineForth
