import LineForth.Output.Sink
import LineForth.Text.Format

/-!
# Journals

A journal writes messages to its output, each with its level in front and a newline at the end, and
keeps a code for the end of the program: two if some message could not be written, otherwise one if
an error was recorded, otherwise zero.  Messages are put together in a buffer, which is emptied when
a message has gone out, also if only a part of it was taken.
-/

namespace LineForth

structure Journal where
  /-- The outputs that were ever given to the journal, in order. -/
  outputs : List Sink := []
  /-- The place of the output in use; without one, nothing is written. -/
  current : Option Nat := none
  buffer : Text := []
  exitCode : Nat := 0

namespace Journal

def setOutput (j : Journal) (s : Sink) : Journal :=
  { j with outputs := j.outputs ++ [s], current := some j.outputs.length }

/-- Goes back to an output that was given before, or does without one. -/
def useOutput (j : Journal) (place : Option Nat) : Journal := { j with current := place }

def inUse (j : Journal) : Option Sink := j.current.bind fun k => j.outputs[k]?

/-- Writes bytes to the output in use. -/
def put (j : Journal) (p : Text) : Journal × Written :=
  match j.current, j.inUse with
  | some k, some s =>
    let (s, w) := s.write p
    ({ j with outputs := j.outputs.set k s }, w)
  | _, _ => (j, ⟨p.length, none⟩)

def append (j : Journal) (t : Text) : Journal := { j with buffer := j.buffer ++ t }

/-- Ends the text in the buffer with a newline, unless it is empty or has one. -/
def endLine (j : Journal) : Journal :=
  if j.buffer.isEmpty ∨ j.buffer.getLast? = some Text.newline then j else j.append [Text.newline]

/-- Hands what is in the buffer to the output in use; what was not taken stays there. -/
def drain (j : Journal) : Journal × Option Problem :=
  if j.buffer.isEmpty then (j, none)
  else
    let (after, w) := j.put j.buffer
    ({ after with buffer := j.buffer.drop w.count },
      w.problem.or (if w.count = j.buffer.length then none else some .shortWrite))

def reset (j : Journal) : Journal := { j with buffer := [] }

/-- Adds a message with its level to what is in the buffer. -/
def fill (j : Journal) (level message : Text) : Journal :=
  let j := if level.isEmpty then j else (j.append level).append (Text.ofString ": ")
  (j.append message).endLine

/-- Writes a message with its level, if there is an output in use. -/
def write (j : Journal) (level message : Text) : Journal × Option Problem :=
  if j.inUse.isNone then (j, none)
  else
    let (j, p) := (j.fill level message).drain
    (j.reset, p)

def print (j : Journal) (level message : Text) : Journal :=
  match j.write level message with
  | (j, none) => j
  | (j, some _) => { j with exitCode := 2 }

def error (j : Journal) (message : Text) : Journal :=
  { j with exitCode := if j.exitCode = 0 then 1 else j.exitCode }.print (Text.ofString "ERROR")
    message

def printf (j : Journal) (level format : Text) (args : List Format.Arg) : Journal :=
  j.print level (Format.message format args)

/-- Prints with a level that was chosen before. -/
def leveled (level : Text) : Journal → Text → List Format.Arg → Journal :=
  fun j format args => j.printf level format args

def errorf (j : Journal) (format : Text) (args : List Format.Arg) : Journal :=
  j.error (Format.message format args)

end Journal

end LineForth
