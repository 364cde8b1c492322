import LineForth.Problem

/-!
# Tasks

A task returns, perhaps with a problem, or crashes, or ends without returning.  `Task.recover` turns
every ending into a result: what the task returned, or a problem that records how it was cut short.
A crash with no value at all counts as ending without returning.
-/

namespace LineForth

inductive Ending
  | returned (p : Option Problem)
  | crashed (p : Problem)
  | aborted (value : Text)
  | exited
deriving DecidableEq

def Ending.recover (name : Text) : Ending → Option Problem
  | .returned p => p
  | .crashed p => some (.crashed name p)
  | .aborted value => some (.aborted name value)
  | .exited => some (.exited name)

inductive Task
  | succeed
  | fail (message : Text)
  | crash (message : Text)
  | abort (value : Text)
  | unbalance (word place : Text)
  /-- Reads past the end of a sequence of the given length. -/
  | overrun (length : Int)
  | exit
  | recovered (name : Text) (body : Task)
  | noted (note : Text) (body : Task)
  | located (location : Location) (body : Task)
  | crashWithResult (body : Task)

namespace Task

/-- Goes on with the result of a task that returned. -/
def andThen (e : Ending) (f : Option Problem → Ending) : Ending :=
  match e with
  | .returned p => f p
  | e => e

/-- The greatest length of a sequence of cells that fits into 48 bits of addresses. -/
def longest : Int := 35184372088832

/-- A sequence that cannot be made has no end to read past. -/
def overrunMessage (length : Int) : Text :=
  if length < 0 ∨ longest < length then
    Text.ofString "runtime error: makeslice: len out of range"
  else
    Text.ofString "runtime error: index out of range [" ++ Decimal.ofInt (length + 1) ++
      Text.ofString "] with length " ++ Decimal.ofInt length

def run : Task → Ending
  | .succeed => .returned none
  | .fail message => .returned (some (.plain message))
  | .crash message => .crashed (.plain message)
  | .abort value => .aborted value
  | .unbalance word place => .crashed (.unbalanced word place)
  | .overrun length => .crashed (.plain (overrunMessage length))
  | .exit => .exited
  | .recovered name body => .returned (body.run.recover name)
  | .noted note body =>
    andThen body.run fun
      | some p => .returned (some (.noted note p))
      | none => .returned (some (.plain (note ++ Text.ofString ": %!w(<nil>)")))
  | .located location body =>
    andThen body.run fun
      | some p => .returned (some (.located location p))
      | none => .returned (some (.unexplained location))
  | .crashWithResult body =>
    andThen body.run fun
      | some p => .crashed p
      | none => .exited

def recover (name : Text) (t : Task) : Option Problem := t.run.recover name

end Task

end LineForth
