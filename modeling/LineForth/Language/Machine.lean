import LineForth.Language.Primitive
import LineForth.Language.Trace

/-!
# The machine

What running a word can change: the stack, and the trace that records the run.  A word ends with
its output, with a failure, or by breaking off at a conditional that does not balance.
-/

namespace LineForth

structure Machine where
  stack : Stack := {}
  trace : Trace := {}

inductive Outcome
  | done (out : Text)
  | failed (out : Text) (why : Failure)
  | broke (word : Text) (place : Place)
deriving DecidableEq

namespace Machine

def event (m : Machine) (e : Event) : Machine := { m with trace := m.trace.event e }

def push (m : Machine) (c : Cell) : Machine := { m with stack := m.stack.push c }

def primitive (m : Machine) (p : Primitive) : Machine × Outcome :=
  match p.run m.stack with
  | (s, .ok out) => ({ m with stack := s }, .done out)
  | (s, .error f) => ({ m with stack := s }, .failed [] f)

def host (m : Machine) (w : HostWord) : Machine × Outcome :=
  (m.push w.cell,
    match w.failure with
    | none => .done w.text
    | some message => .failed w.text (.host message))

end Machine

end LineForth
