import LineForth.Language.Failure
import LineForth.Language.Stack

/-!
# Primitive words

Operands are popped from the top, so for two operands `a b` the cell `b` goes first.  The two-operand
words take `b` before they find that `a` is missing; the words that move cells about look at the
depth first.
-/

namespace LineForth

inductive Primitive
  | dot
  | dotS
  | add
  | mul
  | div
  | divMod
  | mod
  | eq
  | lt
  | gt
  | emit
  | swap
  | dup
  | over
  | rot
  | drop
  | spaces
deriving DecidableEq

/-- A native word supplied by the host: it pushes a cell, then gives a text and perhaps fails. -/
structure HostWord where
  cell : Cell
  text : Text
  failure : Option Text
deriving DecidableEq

namespace Primitive

/-- The stack after a word, and the word's output or failure. -/
abbrev Effect := Stack × Except Failure Text

def binary (op : Cell → Cell → Except Failure (List Cell)) (s : Stack) : Effect :=
  match s.pop? with
  | none => (s, .error .stackUnderflow)
  | some (b, s) =>
    match s.pop? with
    | none => (s, .error .stackUnderflow)
    | some (a, s) =>
      match op a b with
      | .ok cs => (s.pushAll cs, .ok [])
      | .error f => (s, .error f)

def compute (op : Cell → Cell → Cell) : Stack → Effect := binary fun a b => .ok [op a b]

def relate (op : Cell → Cell → Bool) : Stack → Effect :=
  binary fun a b => .ok [Cell.ofBool (op a b)]

def divide (op : Cell → Cell → List Cell) : Stack → Effect :=
  binary fun a b => if b = 0 then .error .divisionByZero else .ok (op a b)

def unary (op : Cell → Except Failure Text) (s : Stack) : Effect :=
  match s.pop? with
  | none => (s, .error .stackUnderflow)
  | some (c, s) => (s, op c)

/-- Rearranges the cells on top; `op` gives nothing if there are too few. -/
def rearrange (op : List Cell → Option (List Cell)) (s : Stack) : Effect :=
  match op s.cells with
  | none => (s, .error .stackUnderflow)
  | some cs => ({ s with cells := cs }, .ok [])

/-- The most spaces one word may print. -/
def mostSpaces : Cell := 65536

def spacesText (c : Cell) : Except Failure Text :=
  if c ≤ 0 then .ok []
  else if mostSpaces < c then .error .tooManySpaces
  else .ok (List.replicate c.toInt.toNat Text.space)

def run : Primitive → Stack → Effect
  | .dot => unary fun c => .ok (c.text ++ [Text.space])
  | .dotS => fun s => (s, .ok (Text.newline :: s.display))
  | .add => compute (· + ·)
  | .mul => compute (· * ·)
  | .div => divide fun a b => [a.fdiv b]
  | .divMod => divide fun a b => [a.fmod b, a.fdiv b]
  | .mod => divide fun a b => [a.fmod b]
  | .eq => relate fun a b => a = b
  | .lt => relate fun a b => a < b
  | .gt => relate fun a b => b < a
  | .emit => unary fun c => .ok (charBytes c.character)
  | .swap => rearrange fun
    | b :: a :: rest => some (a :: b :: rest)
    | _ => none
  | .dup => rearrange fun
    | a :: rest => some (a :: a :: rest)
    | _ => none
  | .over => rearrange fun
    | b :: a :: rest => some (a :: b :: a :: rest)
    | _ => none
  | .rot => rearrange fun
    | c :: b :: a :: rest => some (a :: c :: b :: rest)
    | _ => none
  | .drop => rearrange fun
    | _ :: rest => some rest
    | _ => none
  | .spaces => unary spacesText

end Primitive

end LineForth
