import LineForth.Text.Decimal

/-!
# Cells

A cell is a 64-bit integer that wraps around.  `Cell.fdiv` and `Cell.fmod` round towards
negative infinity: they correct the division that rounds towards zero, so the remainder takes the
sign of the divisor.  A text is a number (`Cell.ofText?`) only in the form in which `Cell.text`
writes it.
-/

namespace LineForth

abbrev Cell := Int64

namespace Cell

def text (c : Cell) : Text := Decimal.ofInt c.toInt

/-- A text is a number if it survives being read and written again. -/
def ofText? (t : Text) : Option Cell :=
  match Decimal.toInt? t with
  | none => none
  | some n =>
    if Int64.minValue.toInt ≤ n ∧ n ≤ Int64.maxValue.toInt ∧ Decimal.ofInt n = t then
      some (Int64.ofInt n)
    else none

/-- Truth is all bits set. -/
def ofBool (b : Bool) : Cell := if b then -1 else 0

def fdiv (a b : Cell) : Cell :=
  let q := a / b
  if a % b ≠ 0 ∧ (decide (a < 0)) ≠ (decide (b < 0)) then q - 1 else q

def fmod (a b : Cell) : Cell :=
  let m := a % b
  if m ≠ 0 ∧ (decide (m < 0)) ≠ (decide (b < 0)) then m + b else m

/-- The character whose code is the low 16 bits; a surrogate gives the replacement character. -/
def character (c : Cell) : Char :=
  let n := c.toUInt64.toNat % 65536
  if isScalar n then Char.ofNat n else replacement

end Cell

end LineForth
