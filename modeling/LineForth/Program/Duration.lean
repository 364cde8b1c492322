import LineForth.Program.Rounded
import LineForth.Text.Decimal

/-!
# Durations

A duration is an optional sign and one or more amounts, each a decimal number with a unit, as in
`1h15m30.918s`; zero needs no unit.  It is read as a number of nanoseconds, and must fit in 64 bits.
What stands after a decimal point is turned into nanoseconds with rounded numbers, so the last
nanosecond of it is not exact.
-/

namespace LineForth.Duration

/-- The nanoseconds in a unit. -/
def unit? (t : Text) : Option Nat :=
  if t = Text.ofString "ns" then some 1
  else if t = Text.ofString "us" ∨ t = Text.ofString "µs" ∨ t = Text.ofString "μs" then some 1000
  else if t = Text.ofString "ms" then some 1000000
  else if t = Text.ofString "s" then some 1000000000
  else if t = Text.ofString "m" then some 60000000000
  else if t = Text.ofString "h" then some 3600000000000
  else none

/-- The least number of nanoseconds that is too many for a positive duration. -/
def limit : Nat := 9223372036854775808

def point : UInt8 := 0x2E

def value (digits : Text) : Nat := digits.foldl (fun n b => n * 10 + Decimal.digit b) 0

/-- The digits after a decimal point: their value, and the power of ten that it is divided by.
Digits for which there is no room are passed over (`full`). -/
structure Fraction where
  value : Nat := 0
  scale : Rounded := .ofNat 1
  full : Bool := false

namespace Fraction

def push (f : Fraction) (b : UInt8) : Fraction :=
  let value := f.value * 10 + Decimal.digit b
  if f.full || (limit - 1) / 10 < f.value || limit < value then { f with full := true }
  else { value, scale := f.scale.mul (.ofNat 10) }

def ofDigits (digits : Text) : Fraction := digits.foldl push {}

/-- The whole part of the fraction of a unit. -/
def of (f : Fraction) (unit : Nat) : Nat :=
  ((Rounded.ofNat f.value).mul ((Rounded.ofNat unit).div f.scale)).floor

end Fraction

/-- The digits after a decimal point, and what follows; without a point there are none. -/
def fraction (t : Text) : Text × Text :=
  match t with
  | [] => ([], [])
  | b :: rest =>
    if b = point then (rest.takeWhile Decimal.isDigit, rest.dropWhile Decimal.isDigit)
    else ([], b :: rest)

/-- The first amount in nanoseconds, and what follows it. -/
def amount? (t : Text) : Option (Nat × Text) :=
  let whole := t.takeWhile Decimal.isDigit
  let (part, rest) := fraction (t.dropWhile Decimal.isDigit)
  let unitText := rest.takeWhile fun b => b ≠ point && !Decimal.isDigit b
  let rest := rest.dropWhile fun b => b ≠ point && !Decimal.isDigit b
  match unit? unitText with
  | none => none
  | some unit =>
    let n := value whole * unit
    let sum := n + (Fraction.ofDigits part).of unit
    if (whole.isEmpty ∧ part.isEmpty) ∨ limit < n ∨ limit < sum then none else some (sum, rest)

/-- Sums are kept in 64 bits. -/
def wordSize : Nat := 18446744073709551616

/-- The sum of the amounts; each takes at least a byte. -/
def total? : Nat → Nat → Text → Option Nat
  | _, sum, [] => some sum
  | 0, _, _ :: _ => none
  | fuel + 1, sum, t =>
    match amount? t with
    | none => none
    | some (n, rest) =>
      let sum := (sum + n) % wordSize
      if limit < sum then none else total? fuel sum rest

def unsigned? (t : Text) : Option Nat :=
  if t = Text.ofString "0" then some 0
  else if t.isEmpty then none
  else total? t.length 0 t

def ofText? : Text → Option Int
  | [] => none
  | b :: t =>
    if b = 0x2D then (unsigned? t).map fun n => -(n : Int)
    else
      let t := if b = 0x2B then t else b :: t
      match unsigned? t with
      | none => none
      | some n => if n < limit then some n else none

end LineForth.Duration
