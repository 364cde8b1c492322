import LineForth.Text

/-!
# Decimal numbers

`Decimal.ofInt` writes an integer in its shortest form: a minus sign for a negative one and no
leading zero.  `Decimal.toInt?` reads an optional sign and any positive number of digits, so it
accepts more spellings than are ever written.
-/

namespace LineForth.Decimal

def ofNat (n : Nat) : Text := (Nat.toDigits 10 n).map fun c => c.toNat.toUInt8

def ofInt : Int → Text
  | .ofNat n => ofNat n
  | .negSucc n => 0x2D :: ofNat (n + 1)

def isDigit (b : UInt8) : Bool := 0x30 ≤ b.toNat && b.toNat ≤ 0x39

def digit (b : UInt8) : Nat := b.toNat - 0x30

def toNat? (t : Text) : Option Nat :=
  if t ≠ [] ∧ t.all isDigit then some (t.foldl (fun n b => n * 10 + digit b) 0) else none

def toInt? : Text → Option Int
  | [] => none
  | b :: t =>
    if b = 0x2D then (toNat? t).map fun n => -(n : Int)
    else if b = 0x2B then (toNat? t).map fun n => (n : Int)
    else (toNat? (b :: t)).map fun n => (n : Int)

end LineForth.Decimal
