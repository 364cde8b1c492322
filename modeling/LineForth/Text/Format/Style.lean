import LineForth.Text.Decimal
import LineForth.Text.Quoted

/-!
# Styles

A style says how a value is laid out: its flags, the least width and the precision.  Widths count
characters.  The precision of a text bounds its characters, or its bytes where they are written in
hexadecimal; the precision of an integer is its least number of digits.  Zeros fill up only on the
left, and for an integer they stand after the sign.
-/

namespace LineForth.Format

structure Style where
  /-- The flag `-`: fill up on the right. -/
  leftmost : Bool := false
  /-- The flag `0`: fill up with zeros. -/
  zeros : Bool := false
  /-- The flag `+`: always a sign, or only plain characters between quotes. -/
  plus : Bool := false
  /-- The flag for a space where a sign would stand, or between bytes. -/
  space : Bool := false
  /-- The flag `#`: the alternate form. -/
  sharp : Bool := false
  /-- Whether a text is shown as it is written in a source. -/
  source : Bool := false
  width : Option Nat := none
  precision : Option Nat := none
deriving DecidableEq

namespace Style

def zero : UInt8 := 0x30

def filler (s : Style) : UInt8 := if s.zeros && !s.leftmost then zero else Text.space

/-- Fills up a text that is `size` characters long. -/
def fill (s : Style) (size : Nat) (t : Text) : Text :=
  let more := List.replicate (s.width.getD 0 - size) s.filler
  if s.leftmost then t ++ more else more ++ t

def pad (s : Style) (t : Text) : Text :=
  match s.width with
  | none => t
  | some _ => s.fill (Text.glyphs t).length t

def truncate (s : Style) (t : Text) : Text :=
  match s.precision with
  | none => t
  | some n => Text.bytes ((Text.glyphs t).take n)

def plain (s : Style) (t : Text) : Text := s.pad (s.truncate t)

def quoted (s : Style) (t : Text) : Text :=
  let t := s.truncate t
  s.pad (if s.sharp && Text.fitsBackquotes t then Text.backquoted t
    else if s.plus then Text.quotedPlainly t
    else Text.quoted t)

/-- A hexadecimal digit in either case. -/
def hexOf (upper : Bool) (n : Nat) : UInt8 :=
  if upper && 10 ≤ n then hexDigit n - 0x20 else hexDigit n

def hexByte (upper : Bool) (b : UInt8) : Text :=
  [hexOf upper (b.toNat / 16), hexOf upper (b.toNat % 16)]

/-- What announces hexadecimal digits. -/
def hexLead (upper : Bool) : Text := [zero, if upper then 0x58 else 0x78]

/-- The bytes of a text in hexadecimal. -/
def hex (s : Style) (upper : Bool) (t : Text) : Text :=
  let t := match s.precision with
    | none => t
    | some n => t.take n
  let lead := if s.sharp then hexLead upper else []
  let body :=
    if t.isEmpty then []
    else if s.space then Text.join [Text.space] (t.map fun b => lead ++ hexByte upper b)
    else lead ++ t.flatMap (hexByte upper)
  s.fill body.length body

/-- The same style with spaces to fill up. -/
def withoutZeros (s : Style) : Style := { s with zeros := false }

/-- What stands where the sign of a number goes. -/
def sign (s : Style) (negative : Bool) : Text :=
  if negative then [0x2D] else if s.plus then [0x2B] else if s.space then [Text.space] else []

/-- The least number of digits of an integer. -/
def leastDigits (s : Style) (negative : Bool) : Nat :=
  match s.precision with
  | some n => n
  | none =>
    if s.zeros && !s.leftmost then s.width.getD 0 - (s.sign negative).length else 0

def digits (base : Nat) (upper : Bool) (n : Nat) : Text :=
  (Nat.toDigits base n).map fun c =>
    let b := c.toNat.toUInt8
    if upper && 0x61 ≤ b then b - 0x20 else b

def zeroed (least : Nat) (t : Text) : Text := List.replicate (least - t.length) zero ++ t

/-- What announces the base of the digits `t` in the alternate form. -/
def baseLead (base : Nat) (upper : Bool) (t : Text) : Text :=
  match base with
  | 2 => Text.ofString "0b"
  | 8 => if t.head? = some zero then [] else [zero]
  | 16 => hexLead upper
  | _ => []

/-- An integer in a base; `lead` stands in front of its digits.  Zero with no digits is empty. -/
def integer (s : Style) (base : Nat) (upper : Bool) (lead : Text) (n : Int) : Text :=
  if s.precision = some 0 ∧ n = 0 then List.replicate (s.width.getD 0) Text.space
  else
    let t := zeroed (s.leastDigits (n < 0)) (digits base upper n.natAbs)
    let t := (if s.sharp then baseLead base upper t else []) ++ t
    s.withoutZeros.pad (s.sign (n < 0) ++ lead ++ t)

/-- The character with a code; the replacement character if there is none. -/
def characterOf (n : Int) : Char :=
  if 0 ≤ n ∧ isScalar n.toNat then Char.ofNat n.toNat else replacement

def character (s : Style) (n : Int) : Text := s.pad (charBytes (characterOf n))

def quotedCharacter (s : Style) (n : Int) : Text :=
  s.pad (if s.plus then Text.quotedCharPlainly (characterOf n) else Text.quotedChar (characterOf n))

/-- The number of a character, at least four digits; the alternate form shows it too.  A negative
number counts as its 64 bits. -/
def codePoint (s : Style) (n : Int) : Text :=
  let code := (n % 18446744073709551616).toNat
  let shown :=
    if s.sharp && isPrintable code then Text.ofString " '" ++ codeBytes code ++ Text.ofString "'"
    else []
  s.withoutZeros.pad
    (Text.ofString "U+" ++ zeroed (max 4 (s.precision.getD 0)) (digits 16 true code) ++ shown)

end Style

end LineForth.Format
