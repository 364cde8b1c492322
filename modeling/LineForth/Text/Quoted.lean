import LineForth.Text.Printable

/-!
# Quoted text

A text between double quotes, on one line and in printable characters: the usual letters after a
backslash for the common controls, hexadecimal codes for other characters that do not print, and
`\x` with two digits for a byte that is no part of a character.
-/

namespace LineForth

def hexDigit (n : Nat) : UInt8 := if n < 10 then (0x30 + n).toUInt8 else (0x57 + n).toUInt8

/-- The last `width` hexadecimal digits of `n`. -/
def hexDigits : Nat → Nat → Text
  | 0, _ => []
  | width + 1, n => hexDigits width (n / 16) ++ [hexDigit (n % 16)]

/-- The letter that follows the backslash for a control with a short form. -/
def controlLetter? : Nat → Option Char
  | 0x07 => some 'a'
  | 0x08 => some 'b'
  | 0x0C => some 'f'
  | 0x0A => some 'n'
  | 0x0D => some 'r'
  | 0x09 => some 't'
  | 0x0B => some 'v'
  | _ => none

def escapeCode (n : Nat) : Text :=
  if n < 0x80 then Text.ofString "\\x" ++ hexDigits 2 n
  else if n < 0x10000 then Text.ofString "\\u" ++ hexDigits 4 n
  else Text.ofString "\\U" ++ hexDigits 8 n

/-- A glyph as it stands between quotes of the kind `mark`; `shown` says which codes stand for
themselves. -/
def Glyph.quoted (shown : Nat → Bool) (mark : Char) : Glyph → Text
  | .stray b => Text.ofString "\\x" ++ hexDigits 2 b.toNat
  | .char c =>
    if c = mark ∨ c = '\\' then charBytes '\\' ++ charBytes c
    else if shown c.toNat then charBytes c
    else match controlLetter? c.toNat with
      | some l => charBytes '\\' ++ charBytes l
      | none => escapeCode c.toNat

/-- The printable codes that need no more than a byte. -/
def isPlain (n : Nat) : Bool := n < 0x80 && isPrintable n

/-- Whether a glyph can stand between backquotes, where nothing is escaped. -/
def Glyph.fitsBackquotes : Glyph → Bool
  | .stray _ => false
  | .char c =>
    c.toNat ≠ 0xFEFF && c.toNat ≠ 0x60 && c.toNat ≠ 0x7F && (0x20 ≤ c.toNat || c.toNat = 0x09)

namespace Text

def quotedBy (shown : Nat → Bool) (mark : Char) (gs : List Glyph) : Text :=
  charBytes mark ++ gs.flatMap (Glyph.quoted shown mark) ++ charBytes mark

def quoted (t : Text) : Text := quotedBy isPrintable '"' (glyphs t)

/-- Quoted with escapes for all but plain characters. -/
def quotedPlainly (t : Text) : Text := quotedBy isPlain '"' (glyphs t)

def fitsBackquotes (t : Text) : Bool := (glyphs t).all Glyph.fitsBackquotes

def backquoted (t : Text) : Text := 0x60 :: t ++ [0x60]

/-- A single character between single quotes. -/
def quotedChar (c : Char) : Text := quotedBy isPrintable '\'' [.char c]

def quotedCharPlainly (c : Char) : Text := quotedBy isPlain '\'' [.char c]

end Text

end LineForth
