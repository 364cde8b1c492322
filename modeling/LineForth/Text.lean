/-!
# Text

A text is a list of bytes, and need not be well-formed UTF-8.  Read as characters it is a list of
glyphs: a glyph is a character, or a byte that is no part of one (`Glyph.stray`).  Reading is from
the left; a byte sequence counts as a character when it is the shortest form of a Unicode scalar
value, and any other byte stands alone.  `Text.bytes` writes glyphs back.
-/

namespace LineForth

abbrev Text := List UInt8

/-- One unit of a text: a character, or a byte that belongs to none. -/
inductive Glyph
  | char (c : Char)
  | stray (b : UInt8)
deriving DecidableEq

/-- The UTF-8 form of a code below `0x110000`. -/
def codeBytes (n : Nat) : Text :=
  if n < 0x80 then [n.toUInt8]
  else if n < 0x800 then [(0xC0 + n / 64).toUInt8, (0x80 + n % 64).toUInt8]
  else if n < 0x10000 then
    [(0xE0 + n / 4096).toUInt8, (0x80 + n / 64 % 64).toUInt8, (0x80 + n % 64).toUInt8]
  else
    [(0xF0 + n / 262144).toUInt8, (0x80 + n / 4096 % 64).toUInt8, (0x80 + n / 64 % 64).toUInt8,
      (0x80 + n % 64).toUInt8]

def charBytes (c : Char) : Text := codeBytes c.toNat

def Glyph.bytes : Glyph → Text
  | .char c => charBytes c
  | .stray b => [b]

/-- What stands for a byte that is no part of a character where characters are required. -/
def replacement : Char := Char.ofNat 0xFFFD

/-- A scalar value is a code that is not a surrogate. -/
def isScalar (n : Nat) : Bool := n < 0xD800 || (0xE000 ≤ n && n < 0x110000)

namespace Text

def ofString (s : String) : Text := s.toList.flatMap charBytes

def bytes (gs : List Glyph) : Text := gs.flatMap Glyph.bytes

/-- Appends the low six bits of each byte to `v`, if every byte is a continuation byte. -/
def gather : Nat → Text → Option Nat
  | v, [] => some v
  | v, b :: bs =>
    if 0x80 ≤ b.toNat ∧ b.toNat < 0xC0 then gather (v * 64 + (b.toNat - 0x80)) bs else none

/-- The glyph of lead byte `b` with `width` further bytes, whose bits start with `high` and whose
value is at least `least`; with it, how many bytes after `b` it takes. -/
def sequence (b : UInt8) (rest : Text) (width high least : Nat) : Glyph × Nat :=
  let tail := rest.take width
  match gather high tail with
  | some v =>
    if tail.length = width ∧ least ≤ v ∧ isScalar v then (.char (Char.ofNat v), width)
    else (.stray b, 0)
  | none => (.stray b, 0)

/-- The first glyph of `b :: rest`, and how many bytes of `rest` belong to it. -/
def first (b : UInt8) (rest : Text) : Glyph × Nat :=
  let n := b.toNat
  if n < 0x80 then (.char (Char.ofNat n), 0)
  else if n < 0xC0 then (.stray b, 0)
  else if n < 0xE0 then sequence b rest 1 (n - 0xC0) 0x80
  else if n < 0xF0 then sequence b rest 2 (n - 0xE0) 0x800
  else sequence b rest 3 (n - 0xF0) 0x10000

/-- Reads glyphs onto `acc`, last one first, after passing over `skip` bytes. -/
def glyphsOnto (acc : List Glyph) : Nat → Text → List Glyph
  | _, [] => acc
  | skip + 1, _ :: rest => glyphsOnto acc skip rest
  | 0, b :: rest => glyphsOnto ((first b rest).1 :: acc) (first b rest).2 rest

def glyphs (t : Text) : List Glyph := (glyphsOnto [] 0 t).reverse

/-- A text is well formed when no byte of it stands alone. -/
def isWellFormed (t : Text) : Bool :=
  (glyphs t).all fun
    | .char _ => true
    | .stray _ => false

def space : UInt8 := 0x20
def newline : UInt8 := 0x0A

/-- Puts `sep` between the texts. -/
def join (sep : Text) : List Text → Text
  | [] => []
  | t :: ts => t ++ (ts.flatMap fun u => sep ++ u)

/-- The pieces between the occurrences of `sep`; there is always at least one. -/
def splitOn (sep : UInt8) (t : Text) : List Text :=
  let step := fun (acc : List Text × Text) b =>
    if b = sep then (acc.2.reverse :: acc.1, []) else (acc.1, b :: acc.2)
  let acc := t.foldl step ([], [])
  (acc.2.reverse :: acc.1).reverse

/-- `t` after `lead`, if it starts with it. -/
def after? : Text → Text → Option Text
  | [], t => some t
  | _ :: _, [] => none
  | a :: lead, b :: t => if a = b then after? lead t else none

/-- Puts spaces in front until the text is `width` bytes long. -/
def padLeft (width : Nat) (t : Text) : Text := List.replicate (width - t.length) space ++ t

end Text

end LineForth
