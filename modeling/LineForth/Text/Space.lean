import LineForth.Text

/-!
# White space

The characters that separate words: the Unicode property `White_Space`.  A byte that is no part of
a character is never white space.
-/

namespace LineForth

def isSpaceCode (n : Nat) : Bool :=
  (0x09 ≤ n && n ≤ 0x0D) || n == 0x20 || n == 0x85 || n == 0xA0 || n == 0x1680 ||
  (0x2000 ≤ n && n ≤ 0x200A) || n == 0x2028 || n == 0x2029 || n == 0x202F || n == 0x205F ||
  n == 0x3000

def Glyph.isSpace : Glyph → Bool
  | .char c => isSpaceCode c.toNat
  | .stray _ => false

namespace Text

def isBlank (t : Text) : Bool := (glyphs t).all Glyph.isSpace

/-- The maximal runs without white space. -/
def fields (t : Text) : List Text :=
  let step := fun (acc : List Text × List Glyph) g =>
    if g.isSpace then (if acc.2.isEmpty then acc else (bytes acc.2.reverse :: acc.1, []))
    else (acc.1, g :: acc.2)
  let acc := (glyphs t).foldl step ([], [])
  (if acc.2.isEmpty then acc.1 else bytes acc.2.reverse :: acc.1).reverse

end Text

end LineForth
