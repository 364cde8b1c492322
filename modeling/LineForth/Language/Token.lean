import LineForth.Language.Failure
import LineForth.Text.Space

/-!
# Tokens

A line is read from the left as glyphs.  White space and comments, `( ` to the next `)`, stand
between tokens (`Token.skip`).  A token is the text after `." ` up to the next double quote, or a
run without white space.  `Token.next` gives the next token and what follows it, `Token.scan` all
of them.
-/

namespace LineForth

structure Token where
  text : Text
  quoted : Bool
deriving DecidableEq

namespace Token

def word (t : Text) : Token := ⟨t, false⟩
def string (t : Text) : Token := ⟨t, true⟩

/-- Passes over white space and comments; `inside` says that a comment is open. -/
def skip : Bool → List Glyph → List Glyph
  | _, [] => []
  | true, g :: gs => skip (g ≠ .char ')') gs
  | false, g :: gs =>
    if g.isSpace then skip false gs
    else if g = .char '(' ∧ gs.head? = some (.char ' ') then skip true gs
    else g :: gs

/-- What follows `." `, if the glyphs start with it. -/
def literal? : List Glyph → Option (List Glyph)
  | a :: b :: c :: gs => if a = .char '.' ∧ b = .char '"' ∧ c = .char ' ' then some gs else none
  | _ => none

/-- A token has text, or the input has ended. -/
def make (gs : List Glyph) (quoted : Bool) : Except Failure Token :=
  if gs.isEmpty then .error .endOfInput else .ok ⟨Text.bytes gs, quoted⟩

def next (line : List Glyph) : Except Failure Token × List Glyph :=
  let gs := skip false line
  match literal? gs with
  | some body =>
    (make (body.takeWhile (· ≠ .char '"')) true, (body.dropWhile (· ≠ .char '"')).drop 1)
  | none => (make (gs.takeWhile (!·.isSpace)) false, gs.dropWhile (!·.isSpace))

def hasMore (line : List Glyph) : Bool := line.any (!·.isSpace)

/-- The tokens of a line, and the failure that ended them if they did not end with the line. -/
structure Scan where
  tokens : List Token
  failure : Option Failure
deriving DecidableEq

/-- Scans with `acc` the tokens so far, last one first. -/
def scanOnto (acc : List Token) : Nat → List Glyph → Scan
  | 0, _ => ⟨acc.reverse, none⟩
  | fuel + 1, line =>
    if hasMore line then
      match next line with
      | (.ok t, rest) => scanOnto (t :: acc) fuel rest
      | (.error f, _) => ⟨acc.reverse, some f⟩
    else ⟨acc.reverse, none⟩

/-- Every token takes at least one glyph, so the length of the line bounds their number. -/
def scan (line : List Glyph) : Scan := scanOnto [] line.length line

/-- A line opens a definition if its first character is a colon. -/
def opensDefinition (line : List Glyph) : Bool :=
  (line.dropWhile Glyph.isSpace).head? = some (.char ':')

/-- A line closes a definition if its last character is a semicolon. -/
def closesDefinition (line : List Glyph) : Bool :=
  (line.reverse.dropWhile Glyph.isSpace).head? = some (.char ';')

end Token

end LineForth
