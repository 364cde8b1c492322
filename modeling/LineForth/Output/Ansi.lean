import LineForth.Output.Channel

/-!
# Output for terminals

Text goes out in a form that every terminal reads alike.  A plain character stays as it is, the next
line control becomes a carriage return and a line feed, the other upper controls become an escape and
a letter, and a byte that is no part of a character becomes the replacement character.  A run of
plain characters is written in one go.

What takes the output may have operations of its own for a text, a byte or a character
(`Ansi.Writer`); each piece goes through the one that suits it best.
-/

namespace LineForth.Ansi

/-- The UTF-8 form of the character of a code; a code that is no scalar value gives the replacement
character. -/
def codeText (n : Int) : Text :=
  if 0 ≤ n ∧ isScalar n.toNat then codeBytes n.toNat else charBytes replacement

def control (n : Nat) : Text :=
  if n = 0x85 then [0x0D, 0x0A] else [0x1B, (n ^^^ 0xC0).toUInt8]

/-- The output form of a single glyph. -/
def piece : Glyph → Piece
  | .stray _ => .character (charBytes replacement)
  | .char c =>
    if c.toNat < 0x80 then .run (charBytes c)
    else if c.toNat ≤ 0x9F then .control (control c.toNat)
    else .character (charBytes c)

/-- Puts a run onto `acc`, unless it is empty; `run` has its last byte first. -/
def withRun (acc : List Piece) (run : Text) : List Piece :=
  if run.isEmpty then acc else .run run.reverse :: acc

/-- Collects pieces onto `acc`, last one first, with `run` the plain bytes since the last one, last
one first. -/
def piecesOnto (acc : List Piece) (run : Text) : List Glyph → List Piece
  | [] => withRun acc run
  | g :: gs =>
    match piece g with
    | .run bytes => piecesOnto acc (bytes.reverse ++ run) gs
    | p => piecesOnto (p :: withRun acc run) [] gs

def pieces (t : Text) : List Piece := (piecesOnto [] [] (Text.glyphs t)).reverse

/-- Sends pieces until one meets a problem; `n` bytes have gone before. -/
def sendAll {σ : Type} (send : σ → Piece → σ × Written) : Nat → σ → List Piece → σ × Written
  | n, s, [] => (s, ⟨n, none⟩)
  | n, s, p :: ps =>
    match send s p with
    | (s, ⟨k, none⟩) => sendAll send (n + k) s ps
    | (s, ⟨k, some e⟩) => (s, ⟨n + k, some e⟩)

/-- The ways in which something takes output.  Bytes are always taken; texts, single bytes and
characters may have operations of their own, and that for a byte reports no count. -/
structure Writer (σ : Type) where
  write : σ → Text → σ × Written
  writeText : Option (σ → Text → σ × Written) := none
  writeByte : Option (σ → UInt8 → σ × Option Problem) := none
  writeCharacter : Option (σ → Text → σ × Written) := none

namespace Writer

variable {σ : Type} (w : Writer σ)

/-- Hands over a piece by the most special operation that there is for it. -/
def deliver (s : σ) : Piece → σ × Written
  | .run bytes => w.writeText.getD w.write s bytes
  | .control bytes => w.write s bytes
  | .character bytes => (w.writeCharacter.or w.writeText).getD w.write s bytes

def sendText (s : σ) (t : Text) : σ × Written := sendAll w.deliver 0 s (pieces t)

/-- Sends the character of a code.  A code below `0x80`, negative ones included, goes out as one byte,
its low eight bits. -/
def sendCode (s : σ) (n : Int) : σ × Written :=
  if n < 0x80 then
    let b := (n % 256).toNat.toUInt8
    match w.writeByte with
    | some put => ((put s b).1, ⟨1, (put s b).2⟩)
    | none => w.write s [b]
  else if n ≤ 0x9F then w.deliver s (.control (control n.toNat))
  else w.deliver s (.character (codeText n))

end Writer

/-- What a writer has operations of its own for. -/
structure Abilities where
  texts : Bool
  bytes : Bool
  characters : Bool
deriving DecidableEq

def abilities : SinkKind → Abilities
  | .buffer | .builder => ⟨true, true, true⟩
  | .discard | .string => ⟨true, false, false⟩
  | .plain | .flusher => ⟨false, false, false⟩

/-- A sink to which everything goes as bytes in the end. -/
def sinkWriter (a : Abilities) : Writer Sink where
  write := Sink.write
  writeText := if a.texts then some Sink.write else none
  writeByte := if a.bytes then some fun s b => ((s.write [b]).1, (s.write [b]).2.problem) else none
  writeCharacter := if a.characters then some Sink.write else none

def writeSink (s : Sink) (t : Text) : Sink × Written := (sinkWriter (abilities s.kind)).sendText s t

def writeCode (s : Sink) (n : Int) : Sink × Written := (sinkWriter (abilities s.kind)).sendCode s n

def write (c : Channel) (os : Outlets) (t : Text) : Delivery := sendAll c.deliver 0 os (pieces t)

end LineForth.Ansi
