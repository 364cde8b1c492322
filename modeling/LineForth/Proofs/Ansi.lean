import Mathlib.Data.List.Basic
import LineForth.Output.Ansi
import LineForth.Proofs.Glyphs

/-!
# The output form of a text

`Ansi.form` is the form in which a text goes out, glyph by glyph.  A text is sent in pieces, a run
of plain characters as one of them, but together the pieces are that form (`pieces_bytes`).  A
newline at the end of a text stays a newline at the end (`form_newline`).
-/

namespace LineForth.Ansi

/-- A plain character as it is, the next line control as a carriage return and a line feed, the
other upper controls with an escape, and a stray byte as the replacement character. -/
def glyphForm : Glyph → Text
  | .stray _ => charBytes replacement
  | .char c =>
    if c.toNat = 0x85 then [0x0D, 0x0A]
    else if 0x80 ≤ c.toNat ∧ c.toNat ≤ 0x9F then [0x1B, (c.toNat ^^^ 0xC0).toUInt8]
    else charBytes c

def form (t : Text) : Text := (Text.glyphs t).flatMap glyphForm

theorem piece_bytes (g : Glyph) : (piece g).bytes = glyphForm g := by
  cases g with
  | stray b => rfl
  | char c =>
    simp only [piece, glyphForm, control]
    split_ifs <;> simp [Piece.bytes] <;> omega

theorem withRun_bytes (acc : List Piece) (run : Text) :
    (withRun acc run).reverse.flatMap Piece.bytes
      = acc.reverse.flatMap Piece.bytes ++ run.reverse := by
  unfold withRun
  split_ifs with h
  · simp [List.isEmpty_iff.1 h]
  · simp [Piece.bytes]

theorem piecesOnto_bytes : ∀ (gs : List Glyph) (acc : List Piece) (run : Text),
    (piecesOnto acc run gs).reverse.flatMap Piece.bytes
      = acc.reverse.flatMap Piece.bytes ++ run.reverse ++ gs.flatMap glyphForm
  | [], acc, run => by simp [piecesOnto, withRun_bytes]
  | g :: gs, acc, run => by
    rw [piecesOnto, List.flatMap_cons, ← piece_bytes g]
    split
    · rename_i bytes hp
      rw [piecesOnto_bytes gs, hp]
      simp [Piece.bytes]
    · rw [piecesOnto_bytes gs, List.reverse_cons, List.flatMap_append, withRun_bytes]
      simp

/-- The pieces of a text together are its output form. -/
theorem pieces_bytes (t : Text) : (pieces t).flatMap Piece.bytes = form t := by
  rw [pieces, piecesOnto_bytes]
  simp [form]

theorem form_newline (t : Text) : form (t ++ [Text.newline]) = form t ++ [Text.newline] := by
  have hstop : ¬ IsContinuation Text.newline := by simp [IsContinuation, Text.newline]
  have hone : (Text.glyphs [Text.newline]).flatMap glyphForm = [Text.newline] := by decide
  rw [form, Text.glyphs_append hstop, List.flatMap_append, hone]
  rfl

end LineForth.Ansi
