import LineForth.Proofs.Grammar
import LineForth.Proofs.Listing

/-!
# What folding keeps

Two texts with the same folded form differ in their letters only.  White space stays white space,
and what is not stays so (`lower_isSpace`).  A character below the letters, such as a digit, a
quote, a colon or a semicolon, comes from itself alone (`lower_eq_plain`), so a text made of such
characters has one spelling (`fold_plain`).  A number is such a text (`ofText?_congr`).
-/

namespace LineForth

section Codes

/-- The codes of white space. -/
def spaceCodes : List Nat :=
  [0x09, 0x0A, 0x0B, 0x0C, 0x0D, 0x20, 0x85, 0xA0, 0x1680, 0x2000, 0x2001, 0x2002, 0x2003, 0x2004,
    0x2005, 0x2006, 0x2007, 0x2008, 0x2009, 0x200A, 0x2028, 0x2029, 0x202F, 0x205F, 0x3000]

theorem isSpaceCode_iff {n : Nat} : isSpaceCode n ↔ n ∈ spaceCodes := by
  simp only [isSpaceCode, spaceCodes, Bool.or_eq_true, Bool.and_eq_true, decide_eq_true_eq,
    beq_iff_eq, List.mem_cons, List.not_mem_nil, or_false]
  omega

/-- A range moves no code from white space, and none to it. -/
def CaseRange.sparesSpace (r : CaseRange) : Bool :=
  spaceCodes.all fun s => !r.covers s && !r.covers ((s : Int) - r.shift).toNat

theorem lowerRanges_space : (lowerRanges.all CaseRange.sparesSpace) = true := by decide +kernel

theorem lowerRanges_letters : (lowerRanges.all fun r => Nat.ble 0x41 r.lowest) = true := by
  decide +kernel

theorem isSpaceCode_lowerCode (n : Nat) : isSpaceCode (lowerCode n) = isSpaceCode n := by
  rcases lowerCode_cases n with h | ⟨r, hmem, hcovers, hscalar, h⟩
  · rw [h]
  · have hspares := List.all_eq_true.1 lowerRanges_space r hmem
    simp only [CaseRange.sparesSpace, List.all_eq_true, Bool.and_eq_true,
      Bool.not_eq_true'] at hspares
    have hfrom : isSpaceCode n = false := by
      refine Bool.eq_false_iff.2 fun hn => ?_
      rw [(hspares n (isSpaceCode_iff.1 hn)).1] at hcovers
      cases hcovers
    have hto : isSpaceCode (lowerCode n) = false := by
      refine Bool.eq_false_iff.2 fun hn => ?_
      have hback := (hspares _ (isSpaceCode_iff.1 hn)).2
      have hrange := CaseRange.covers_iff.1 hcovers
      simp only [CaseRange.scalar, Bool.and_eq_true, decide_eq_true_eq] at hscalar
      rw [h, show ((((n : Int) + r.shift).toNat : Int) - r.shift).toNat = n by omega,
        hcovers] at hback
      cases hback
    rw [hfrom, hto]

theorem lowerCode_low {n : Nat} (h : lowerCode n < 0x41) : lowerCode n = n := by
  rcases lowerCode_cases n with heq | ⟨r, hmem, hcovers, -, heq⟩
  · exact heq
  · have hletters := List.all_eq_true.1 lowerRanges_letters r hmem
    have hrange := CaseRange.covers_iff.1 hcovers
    rw [Nat.ble_eq, CaseRange.lowest] at hletters
    omega

end Codes

section Glyphs

theorem lower_isSpace (g : Glyph) : g.lower.isSpace = g.isSpace := by
  cases g with
  | char c =>
    have hcode := Text.toNat_ofNat (isScalar_lowerCode (Text.isScalar_toNat c))
    simp only [Glyph.lower, Glyph.isSpace, hcode, isSpaceCode_lowerCode]
  | stray b => exact (by decide : Glyph.isSpace (.char replacement) = false)

theorem isSpace_congr {g g' : Glyph} (h : g'.lower = g.lower) : g'.isSpace = g.isSpace := by
  rw [← lower_isSpace, h, lower_isSpace]

/-- A character below the letters is the lower case of itself alone. -/
theorem lower_eq_plain {g : Glyph} {c : Char} (hc : c.toNat < 0x41) (h : g.lower = .char c) :
    g = .char c := by
  cases g with
  | char c' =>
    have hcode := Text.toNat_ofNat (isScalar_lowerCode (Text.isScalar_toNat c'))
    have heq : Char.ofNat (lowerCode c'.toNat) = c := Glyph.char.inj h
    rw [heq] at hcode
    have hsame := lowerCode_low (n := c'.toNat) (by omega)
    rw [hsame, Char.ofNat_toNat] at heq
    rw [heq]
  | stray b =>
    have heq : replacement = c := Glyph.char.inj h
    rw [← heq] at hc
    exact absurd hc (by decide)

end Glyphs

/-- Made of characters below the letters. -/
def Text.isPlain (t : Text) : Bool := t.all fun b => b.toNat < 0x41

section Texts

variable {t t' : Text}

theorem isPlain_iff : t.isPlain ↔ ∀ b ∈ t, b.toNat < 0x41 := by simp [Text.isPlain]

theorem fold_eq_iff : Text.fold t' = Text.fold t ↔
    (Text.glyphs t').map Glyph.lower = (Text.glyphs t).map Glyph.lower := by
  refine ⟨fun h => ?_, fun h => by rw [Text.fold, h, Text.fold]⟩
  rw [← Text.glyphs_fold, h, Text.glyphs_fold]

/-- What starts with characters below the letters does so in any spelling. -/
theorem starts_plain : ∀ {p t t' : Text}, p.isPlain → Text.fold t' = Text.fold (p ++ t) →
    ∃ u, t' = p ++ u ∧ Text.fold u = Text.fold t
  | [], t, t', _, h => ⟨t', rfl, h⟩
  | b :: p, t, t', hp, h => by
    obtain ⟨hb, hp⟩ : b.toNat < 0x41 ∧ Text.isPlain p := by simpa [Text.isPlain] using hp
    have hc : (Char.ofNat b.toNat).toNat < 0x41 := by
      rwa [Text.toNat_ofNat (Text.isScalar_of_lt (by omega))]
    rw [List.cons_append, Text.fold_cons hb] at h
    have hread := congrArg Text.glyphs h
    rw [Text.glyphs_fold, Text.glyphs_cons (by omega), Text.glyphs_fold] at hread
    obtain ⟨g, gs, hgs, hg, hrest⟩ := List.map_eq_cons_iff.1 hread
    obtain rfl := lower_eq_plain hc hg
    have hglyphs := (Token.read_cons hgs).2
    have ht' : t' = b :: Text.bytes gs := by
      rw [← Text.bytes_glyphs t', hgs, ← Text.bytes_glyphs (b :: Text.bytes gs),
        Text.glyphs_cons (by omega), hglyphs]
    rw [← hglyphs] at hrest
    obtain ⟨u, hu, hfold⟩ := starts_plain hp (fold_eq_iff.2 hrest)
    exact ⟨u, by rw [ht', hu, List.cons_append], hfold⟩

/-- A text of characters below the letters has one spelling. -/
theorem fold_plain (hp : t.isPlain) (h : Text.fold t' = Text.fold t) : t' = t := by
  rw [← List.append_nil t] at h
  obtain ⟨u, rfl, hu⟩ := starts_plain hp h
  have hnil : Text.glyphs u = [] := List.map_eq_nil_iff.1 (fold_eq_iff.1 hu)
  rw [← Text.bytes_glyphs u, hnil]
  exact List.append_nil t

theorem eq_of_number {c : Cell} (h : Text.fold t' = Text.fold t) (ht : Cell.ofText? t = some c) :
    t' = t := by
  refine fold_plain (isPlain_iff.2 fun b hb => ?_) h
  have := (Decimal.toInt?_bytes (Cell.toInt?_of_ofText? ht).1).2 b hb
  omega

theorem ofText?_congr (h : Text.fold t' = Text.fold t) : Cell.ofText? t' = Cell.ofText? t := by
  rcases ht : Cell.ofText? t with _ | c
  · rcases ht' : Cell.ofText? t' with _ | c'
    · rfl
    · rw [eq_of_number h.symm ht', ht'] at ht
      cases ht
  · rw [eq_of_number h ht, ht]

end Texts

end LineForth
