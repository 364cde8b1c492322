import Mathlib.Data.List.Forall2
import LineForth.Language.Interpreter
import LineForth.Proofs.Letters

/-!
# Lines in another spelling

A line is respelled by putting other words in the places of some of its words, each with the same
folded form (`Token.Respelled`).  Comments and quoted texts stay.  Both lines are read in step: each
call reads the same token of both, up to its spelling, or none of either, and what is left is a line
and its respelling again (`Respelled.inStep`).

A respelled word ends where it is followed by what followed the word before, and starts neither a
quoted text nor a comment, because white space and the characters that matter are kept by folding.
A byte that is no part of a character folds to the replacement character, and a word may end in one;
what follows is read apart from it all the same.
-/

namespace LineForth

section Folding

theorem fold_append {t u : Text} (h : Text.glyphs (t ++ u) = Text.glyphs t ++ Text.glyphs u) :
    Text.fold (t ++ u) = Text.fold t ++ Text.fold u := by
  rw [Text.fold, h, List.map_append, Text.bytes_append]
  rfl

theorem fold_eq_nil {t : Text} (h : Text.fold t = []) : t = [] := fold_plain rfl h

end Folding

namespace Token

/-- The second line is the first one with some of its words in another spelling. -/
inductive Respelled : Text → Text → Prop
  | same (line : Text) : Respelled line line
  | word {front w w' rest rest' : Text} : Reads (front ++ (w ++ rest)) (.ok (word w)) rest →
      Text.fold w' = Text.fold w → Respelled rest rest' →
      Respelled (front ++ (w ++ rest)) (front ++ (w' ++ rest'))
  /-- What is read is a quoted text, or makes no token. -/
  | other {front rest rest' : Text} {r : Except Failure Token} : Reads (front ++ rest) r rest →
      (∀ w, r ≠ .ok (word w)) → Respelled rest rest' → Respelled (front ++ rest) (front ++ rest')

/-- The same token, but for the spelling of a word. -/
inductive Same : Token → Token → Prop
  | word {w w' : Text} : Text.fold w' = Text.fold w → Same (word w) (word w')
  | string (t : Text) : Same (string t) (string t)

theorem Same.refl : ∀ t : Token, Same t t
  | ⟨_, false⟩ => .word rfl
  | ⟨_, true⟩ => .string _

section Parts

variable {filler front t w w' rest rest' : Text}

/-- Filler that something follows can stand in front of anything. -/
theorem Filler.before (h : Filler filler t) (ht : t ≠ []) (u : Text) : Filler filler u := by
  induction h with
  | nothing => exact .nothing
  | space hc _ ih => exact .space hc (ih ht)
  | comment hbody _ ih => exact .comment hbody (ih ht)
  | unended => exact absurd rfl ht

theorem Filler.glyphs (h : Filler filler t) (ht : t ≠ []) (u : Text) :
    Text.glyphs (filler ++ u) = Text.glyphs filler ++ Text.glyphs u := by
  induction h with
  | nothing => rfl
  | space _ _ ih =>
    rw [List.append_assoc, Text.glyphs_char, Text.glyphs_char, ih ht, List.cons_append]
  | comment _ _ ih =>
    have hclosing : closing.toNat < 0x80 := by decide
    simp only [List.append_assoc, List.cons_append, glyphs_commentStart, Text.glyphs_ascii hclosing,
      ih ht]
  | unended => exact absurd rfl ht

/-- What stands before a word is filler. -/
theorem Reads.word_parts (h : Reads (front ++ (w ++ rest)) (.ok (Token.word w)) rest) :
    Filler front (w ++ rest) ∧ w ≠ [] ∧ (∀ g ∈ Text.glyphs w, g.isSpace = false) ∧ EndsWord rest
      ∧ ¬ literalStart <+: w ++ rest ∧ ¬ commentStart <+: w ++ rest := by
  obtain ⟨filler, t, hline, hfiller, hlexeme⟩ := h
  generalize hr : Except.ok (Token.word w) = r at hlexeme
  cases hlexeme with
  | nothing | quotedNothing | unendedNothing => cases hr
  | quoted | unended => simp [Token.word, Token.string] at hr
  | @word w₁ _ hne hspace hends hliteral hcomment =>
    obtain rfl : w = w₁ := congrArg Token.text (Except.ok.inj hr)
    rw [List.append_cancel_right hline]
    exact ⟨hfiller, hne, hspace, hends, hliteral, hcomment⟩

/-- A call that reads no word takes all that there is, or ends behind a quote.  In that case it
reads the same whatever follows. -/
theorem Reads.other_parts {r : Except Failure Token} (h : Reads (front ++ rest) r rest)
    (hr : ∀ w, r ≠ .ok (Token.word w)) :
    rest = [] ∨ (∃ start, front = start ++ [quote]) ∧ ∀ rest', Reads (front ++ rest') r rest' := by
  obtain ⟨filler, t, hline, hfiller, hlexeme⟩ := h
  have hstart : ∀ u, literalStart ++ u ≠ [] := List.append_ne_nil_of_left_ne_nil (by decide)
  cases hlexeme with
  | nothing | unended | unendedNothing => exact .inl rfl
  | word => exact absurd rfl (hr _)
  | @quoted body _ hne hquote =>
    obtain rfl : front = filler ++ (literalStart ++ body) ++ [quote] :=
      List.append_cancel_right (by simpa using hline)
    refine .inr ⟨⟨_, rfl⟩, fun rest' => ⟨filler, literalStart ++ (body ++ quote :: rest'), ?_,
      hfiller.before (hstart _) _, .quoted hne hquote⟩⟩
    simp
  | quotedNothing =>
    obtain rfl : front = filler ++ literalStart ++ [quote] :=
      List.append_cancel_right (by simpa using hline)
    refine .inr ⟨⟨_, rfl⟩, fun rest' => ⟨filler, literalStart ++ quote :: rest', ?_,
      hfiller.before (hstart _) _, .quotedNothing⟩⟩
    simp

theorem EndsWord.congr (h : EndsWord rest) (hf : Text.fold rest' = Text.fold rest) :
    EndsWord rest' := by
  intro g hg
  have hhead := congrArg List.head? (fold_eq_iff.1 hf)
  rw [List.head?_map, List.head?_map, hg, Option.map_some] at hhead
  obtain ⟨g₀, hg₀, hlower⟩ := Option.map_eq_some_iff.1 hhead.symm
  rw [isSpace_congr hlower.symm]
  exact h g₀ hg₀

theorem fold_word (hends : EndsWord rest) (hw : Text.fold w' = Text.fold w)
    (hf : Text.fold rest' = Text.fold rest) : Text.fold (w' ++ rest') = Text.fold (w ++ rest) := by
  rw [fold_append (Text.glyphs_append_space hends w),
    fold_append (Text.glyphs_append_space (hends.congr hf) w'), hw, hf]

/-- A word in another spelling is read as a word. -/
theorem Reads.respell (h : Reads (front ++ (w ++ rest)) (.ok (Token.word w)) rest)
    (hw : Text.fold w' = Text.fold w) (hf : Text.fold rest' = Text.fold rest) :
    Reads (front ++ (w' ++ rest')) (.ok (Token.word w')) rest' := by
  obtain ⟨hfiller, hne, hspace, hends, hliteral, hcomment⟩ := h.word_parts
  have hfold := fold_word hends hw hf
  have hplain : ∀ p : Text, p.isPlain → ¬ p <+: w ++ rest → ¬ p <+: w' ++ rest' := by
    rintro p hp hno ⟨u, hu⟩
    rw [← hu] at hfold
    obtain ⟨u', hu', -⟩ := starts_plain hp hfold.symm
    exact hno ⟨u', hu'.symm⟩
  refine ⟨front, _, rfl, hfiller.before (by simp [hne]) _, .word ?_ ?_ (hends.congr hf)
    (hplain _ (by decide) hliteral) (hplain _ (by decide) hcomment)⟩
  · rintro rfl
    exact hne (fold_eq_nil hw.symm)
  · intro g hg
    have hmem := List.mem_map_of_mem (f := Glyph.lower) hg
    rw [fold_eq_iff.1 hw] at hmem
    obtain ⟨g₀, hg₀, hlower⟩ := List.mem_map.1 hmem
    rw [isSpace_congr hlower.symm]
    exact hspace g₀ hg₀

end Parts

section Steps

variable {line line' : Text}

/-- A line and its respelling have the same folded form.  They can be cut behind every token that
they share, which takes the whole line or ends in a quote. -/
theorem Respelled.fold (h : Respelled line line') : Text.fold line' = Text.fold line := by
  induction h with
  | same => rfl
  | word hreads hw _ ih =>
    obtain ⟨hfiller, hne, -, hends, -⟩ := hreads.word_parts
    have hread := hfiller.glyphs (by simp [hne])
    rw [fold_append (hread _), fold_append (hread _), fold_word hends hw ih]
  | @other front rest rest' r hreads hr _ ih =>
    rcases hreads.other_parts hr with rfl | ⟨⟨start, rfl⟩, -⟩
    · rw [fold_eq_nil ih]
    · have hread : ∀ u, Text.glyphs (start ++ [quote] ++ u)
          = Text.glyphs (start ++ [quote]) ++ Text.glyphs u := fun u => by
        rw [List.append_assoc, List.singleton_append, Text.glyphs_ascii (by decide),
          Text.glyphs_ascii (by decide), List.append_assoc]
        rfl
      rw [fold_append (hread _), fold_append (hread _), ih]

/-- A call reads the same token of both lines, up to its spelling, or none of either; what is left
is a line and its respelling. -/
inductive InStep (line line' : Text) : Prop
  | failed {f : Failure} {rest rest' : Text} :
      next (Text.glyphs line) = (.error f, Text.glyphs rest) →
      next (Text.glyphs line') = (.error f, Text.glyphs rest') → Respelled rest rest' →
      InStep line line'
  | token {t t' : Token} {rest rest' : Text} :
      next (Text.glyphs line) = (.ok t, Text.glyphs rest) →
      next (Text.glyphs line') = (.ok t', Text.glyphs rest') → Same t t' → Respelled rest rest' →
      InStep line line'

theorem InStep.of_reads {r : Except Failure Token} {rest rest' : Text} (h : Reads line r rest)
    (h' : Reads line' r rest') (hrest : Respelled rest rest') : InStep line line' := by
  cases r with
  | error f => exact .failed h.next h'.next hrest
  | ok t => exact .token h.next h'.next (.refl t) hrest

theorem Respelled.inStep (h : Respelled line line') : InStep line line' := by
  cases h with
  | same => exact .of_reads (reads_next line) (reads_next line) (.same _)
  | word hreads hw hrest =>
    exact .token hreads.next (hreads.respell hw hrest.fold).next (.word hw) hrest
  | @other front rest rest' r hreads hr hrest =>
    rcases hreads.other_parts hr with rfl | ⟨-, hany⟩
    · obtain rfl : rest' = [] := fold_eq_nil hrest.fold
      exact .of_reads hreads hreads hrest
    · exact .of_reads hreads (hany rest') hrest

end Steps

section Lines

theorem hasMore_lower (gs : List Glyph) : hasMore (gs.map Glyph.lower) = hasMore gs := by
  simp [hasMore, List.any_map, Function.comp_def, lower_isSpace]

theorem head_lower {c : Char} (hc : c.toNat < 0x41) (hl : Glyph.lower (.char c) = .char c)
    (gs : List Glyph) :
    (gs.map Glyph.lower).head? = some (.char c) ↔ gs.head? = some (.char c) := by
  rw [List.head?_map, Option.map_eq_some_iff]
  refine ⟨fun ⟨g, hg, hlower⟩ => ?_, fun h => ⟨_, h, hl⟩⟩
  rw [hg, lower_eq_plain hc hlower]

theorem dropWhile_lower (gs : List Glyph) :
    (gs.map Glyph.lower).dropWhile Glyph.isSpace
      = (gs.dropWhile Glyph.isSpace).map Glyph.lower := by
  rw [List.dropWhile_map]
  simp only [Function.comp_def, lower_isSpace]

theorem opensDefinition_lower (gs : List Glyph) :
    opensDefinition (gs.map Glyph.lower) = opensDefinition gs := by
  unfold opensDefinition
  rw [dropWhile_lower, decide_eq_decide, head_lower (by decide) (by decide)]

theorem closesDefinition_lower (gs : List Glyph) :
    closesDefinition (gs.map Glyph.lower) = closesDefinition gs := by
  unfold closesDefinition
  rw [← List.map_reverse, dropWhile_lower, decide_eq_decide, head_lower (by decide) (by decide)]

variable {line line' : Text} (h : Respelled line line')

include h

theorem Respelled.hasMore :
    Token.hasMore (Text.glyphs line') = Token.hasMore (Text.glyphs line) := by
  rw [← hasMore_lower, fold_eq_iff.1 h.fold, hasMore_lower]

theorem Respelled.opens :
    opensDefinition (Text.glyphs line') = opensDefinition (Text.glyphs line) := by
  rw [← opensDefinition_lower, fold_eq_iff.1 h.fold, opensDefinition_lower]

theorem Respelled.closes :
    closesDefinition (Text.glyphs line') = closesDefinition (Text.glyphs line) := by
  rw [← closesDefinition_lower, fold_eq_iff.1 h.fold, closesDefinition_lower]

omit h in
/-- The loop over the tokens of a line, in step with that over those of its respelling. -/
theorem scans_inStep {gs : List Glyph} {s : Scan} (hs : Scans gs s) : ∀ {line line' : Text},
    gs = Text.glyphs line → Respelled line line' →
      List.Forall₂ Same s.tokens (Token.scan (Text.glyphs line')).tokens
        ∧ (Token.scan (Text.glyphs line')).failure = s.failure := by
  induction hs with
  | ended hm =>
    rintro line line' rfl h
    rw [scan_eq, if_neg (by simp [h.hasMore, hm])]
    exact ⟨.nil, rfl⟩
  | failed hm hn =>
    rintro line line' rfl h
    cases h.inStep with
    | failed hn₁ hn' =>
      rw [hn] at hn₁
      cases hn₁
      rw [scan_eq, if_pos (by rw [h.hasMore, hm]), hn']
      exact ⟨.nil, rfl⟩
    | token hn₁ =>
      rw [hn] at hn₁
      cases hn₁
  | token hm hn _ ih =>
    rintro line line' rfl h
    cases h.inStep with
    | failed hn₁ =>
      rw [hn] at hn₁
      cases hn₁
    | token hn₁ hn' hsame hrest =>
      rw [hn] at hn₁
      cases hn₁
      obtain ⟨htokens, hfailure⟩ := ih rfl hrest
      rw [scan_token hn']
      exact ⟨.cons hsame htokens, hfailure⟩

/-- The tokens of a line and of its respelling are the same, up to their spelling. -/
theorem Respelled.scan :
    List.Forall₂ Same (Token.scan (Text.glyphs line)).tokens (Token.scan (Text.glyphs line')).tokens
      ∧ (Token.scan (Text.glyphs line')).failure = (Token.scan (Text.glyphs line)).failure :=
  scans_inStep (scans_scan _) rfl h

end Lines

section Headings

open Interpreter

/-- The opening lines of a definition and of the same under another spelling. -/
inductive Headings (line line' : Text) : Prop
  | failed {f : Failure} : heading (Text.glyphs line) = .error f →
      heading (Text.glyphs line') = .error f → Headings line line'
  | named {name name' body body' : Text} :
      heading (Text.glyphs line) = .ok (name, Text.glyphs body) →
      heading (Text.glyphs line') = .ok (name', Text.glyphs body') →
      Text.fold name' = Text.fold name → Respelled body body' → Headings line line'

theorem Same.fold {t t' : Token} (h : Same t t') : Text.fold t'.text = Text.fold t.text := by
  cases h with
  | word hw => exact hw
  | string => rfl

theorem Respelled.headings {line line' : Text} (h : Respelled line line') :
    Headings line line' := by
  cases h.inStep with
  | failed hn hn' => exact .failed (by rw [heading, hn]) (by rw [heading, hn'])
  | token hn hn' _ hrest =>
    cases hrest.inStep with
    | @failed f _ _ hm hm' =>
      have hfirst : heading (Text.glyphs line) = .error f := by simp only [heading, hn, hm]
      have hsecond : heading (Text.glyphs line') = .error f := by simp only [heading, hn', hm']
      exact .failed hfirst hsecond
    | token hm hm' hsame hbody =>
      refine .named ?_ ?_ hsame.fold hbody
      · simp only [heading, hn, hm]
      · simp only [heading, hn', hm']

end Headings

end Token

end LineForth
