import LineForth.Proofs.Grammar

/-!
# Tokens laid out with comments

Tokens may be written with any white space and any comments between them.  A gap is white space and
then comments, each with more white space behind it, and a spread is a line of written tokens with a
gap in front of each.  Gaps are filler (`Gap.filler`), and behind a token they start with white
space, which ends the token whatever bytes it has.  So the tokens of a spread are those that were
written.
-/

namespace LineForth.Token

section Definitions

/-- A comment and the white space behind it. -/
structure Comment where
  body : Text
  after : Text
  noClosing : closing ∉ body
  blank : after.isBlank
  apart : after ≠ []

def Comment.text (c : Comment) : Text := commentStart ++ (c.body ++ closing :: c.after)

/-- White space and then comments, in front of a token. -/
structure Gap where
  space : Text
  comments : List Comment
  blank : space.isBlank

def Gap.text (g : Gap) : Text := g.space ++ g.comments.flatMap Comment.text

/-- A line of tokens, no two of which touch. -/
structure Spread where
  placed : List (Gap × Token)
  trail : Text
  apart : ∀ p ∈ placed.tail, p.1.space ≠ []
  blank : trail.isBlank

namespace Spread

def tokens (s : Spread) : List Token := s.placed.map Prod.snd

def text (s : Spread) : Text := (s.placed.flatMap fun p => p.1.text ++ p.2.written) ++ s.trail

end Spread

end Definitions

section Gaps

theorem filler_spaces {rest : Text} : ∀ (gs : List Glyph) (t : Text), (∀ g ∈ gs, g.isSpace) →
    Filler t rest → Filler (Text.bytes gs ++ t) rest
  | [], _, _, ht => ht
  | .stray _ :: _, _, h, _ => by cases h _ List.mem_cons_self
  | .char c :: gs, t, h, ht => by
    have hrest := filler_spaces gs t (fun g hg => h g (List.mem_cons_of_mem _ hg)) ht
    rw [Text.bytes_cons, Glyph.bytes, List.append_assoc]
    exact .space (h _ List.mem_cons_self) hrest

theorem filler_blank {space t rest : Text} (h : space.isBlank) (ht : Filler t rest) :
    Filler (space ++ t) rest := by
  rw [← Text.bytes_glyphs space]
  exact filler_spaces _ t (Text.isBlank_iff.1 h) ht

theorem filler_comments {rest : Text} : ∀ cs : List Comment, Filler (cs.flatMap Comment.text) rest
  | [] => .nothing
  | c :: cs => by
    rw [List.flatMap_cons, Comment.text, List.append_assoc, List.append_assoc, List.cons_append]
    exact .comment c.noClosing (filler_blank c.blank (filler_comments cs))

theorem Gap.filler (g : Gap) (rest : Text) : Filler g.text rest :=
  filler_blank g.blank (filler_comments g.comments)

theorem next_gap (g : Gap) {t : Token} (ht : t.Writable) {rest : Text} (hends : EndsWord rest) :
    next (Text.glyphs (g.text ++ (t.written ++ rest))) = (.ok t, Text.glyphs rest) := by
  rw [next_congr (g.filler _).skip, Text.glyphs_append_space hends, next_written ht hends]

end Gaps

section Spreads

/-- In front of the tokens behind another one there is white space. -/
theorem Spread.ends (s : Spread) (h : ∀ p ∈ s.placed, p.1.space ≠ []) : EndsWord s.text := by
  obtain ⟨placed, trail, hapart, hblank⟩ := s
  rcases placed with _ | ⟨⟨g, t⟩, ps⟩
  · have hends := Text.blank_head hblank (.inr (rfl : ([] : Text) = []))
    rwa [List.append_nil] at hends
  · rw [text, List.flatMap_cons, Gap.text, List.append_assoc, List.append_assoc, List.append_assoc]
    exact Text.blank_head g.blank (.inl (h (g, t) List.mem_cons_self))

/-- The tokens of a line are those it was written from, whatever white space and comments stand
between them and whatever bytes they are made of. -/
theorem scan_spread (s : Spread) (hw : ∀ t ∈ s.tokens, t.Writable) :
    scan (Text.glyphs s.text) = ⟨s.tokens, none⟩ := by
  obtain ⟨placed, trail, hapart, hblank⟩ := s
  induction placed with
  | nil => exact scan_blank hblank
  | cons p ps ih =>
    obtain ⟨g, t⟩ := p
    have htail : ∀ p ∈ ps.tail, p.1.space ≠ [] := fun p hp => hapart p (List.mem_of_mem_tail hp)
    have hends := Spread.ends ⟨ps, trail, htail, hblank⟩ hapart
    have htext : Spread.text ⟨(g, t) :: ps, trail, hapart, hblank⟩
        = g.text ++ (t.written ++ Spread.text ⟨ps, trail, htail, hblank⟩) := by
      simp [Spread.text]
    rw [htext, scan_token (next_gap g (hw t List.mem_cons_self) hends),
      ih htail fun t' ht' => hw t' (List.mem_cons_of_mem _ ht')]
    rfl

/-- Stray bytes that could start a white space character, and comments and quoted texts that look
like each other. -/
theorem scan_spread_strays :
    (∀ t ∈ [word [0x28, 0xE2, 0x80], string [0x83, 0x28, 0x20, 0xC2], word [0x2E, 0x22, 0x29]],
      Writable t)
      ∧ scan (Text.glyphs ([0x28, 0x20, 0x2E, 0x22, 0x20, 0xE2, 0x29, 0xE2, 0x80, 0x83]
        ++ [0x28, 0xE2, 0x80] ++ [0xE2, 0x80, 0x83]
        ++ [0x2E, 0x22, 0x20, 0x83, 0x28, 0x20, 0xC2, 0x22] ++ [0xC2, 0xA0]
        ++ [0x28, 0x20, 0x22, 0x28, 0x29, 0x20] ++ [0x28, 0x20, 0x29, 0x09]
        ++ [0x2E, 0x22, 0x29] ++ [0xE3, 0x80, 0x80]))
      = ⟨[word [0x28, 0xE2, 0x80], string [0x83, 0x28, 0x20, 0xC2], word [0x2E, 0x22, 0x29]],
        none⟩ := by
  refine ⟨by decide, scan_spread ⟨[
    (⟨[], [⟨[0x2E, 0x22, 0x20, 0xE2], [0xE2, 0x80, 0x83], by decide, by decide, by decide⟩],
      by decide⟩, word [0x28, 0xE2, 0x80]),
    (⟨[0xE2, 0x80, 0x83], [], by decide⟩, string [0x83, 0x28, 0x20, 0xC2]),
    (⟨[0xC2, 0xA0], [⟨[0x22, 0x28], [0x20], by decide, by decide, by decide⟩,
      ⟨[], [0x09], by decide, by decide, by decide⟩], by decide⟩, word [0x2E, 0x22, 0x29])],
    [0xE3, 0x80, 0x80], by decide, by decide⟩ (by decide)⟩

end Spreads

end LineForth.Token
