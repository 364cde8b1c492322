import LineForth.Proofs.Tokens

/-!
# Writing tokens

A token is written as it is read: a word as it stands, a quoted text between `." ` and a double
quote.  Written between white space it is read back (`next_written`), if it is a word that starts no
literal and no comment, or a text without a double quote.

A row is a line of written tokens, with white space in front of each and at the end.  Its tokens are
those that were written, however much white space there is (`scan_row`).
-/

namespace LineForth

section Blank

variable {gap : Text}

theorem Text.isBlank_iff : gap.isBlank ↔ ∀ g ∈ Text.glyphs gap, g.isSpace := by
  rw [Text.isBlank, List.all_eq_true]

theorem Text.blank_char (h : gap.isBlank) : ∀ g ∈ Text.glyphs gap, ∃ c, g = .char c := by
  intro g hg
  have hs := Text.isBlank_iff.1 h g hg
  cases g with
  | char c => exact ⟨c, rfl⟩
  | stray b => cases hs

/-- White space is read apart from what follows it. -/
theorem Text.glyphs_blank (h : gap.isBlank) (t : Text) :
    Text.glyphs (gap ++ t) = Text.glyphs gap ++ Text.glyphs t := by
  have := Text.glyphs_bytes (Text.glyphs gap) (Text.blank_char h) t
  rwa [Text.bytes_glyphs] at this

/-- A text that starts with white space is read apart from what it follows. -/
theorem Text.glyphs_append_space {rest : Text}
    (h : ∀ g, (Text.glyphs rest).head? = some g → g.isSpace) (t : Text) :
    Text.glyphs (t ++ rest) = Text.glyphs t ++ Text.glyphs rest := by
  rcases hg : Text.glyphs rest with _ | ⟨g, gs⟩
  · have hrest := Text.bytes_glyphs rest
    rw [hg] at hrest
    subst hrest
    rw [List.append_nil]
    exact congrArg Text.glyphs (List.append_nil t)
  · have hspace := h g (by rw [hg]; rfl)
    cases g with
    | stray b => cases hspace
    | char c =>
      obtain ⟨b, tail, hb, hcont⟩ := Text.charBytes_head c
      have hrest : rest = b :: (tail ++ Text.bytes gs) := by
        rw [← Text.bytes_glyphs rest, hg, Text.bytes_cons, Glyph.bytes, hb, List.cons_append]
      rw [← hg, hrest]
      exact Text.glyphs_append hcont t _

theorem Text.blank_head (h : gap.isBlank) {more : Text} (hne : gap ≠ [] ∨ more = []) :
    ∀ g, (Text.glyphs (gap ++ more)).head? = some g → g.isSpace := by
  intro g hg
  rw [Text.glyphs_blank h] at hg
  rcases hs : Text.glyphs gap with _ | ⟨g', gs⟩ <;> rw [hs] at hg
  · rcases hne with hne | rfl
    · exact absurd hs (Token.glyphs_ne_nil hne)
    · cases hg
  · obtain rfl := Option.some.inj hg
    exact Text.isBlank_iff.1 h g' (by rw [hs]; exact List.mem_cons_self)

end Blank

namespace Token

section Written

def quote : UInt8 := 0x22

/-- A token as it is written in a line. -/
def written (t : Token) : Text :=
  if t.quoted then Text.ofString ".\" " ++ t.text ++ Text.ofString "\"" else t.text

/-- A token that is read back when it is written. -/
def Writable (t : Token) : Prop :=
  if t.quoted then t.text ≠ [] ∧ quote ∉ t.text else IsWord t.text

instance (t : Token) : Decidable t.Writable :=
  inferInstanceAs (Decidable (if t.quoted then t.text ≠ [] ∧ quote ∉ t.text else IsWord t.text))

theorem glyphs_string (t : Text) : Text.glyphs (string t).written
    = .char '.' :: .char '"' :: .char ' ' :: (Text.glyphs t ++ [.char '"']) := by
  have hopen : Text.ofString ".\" " = [0x2E, 0x22, 0x20] := by decide
  have hclose : Text.ofString "\"" = [quote] := by decide
  have hend : Text.glyphs [quote] = [.char '"'] := by decide
  have hcont : ¬ IsContinuation quote := by simp [IsContinuation, quote]
  rw [written, string, if_pos rfl, hopen, hclose, List.append_assoc]
  simp only [List.cons_append, List.nil_append]
  rw [Text.glyphs_cons (by decide), Text.glyphs_cons (by decide), Text.glyphs_cons (by decide),
    Text.glyphs_append hcont, hend]
  rfl

/-- Glyphs are cut at a character behind those that do not have it. -/
theorem cut_append {c : Char} {gs : List Glyph} (h : .char c ∉ gs) (rest : List Glyph) :
    (gs ++ rest).takeWhile (· ≠ .char c) = gs ++ rest.takeWhile (· ≠ .char c)
      ∧ (gs ++ rest).dropWhile (· ≠ .char c) = rest.dropWhile (· ≠ .char c) := by
  have hall : ∀ g ∈ gs, decide (g ≠ .char c) = true :=
    fun g hg => decide_eq_true fun heq => h (heq ▸ hg)
  exact ⟨List.takeWhile_append_of_pos hall, List.dropWhile_append_of_pos hall⟩

theorem cut_at {c : Char} {gs : List Glyph} (h : .char c ∉ gs) (rest : List Glyph) :
    (gs ++ .char c :: rest).takeWhile (· ≠ .char c) = gs
      ∧ ((gs ++ .char c :: rest).dropWhile (· ≠ .char c)).drop 1 = rest := by
  obtain ⟨htake, hdrop⟩ := cut_append h (.char c :: rest)
  rw [htake, hdrop, List.takeWhile_cons_of_neg (by simp), List.dropWhile_cons_of_neg (by simp)]
  exact ⟨List.append_nil gs, rfl⟩

theorem cut_none {c : Char} {gs : List Glyph} (h : .char c ∉ gs) :
    gs.takeWhile (· ≠ .char c) = gs ∧ (gs.dropWhile (· ≠ .char c)).drop 1 = [] := by
  obtain ⟨htake, hdrop⟩ := cut_append h []
  rw [List.append_nil] at htake hdrop
  rw [htake, hdrop]
  exact ⟨List.append_nil gs, rfl⟩

theorem next_literal (body : List Glyph) : next (.char '.' :: .char '"' :: .char ' ' :: body)
    = (make (body.takeWhile (· ≠ .char '"')) true, (body.dropWhile (· ≠ .char '"')).drop 1) := by
  have hdot : Glyph.isSpace (.char '.') = false := by decide
  have hskip : ∀ line, skip false (.char '.' :: line) = .char '.' :: line := by
    intro line
    rw [skip, if_neg (by simp [hdot]), if_neg (by simp)]
  unfold next
  rw [hskip]
  rfl

theorem next_string {t : Text} (hne : t ≠ []) (hq : quote ∉ t) (rest : List Glyph) :
    next (Text.glyphs (string t).written ++ rest) = (.ok (string t), rest) := by
  obtain ⟨htake, hdrop⟩ := cut_at (Text.char_not_mem (c := '"') (by decide) hq) rest
  rw [glyphs_string]
  simp only [List.cons_append, List.append_assoc, List.nil_append]
  rw [next_literal, htake, hdrop, make, if_neg (by simpa using glyphs_ne_nil hne),
    Text.bytes_glyphs]
  rfl

theorem next_written {t : Token} (ht : t.Writable) {rest : List Glyph}
    (hrest : ∀ g, rest.head? = some g → g.isSpace) :
    next (Text.glyphs t.written ++ rest) = (.ok t, rest) := by
  obtain ⟨text, _ | _⟩ := t
  · exact next_word ht hrest
  · exact next_string ht.1 ht.2 rest

end Written

/-- A line of tokens: each has white space in front of it, and there may be some at the end. -/
structure Row where
  placed : List (Text × Token)
  trail : Text := []

namespace Row

def tokens (r : Row) : List Token := r.placed.map Prod.snd

def text (r : Row) : Text := (r.placed.flatMap fun p => p.1 ++ p.2.written) ++ r.trail

/-- Only white space stands between the tokens, and no two of them touch. -/
structure Spaced (r : Row) : Prop where
  gaps : ∀ p ∈ r.placed, p.1.isBlank
  apart : ∀ p ∈ r.placed.tail, p.1 ≠ []
  trail : r.trail.isBlank

instance (r : Row) : Decidable r.Spaced :=
  decidable_of_iff ((∀ p ∈ r.placed, p.1.isBlank) ∧ (∀ p ∈ r.placed.tail, p.1 ≠ [])
    ∧ r.trail.isBlank) ⟨fun ⟨h1, h2, h3⟩ => ⟨h1, h2, h3⟩, fun ⟨h1, h2, h3⟩ => ⟨h1, h2, h3⟩⟩

/-- The tokens with a single space in front of each. -/
def plain (ts : List Token) : Row := { placed := ts.map fun t => ([Text.space], t) }

@[simp]
theorem plain_tokens (ts : List Token) : (plain ts).tokens = ts := by
  rw [tokens, plain, List.map_map]
  exact List.map_id ts

theorem plain_spaced (ts : List Token) : (plain ts).Spaced where
  gaps p hp := by
    obtain ⟨t, -, rfl⟩ := List.mem_map.1 hp
    show Text.isBlank [Text.space]
    decide
  apart p hp := by
    obtain ⟨t, -, rfl⟩ := List.mem_map.1 (List.mem_of_mem_tail hp)
    simp
  trail := rfl

variable {gap : Text} {t : Token} {ps : List (Text × Token)} {trail : Text}

theorem Spaced.tail (h : Spaced ⟨(gap, t) :: ps, trail⟩) : Spaced ⟨ps, trail⟩ where
  gaps p hp := h.gaps p (List.mem_cons_of_mem _ hp)
  apart p hp := h.apart p (List.mem_of_mem_tail hp)
  trail := h.trail

/-- After a token comes white space or the end of the line. -/
theorem Spaced.rest_head (h : Spaced ⟨(gap, t) :: ps, trail⟩) :
    ∀ g, (Text.glyphs (text ⟨ps, trail⟩)).head? = some g → g.isSpace := by
  rcases ps with _ | ⟨⟨gap', t'⟩, ps⟩
  · have hhead := Text.blank_head h.trail (.inr (rfl : ([] : Text) = []))
    rwa [List.append_nil] at hhead
  · have htext : text ⟨(gap', t') :: ps, trail⟩ = gap' ++ (t'.written ++ text ⟨ps, trail⟩) := by
      simp [text]
    rw [htext]
    exact Text.blank_head (h.gaps (gap', t') (by simp)) (.inl (h.apart (gap', t') (by simp)))

theorem Spaced.glyphs_cons (h : Spaced ⟨(gap, t) :: ps, trail⟩) :
    Text.glyphs (text ⟨(gap, t) :: ps, trail⟩)
      = Text.glyphs gap ++ (Text.glyphs t.written ++ Text.glyphs (text ⟨ps, trail⟩)) := by
  have htext : text ⟨(gap, t) :: ps, trail⟩ = gap ++ (t.written ++ text ⟨ps, trail⟩) := by
    simp [text]
  rw [htext, Text.glyphs_blank (h.gaps (gap, t) List.mem_cons_self),
    Text.glyphs_append_space h.rest_head]

end Row

section Rows

variable {gap : Text} {t : Token} {ps : List (Text × Token)} {trail : Text}

/-- The first token of a row is read, and the row without it is left. -/
theorem next_row (h : Row.Spaced ⟨(gap, t) :: ps, trail⟩) (ht : t.Writable) :
    next (Text.glyphs (Row.text ⟨(gap, t) :: ps, trail⟩))
      = (.ok t, Text.glyphs (Row.text ⟨ps, trail⟩)) := by
  have hgap := Text.isBlank_iff.1 (h.gaps (gap, t) List.mem_cons_self)
  rw [h.glyphs_cons, ← next_written ht h.rest_head]
  exact next_congr (skip_blank _ _ hgap)

theorem scan_blank {t : Text} (h : t.isBlank) : scan (Text.glyphs t) = ⟨[], none⟩ := by
  have hmore : hasMore (Text.glyphs t) = false := by
    simpa [hasMore] using Text.isBlank_iff.1 h
  rw [scan_eq, if_neg (by simp [hmore])]

theorem scan_row {r : Row} (h : r.Spaced) (hw : ∀ t ∈ r.tokens, t.Writable) :
    scan (Text.glyphs r.text) = ⟨r.tokens, none⟩ := by
  obtain ⟨placed, trail⟩ := r
  induction placed with
  | nil => exact scan_blank h.trail
  | cons p ps ih =>
    obtain ⟨gap, t⟩ := p
    have ht : t.Writable := hw t (by simp [Row.tokens])
    rw [scan_token (next_row h ht), ih h.tail fun t' ht' => hw t' (List.mem_cons_of_mem _ ht')]
    rfl

end Rows

end Token

end LineForth
