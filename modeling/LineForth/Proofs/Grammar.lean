import Mathlib.Data.List.TakeWhile
import LineForth.Proofs.Writing

/-!
# The grammar of a line

What a call reads of a line is filler, which is white space and comments, and then a lexeme: a word,
a quoted text, or nothing that makes a token (`Token.Reads`).  The grammar is about bytes, while
`Token.next` works on glyphs.  The two agree (`reads_iff`): the characters that the grammar names
are single bytes, which are never part of another character, and a glyph that was read is read again
wherever reading goes on from there.

In a line the calls start at a place that only ever moves on (`Token.cursor`), and moves if there is
anything but white space to be read.
-/

namespace LineForth.Token

section Definitions

/-- The byte that ends a comment. -/
def closing : UInt8 := 0x29

def commentStart : Text := Text.ofString "( "

def literalStart : Text := Text.ofString ".\" "

/-- A text that is passed over in front of `rest`. -/
inductive Filler : Text → Text → Prop
  | nothing {rest : Text} : Filler [] rest
  | space {c : Char} {t rest : Text} : isSpaceCode c.toNat → Filler t rest →
      Filler (charBytes c ++ t) rest
  | comment {body t rest : Text} : closing ∉ body → Filler t rest →
      Filler (commentStart ++ (body ++ closing :: t)) rest
  /-- A comment that is not ended takes the rest of the line. -/
  | unended {body : Text} : closing ∉ body → Filler (commentStart ++ body) []

/-- After a word comes white space or the end of the line. -/
def EndsWord (rest : Text) : Prop := ∀ g, (Text.glyphs rest).head? = some g → g.isSpace

/-- What is read of a text that does not start with filler, and what is left of it. -/
inductive Lexeme : Text → Except Failure Token → Text → Prop
  | nothing : Lexeme [] (.error .endOfInput) []
  | word {w rest : Text} : w ≠ [] → (∀ g ∈ Text.glyphs w, g.isSpace = false) → EndsWord rest →
      ¬ literalStart <+: w ++ rest → ¬ commentStart <+: w ++ rest →
      Lexeme (w ++ rest) (.ok (word w)) rest
  | quoted {body rest : Text} : body ≠ [] → quote ∉ body →
      Lexeme (literalStart ++ (body ++ quote :: rest)) (.ok (string body)) rest
  /-- A quoted text that is not ended takes the rest of the line. -/
  | unended {body : Text} : body ≠ [] → quote ∉ body →
      Lexeme (literalStart ++ body) (.ok (string body)) []
  | quotedNothing {rest : Text} :
      Lexeme (literalStart ++ quote :: rest) (.error .endOfInput) rest
  | unendedNothing : Lexeme literalStart (.error .endOfInput) []

/-- What a call reads of a line, and what it leaves. -/
def Reads (line : Text) (r : Except Failure Token) (rest : Text) : Prop :=
  ∃ filler t, line = filler ++ t ∧ Filler filler t ∧ Lexeme t r rest

end Definitions

section Bytes

theorem glyphs_commentStart (t : Text) :
    Text.glyphs (commentStart ++ t) = .char '(' :: .char ' ' :: Text.glyphs t := by
  have hstart : commentStart = [0x28, 0x20] := by decide
  rw [hstart, List.cons_append, List.cons_append, List.nil_append,
    Text.glyphs_cons (by decide), Text.glyphs_cons (by decide)]
  rfl

theorem glyphs_literalStart (t : Text) : Text.glyphs (literalStart ++ t)
    = .char '.' :: .char '"' :: .char ' ' :: Text.glyphs t := by
  have hstart : literalStart = [0x2E, 0x22, 0x20] := by decide
  rw [hstart, List.cons_append, List.cons_append, List.cons_append, List.nil_append,
    Text.glyphs_cons (by decide), Text.glyphs_cons (by decide), Text.glyphs_cons (by decide)]
  rfl

/-- A byte below `0x80` is found in a text only as a character of its own. -/
theorem char_mem_of_byte_mem {b : UInt8} {c : Char} (hb : b.toNat < 0x80) (hc : b ∈ charBytes c)
    {line : Text} {gs : List Glyph} (h : gs ⊆ Text.glyphs line) (hmem : b ∈ Text.bytes gs) :
    .char c ∈ gs := by
  obtain ⟨g, hg, hgb⟩ := List.mem_flatMap.1 hmem
  rw [Text.charBytes_ascii hb hc, ← Text.eq_char_of_mem_bytes (h hg) hb hgb]
  exact hg

end Bytes

section Complete

/-- A comment goes up to its end, and then there may be more to pass over. -/
theorem skip_inside : ∀ gs : List Glyph,
    skip true gs = skip false ((gs.dropWhile (· ≠ .char ')')).drop 1)
  | [] => rfl
  | g :: gs => by
    rw [skip]
    by_cases hg : g = .char ')'
    · subst hg
      rw [List.dropWhile_cons_of_neg (by simp)]
      rfl
    · rw [List.dropWhile_cons_of_pos (by simpa using hg), ← skip_inside gs]
      simp [hg]

theorem skip_comment (gs : List Glyph) : skip false (.char '(' :: .char ' ' :: gs)
    = skip false ((gs.dropWhile (· ≠ .char ')')).drop 1) := by
  have hparen : Glyph.isSpace (.char '(') = false := by decide
  rw [skip, if_neg (by simp [hparen]), if_pos ⟨rfl, rfl⟩, skip_inside,
    List.dropWhile_cons_of_pos (by decide)]

theorem Filler.skip {filler t : Text} (h : Filler filler t) :
    Token.skip false (Text.glyphs (filler ++ t)) = Token.skip false (Text.glyphs t) := by
  have hclosing : closing ∈ charBytes ')' := by decide
  induction h with
  | nothing => rfl
  | @space c t rest hc _ ih =>
    have hspace : Glyph.isSpace (.char c) = true := hc
    rw [List.append_assoc, Text.glyphs_char, Token.skip, if_pos hspace, ih]
  | @comment body t rest hbody _ ih =>
    obtain ⟨-, hdrop⟩ := cut_at (Text.char_not_mem hclosing hbody) (Text.glyphs (t ++ rest))
    rw [List.append_assoc, List.append_assoc, List.cons_append, glyphs_commentStart,
      Text.glyphs_ascii (by decide), skip_comment, show Char.ofNat closing.toNat = ')' by decide,
      hdrop, ih]
  | @unended body hbody =>
    obtain ⟨-, hdrop⟩ := cut_none (Text.char_not_mem hclosing hbody)
    rw [List.append_nil, glyphs_commentStart, skip_comment, hdrop]
    rfl

/-- A text that starts with neither white space nor a comment is not passed over. -/
theorem skip_stop {gs : List Glyph} (hspace : ∀ g, gs.head? = some g → g.isSpace = false)
    (hcomment : ∀ more, gs ≠ .char '(' :: .char ' ' :: more) : skip false gs = gs := by
  rcases gs with _ | ⟨g, gs⟩
  · rfl
  · rw [skip, if_neg (by simp [hspace g rfl]), if_neg]
    rintro ⟨rfl, hhead⟩
    obtain ⟨more, rfl⟩ := List.head?_eq_some_iff.1 hhead
    exact hcomment more rfl

theorem literal?_eq_some {gs body : List Glyph} :
    literal? gs = some body ↔ gs = .char '.' :: .char '"' :: .char ' ' :: body := by
  constructor
  · intro h
    unfold literal? at h
    split at h
    · split_ifs at h with hgs
      obtain ⟨rfl, rfl, rfl⟩ := hgs
      rw [Option.some.inj h]
    · cases h
  · rintro rfl
    rfl

theorem Lexeme.next {t rest : Text} {r : Except Failure Token} (h : Lexeme t r rest) :
    Token.next (Text.glyphs t) = (r, Text.glyphs rest) := by
  have hquote : quote ∈ charBytes '"' := by decide
  cases h with
  | nothing => rfl
  | @word w _ hne hspace hends hliteral hcomment =>
    have hglyphs := Text.glyphs_append_space hends w
    have hbytes := Text.bytes_glyphs (w ++ rest)
    have hskip : skip false (Text.glyphs (w ++ rest)) = Text.glyphs (w ++ rest) := by
      refine skip_stop (fun g hg => ?_) fun more heq => hcomment ⟨Text.bytes more, ?_⟩
      · rw [hglyphs, List.head?_append_of_ne_nil _ (glyphs_ne_nil hne)] at hg
        exact hspace g (List.mem_of_mem_head? hg)
      · rw [← hbytes, heq]
        rfl
    have hnone : literal? (Text.glyphs (w ++ rest)) = none := by
      refine Option.eq_none_iff_forall_ne_some.2 fun body hsome => hliteral ⟨Text.bytes body, ?_⟩
      rw [← hbytes, literal?_eq_some.1 hsome]
      rfl
    obtain ⟨htake, hdrop⟩ := takeWhile_run hspace hends
    unfold Token.next
    simp only [hskip, hnone]
    rw [hglyphs, htake, hdrop, make, if_neg (by simpa using glyphs_ne_nil hne), Text.bytes_glyphs]
    rfl
  | @quoted body rest hne hbody =>
    obtain ⟨htake, hdrop⟩ := cut_at (Text.char_not_mem hquote hbody) (Text.glyphs rest)
    rw [glyphs_literalStart, Text.glyphs_ascii (by decide),
      show Char.ofNat quote.toNat = '"' by decide, next_literal, htake, hdrop, make,
      if_neg (by simpa using glyphs_ne_nil hne), Text.bytes_glyphs]
    rfl
  | @unended body hne hbody =>
    obtain ⟨htake, hdrop⟩ := cut_none (Text.char_not_mem hquote hbody)
    rw [glyphs_literalStart, next_literal, htake, hdrop, make,
      if_neg (by simpa using glyphs_ne_nil hne), Text.bytes_glyphs]
    rfl
  | quotedNothing =>
    rw [glyphs_literalStart, Text.glyphs_cons (by decide),
      show Char.ofNat quote.toNat = '"' by decide, next_literal]
    rfl
  | unendedNothing => decide

theorem Reads.next {line rest : Text} {r : Except Failure Token} (h : Reads line r rest) :
    Token.next (Text.glyphs line) = (r, Text.glyphs rest) := by
  obtain ⟨filler, t, rfl, hfiller, hlexeme⟩ := h
  rw [next_congr hfiller.skip, hlexeme.next]

end Complete

section Sound

theorem read_cons {line : Text} {g : Glyph} {gs : List Glyph} (h : Text.glyphs line = g :: gs) :
    line = g.bytes ++ Text.bytes gs ∧ Text.glyphs (Text.bytes gs) = gs := by
  refine ⟨?_, Text.glyphs_suffix line (by rw [h]; exact List.suffix_cons g gs)⟩
  rw [← Text.bytes_glyphs line, h, Text.bytes_cons]

/-- Passing over stops at neither white space nor a comment. -/
theorem skip_stops : ∀ (line : List Glyph) (inside : Bool),
    (∀ g, (skip inside line).head? = some g → g.isSpace = false)
      ∧ ∀ more, skip inside line ≠ .char '(' :: .char ' ' :: more
  | [], _ => by simp [skip]
  | g :: gs, true => by
    rw [skip]
    exact skip_stops gs _
  | g :: gs, false => by
    rw [skip]
    split_ifs with hspace hcomment
    · exact skip_stops gs false
    · exact skip_stops gs true
    · refine ⟨fun g' hg' => ?_, fun more heq => hcomment ?_⟩
      · cases hg'
        simpa using hspace
      · cases heq
        exact ⟨rfl, rfl⟩

/-- What stands in front of a character of one byte does not have the byte, and the character comes
next unless that is all. -/
theorem cut_bytes {b : UInt8} {c : Char} (hb : b.toNat < 0x80) (hc : charBytes c = [b])
    {line : Text} {gs : List Glyph} (h : gs <:+ Text.glyphs line) :
    b ∉ Text.bytes (gs.takeWhile (· ≠ .char c))
      ∧ (Text.bytes gs = Text.bytes (gs.takeWhile (· ≠ .char c))
          ++ b :: Text.bytes ((gs.dropWhile (· ≠ .char c)).drop 1)
        ∨ gs.takeWhile (· ≠ .char c) = gs ∧ (gs.dropWhile (· ≠ .char c)).drop 1 = []) := by
  have hsubset : gs.takeWhile (· ≠ .char c) ⊆ Text.glyphs line :=
    fun g hg => h.subset ((List.takeWhile_prefix _).subset hg)
  have hsplit := List.takeWhile_append_dropWhile (p := fun g => decide (g ≠ .char c)) (l := gs)
  constructor
  · intro hmem
    have hchar := char_mem_of_byte_mem hb (hc ▸ List.mem_singleton_self b) hsubset hmem
    simpa using List.mem_takeWhile_imp hchar
  · have hhead := List.head?_dropWhile_not (fun g => decide (g ≠ .char c)) gs
    rcases hd : gs.dropWhile (fun g => decide (g ≠ .char c)) with _ | ⟨g, rest⟩ <;>
      rw [hd] at hsplit hhead ⊢
    · rw [List.append_nil] at hsplit
      exact .inr ⟨hsplit, rfl⟩
    · obtain rfl : g = .char c := by simpa using hhead
      have hbytes := congrArg Text.bytes hsplit
      rw [Text.bytes_append, Text.bytes_cons, Glyph.bytes, hc] at hbytes
      exact .inl hbytes.symm

/-- What is passed over in front of a line is filler. -/
def PassesFiller (line : Text) : Prop := ∃ filler,
  line = filler ++ Text.bytes (skip false (Text.glyphs line))
    ∧ Filler filler (Text.bytes (skip false (Text.glyphs line)))

theorem passesFiller_space {line : Text} {c : Char} {gs : List Glyph} (hc : isSpaceCode c.toNat)
    (hg : Text.glyphs line = .char c :: gs) (h : PassesFiller (Text.bytes gs)) :
    PassesFiller line := by
  obtain ⟨hline, hgs⟩ := read_cons hg
  obtain ⟨filler, hrest, hfiller⟩ := h
  rw [hgs] at hrest hfiller
  have hspace : Glyph.isSpace (.char c) = true := hc
  unfold PassesFiller
  rw [hg, skip, if_pos hspace]
  refine ⟨charBytes c ++ filler, ?_, .space hc hfiller⟩
  rw [List.append_assoc, ← hrest]
  exact hline

theorem passesFiller_comment {line : Text} {gs : List Glyph}
    (hg : Text.glyphs line = .char '(' :: .char ' ' :: gs)
    (h : PassesFiller (Text.bytes ((gs.dropWhile (· ≠ .char ')')).drop 1))) :
    PassesFiller line := by
  have hsuffix : gs <:+ Text.glyphs line := by
    rw [hg]
    exact ⟨[_, _], rfl⟩
  have hline : line = commentStart ++ Text.bytes gs := by
    rw [← Text.bytes_glyphs line, hg]
    rfl
  obtain ⟨habsent, hcut⟩ := cut_bytes (b := closing) (c := ')') (by decide) (by decide) hsuffix
  unfold PassesFiller
  rw [hg, skip_comment]
  rcases hcut with hcut | ⟨hall, hnil⟩
  · have hafter := Text.glyphs_suffix line
      ((List.drop_suffix 1 _).trans ((List.dropWhile_suffix (· ≠ .char ')')).trans hsuffix))
    obtain ⟨filler, hrest, hfiller⟩ := h
    rw [hafter] at hrest hfiller
    refine ⟨_, ?_, .comment habsent hfiller⟩
    rw [List.append_assoc, List.append_assoc, List.cons_append, ← hrest, ← hcut]
    exact hline
  · rw [hall] at habsent
    rw [hnil]
    exact ⟨line, (List.append_nil line).symm, hline ▸ .unended habsent⟩

/-- The induction is on the length of the line, since a comment goes over any number of glyphs. -/
theorem passesFiller (line : Text) : PassesFiller line := by
  induction hn : line.length using Nat.strongRecOn generalizing line with
  | ind n ih =>
    subst hn
    have hlength : ∀ g gs, Text.glyphs line = g :: gs → (Text.bytes gs).length < line.length := by
      intro g gs hg
      have hpos := List.length_pos_iff.2 (Text.bytes_ne_nil (List.cons_ne_nil g []))
      rw [(read_cons hg).1, List.length_append]
      simpa [Text.bytes] using hpos
    by_cases hcomment : ∃ more, Text.glyphs line = .char '(' :: .char ' ' :: more
    · obtain ⟨more, hg⟩ := hcomment
      have hsuffix : (more.dropWhile (· ≠ .char ')')).drop 1 <:+ .char ' ' :: more :=
        (List.drop_suffix _ _).trans ((List.dropWhile_suffix _).trans (List.suffix_cons _ _))
      have hle := (Text.bytes_suffix hsuffix).length_le
      exact passesFiller_comment hg (ih _ (hle.trans_lt (hlength _ _ hg)) _ rfl)
    · by_cases hspace : ∃ c gs, isSpaceCode c.toNat ∧ Text.glyphs line = .char c :: gs
      · obtain ⟨c, gs, hc, hg⟩ := hspace
        exact passesFiller_space hc hg (ih _ (hlength _ _ hg) _ rfl)
      · unfold PassesFiller
        rw [skip_stop, Text.bytes_glyphs]
        · exact ⟨[], rfl, .nothing⟩
        · intro g hg
          obtain ⟨gs, hg⟩ := List.head?_eq_some_iff.1 hg
          cases g with
          | stray b => rfl
          | char c =>
            exact Bool.eq_false_iff.2 fun hc => hspace ⟨c, gs, hc, hg⟩
        · exact fun more hg => hcomment ⟨more, hg⟩

/-- A run without white space is read as a word, if white space or the end of the line follows and
neither a quoted text nor a comment starts there. -/
theorem lexeme_word {line : Text} {w rest : List Glyph} (hsuffix : w ++ rest <:+ Text.glyphs line)
    (hne : w ≠ []) (hspace : ∀ g ∈ w, g.isSpace = false)
    (hends : ∀ g, rest.head? = some g → g.isSpace) (hliteral : literal? (w ++ rest) = none)
    (hcomment : ∀ more, w ++ rest ≠ .char '(' :: .char ' ' :: more) :
    Lexeme (Text.bytes (w ++ rest)) (.ok (word (Text.bytes w))) (Text.bytes rest) := by
  have hread : Text.glyphs (Text.bytes w ++ Text.bytes rest) = w ++ rest := by
    rw [← Text.bytes_append]
    exact Text.glyphs_suffix line hsuffix
  have hrest : Text.glyphs (Text.bytes rest) = rest :=
    Text.glyphs_suffix line ((List.suffix_append w rest).trans hsuffix)
  have hends : EndsWord (Text.bytes rest) := by
    unfold EndsWord
    rwa [hrest]
  have hword : Text.glyphs (Text.bytes w) = w := by
    rw [Text.glyphs_append_space hends, hrest] at hread
    exact List.append_cancel_right hread
  rw [Text.bytes_append]
  refine .word (Text.bytes_ne_nil hne) (by rwa [hword]) hends ?_ ?_
  · rintro ⟨body, hbody⟩
    rw [← hread, ← hbody, glyphs_literalStart] at hliteral
    cases hliteral
  · rintro ⟨body, hbody⟩
    refine hcomment (Text.glyphs body) ?_
    rw [← hread, ← hbody, glyphs_commentStart]

theorem lexeme_literal {line : Text} {body : List Glyph} (hsuffix : body <:+ Text.glyphs line) :
    Lexeme (literalStart ++ Text.bytes body) (make (body.takeWhile (· ≠ .char '"')) true)
      (Text.bytes ((body.dropWhile (· ≠ .char '"')).drop 1)) := by
  obtain ⟨habsent, hcut⟩ := cut_bytes (b := quote) (c := '"') (by decide) (by decide) hsuffix
  by_cases hne : body.takeWhile (· ≠ .char '"') = []
  · rw [hne] at hcut ⊢
    rcases hcut with hcut | ⟨rfl, -⟩
    · rw [hcut]
      exact .quotedNothing
    · exact .unendedNothing
  · have htext := Text.bytes_ne_nil hne
    rw [make, if_neg (by simpa using hne)]
    rcases hcut with hcut | ⟨hall, hnil⟩
    · rw [hcut]
      exact .quoted htext habsent
    · rw [hall] at habsent htext ⊢
      rw [hnil]
      exact .unended htext habsent

/-- What a call reads where there is no filler is a lexeme. -/
theorem lexeme_next {line : Text} {gs : List Glyph} (hsuffix : gs <:+ Text.glyphs line)
    (hspace : ∀ g, gs.head? = some g → g.isSpace = false)
    (hcomment : ∀ more, gs ≠ .char '(' :: .char ' ' :: more) :
    Lexeme (Text.bytes gs) (next gs).1 (Text.bytes (next gs).2) := by
  rcases hl : literal? gs with _ | body
  · rcases gs with _ | ⟨g, gs⟩
    · exact .nothing
    have hnext : next (g :: gs) = (make ((g :: gs).takeWhile (!·.isSpace)) false,
        (g :: gs).dropWhile (!·.isSpace)) := by
      unfold next
      simp only [skip_stop hspace hcomment, hl]
    have hrun : (g :: gs).takeWhile (!·.isSpace) ≠ [] := by
      rw [List.takeWhile_cons_of_pos (by simp [hspace g rfl])]
      exact List.cons_ne_nil _ _
    have hsplit := List.takeWhile_append_dropWhile (p := fun g => !Glyph.isSpace g) (l := g :: gs)
    rw [hnext, make, if_neg (by simpa using hrun)]
    rw [← hsplit] at hsuffix hcomment hl
    have hlexeme := lexeme_word hsuffix hrun (fun g' hg' => ?_) (fun g' hg' => ?_) hl hcomment
    · rw [hsplit] at hlexeme
      exact hlexeme
    · simpa using List.mem_takeWhile_imp hg'
    · have hhead := List.head?_dropWhile_not (fun g => !Glyph.isSpace g) (g :: gs)
      rw [hg'] at hhead
      simpa using hhead
  · obtain rfl := literal?_eq_some.1 hl
    rw [next_literal]
    exact lexeme_literal ((literal?_suffix hl).trans hsuffix)

theorem reads_next (line : Text) :
    Reads line (next (Text.glyphs line)).1 (Text.bytes (next (Text.glyphs line)).2) := by
  obtain ⟨filler, hline, hfiller⟩ := passesFiller line
  obtain ⟨hspace, hcomment⟩ := skip_stops (Text.glyphs line) false
  have hnext : next (skip false (Text.glyphs line)) = next (Text.glyphs line) :=
    next_congr (skip_stop hspace hcomment)
  refine ⟨filler, _, hline, hfiller, ?_⟩
  rw [← hnext]
  exact lexeme_next (skip_suffix _ _) hspace hcomment

theorem reads_iff {line rest : Text} {r : Except Failure Token} :
    Reads line r rest ↔ next (Text.glyphs line) = (r, Text.glyphs rest) := by
  refine ⟨Reads.next, fun h => ?_⟩
  have hreads := reads_next line
  rwa [h, Text.bytes_glyphs] at hreads

end Sound

section Calls

/-- A call leaves less than there was, whether it gives a token or not. -/
theorem Reads.shorter {line rest : Text} {r : Except Failure Token} (h : Reads line r rest)
    (hne : line ≠ []) : rest.length < line.length := by
  have hstart : literalStart.length = 3 := rfl
  obtain ⟨filler, t, rfl, -, hlexeme⟩ := h
  rw [List.length_append]
  cases hlexeme with
  | nothing => simpa using List.length_pos_iff.2 hne
  | word hw =>
    have := List.length_pos_iff.2 hw
    rw [List.length_append]
    omega
  | quoted | unended | quotedNothing =>
    simp only [List.length_append, List.length_cons, List.length_nil]
    omega
  | unendedNothing =>
    rw [hstart, List.length_nil]
    omega

/-- The texts of which no token is made. -/
theorem Lexeme.failed_iff {t : Text} : (∃ f rest, Lexeme t (.error f) rest) ↔
    t = [] ∨ t = literalStart ∨ ∃ more, t = literalStart ++ quote :: more := by
  constructor
  · rintro ⟨f, rest, h⟩
    cases h with
    | nothing => exact .inl rfl
    | quotedNothing => exact .inr (.inr ⟨rest, rfl⟩)
    | unendedNothing => exact .inr (.inl rfl)
  · rintro (rfl | rfl | ⟨more, rfl⟩)
    · exact ⟨_, _, .nothing⟩
    · exact ⟨_, _, .unendedNothing⟩
    · exact ⟨_, _, .quotedNothing⟩

/-- What is left of a line after a number of calls. -/
def left (line : Text) : Nat → List Glyph
  | 0 => Text.glyphs line
  | n + 1 => (next (left line n)).2

/-- The number of bytes of a line that lie before the next call, after a number of them. -/
def cursor (line : Text) (n : Nat) : Nat := line.length - (Text.bytes (left line n)).length

variable (line : Text)

theorem left_suffix : ∀ n, left line n <:+ Text.glyphs line
  | 0 => List.suffix_refl _
  | n + 1 => (next_suffix _).trans (left_suffix n)

theorem glyphs_left (n : Nat) : Text.glyphs (Text.bytes (left line n)) = left line n :=
  Text.glyphs_suffix line (left_suffix line n)

theorem bytes_left (n : Nat) : Text.bytes (left line n) <:+ line := by
  have hsuffix := Text.bytes_suffix (left_suffix line n)
  rwa [Text.bytes_glyphs] at hsuffix

theorem drop_cursor (n : Nat) : line.drop (cursor line n) = Text.bytes (left line n) :=
  (List.suffix_iff_eq_drop.1 (bytes_left line n)).symm

/-- Each call reads what the grammar says of the line from its place on. -/
theorem reads_left (n : Nat) : Reads (line.drop (cursor line n)) (next (left line n)).1
    (line.drop (cursor line (n + 1))) := by
  have hreads := reads_next (Text.bytes (left line n))
  rwa [glyphs_left, ← drop_cursor, show (next (left line n)).2 = left line (n + 1) from rfl,
    ← drop_cursor] at hreads

theorem cursor_le (n : Nat) : cursor line n ≤ cursor line (n + 1) :=
  Nat.sub_le_sub_left (Text.bytes_suffix (next_suffix (left line n))).length_le line.length

theorem cursor_lt {n : Nat} (h : hasMore (left line n)) : cursor line n < cursor line (n + 1) := by
  have hne : line.drop (cursor line n) ≠ [] := by
    rw [drop_cursor]
    refine Text.bytes_ne_nil fun hnil => ?_
    rw [hnil] at h
    cases h
  have hlt := (reads_left line n).shorter hne
  rw [List.length_drop, List.length_drop] at hlt
  omega

theorem fails_iff (n : Nat) : (next (left line n)).1 = .error .endOfInput ↔
    ∃ filler t, line.drop (cursor line n) = filler ++ t ∧ Filler filler t
      ∧ (t = [] ∨ t = literalStart ∨ ∃ more, t = literalStart ++ quote :: more) := by
  constructor
  · intro h
    obtain ⟨filler, t, hline, hfiller, hlexeme⟩ := reads_left line n
    rw [h] at hlexeme
    exact ⟨filler, t, hline, hfiller, Lexeme.failed_iff.1 ⟨_, _, hlexeme⟩⟩
  · rintro ⟨filler, t, hline, hfiller, ht⟩
    obtain ⟨f, rest, hlexeme⟩ := Lexeme.failed_iff.2 ht
    have hnext := reads_iff.1 ⟨filler, t, hline, hfiller, hlexeme⟩
    rw [drop_cursor, glyphs_left] at hnext
    rw [hnext, next_failure hnext]

/-- The calls over a line follow its grammar and come to an end.  A call starts where the one before
it stopped, which is never further back nor past the end of the line, and stops further on if there
is anything but white space.  So the loop over the tokens has one end.  What a call gives, and where
it stops, is what the grammar says; it gives no token exactly if behind the filler there is nothing,
or a quoted text of nothing. -/
theorem tokens_by_grammar (n : Nat) :
    cursor line n ≤ cursor line (n + 1) ∧ cursor line n ≤ line.length
      ∧ left line n = Text.glyphs (line.drop (cursor line n))
      ∧ (hasMore (left line n) → cursor line n < cursor line (n + 1))
      ∧ (∀ s, Scans (left line n) s ↔ s = scan (left line n))
      ∧ (∀ r rest, Reads (line.drop (cursor line n)) r rest ↔
        (next (left line n)).1 = r ∧ line.drop (cursor line (n + 1)) = rest)
      ∧ ((next (left line n)).1 = .error .endOfInput ↔
        ∃ filler t, line.drop (cursor line n) = filler ++ t ∧ Filler filler t
          ∧ (t = [] ∨ t = literalStart ∨ ∃ more, t = literalStart ++ quote :: more)) := by
  refine ⟨cursor_le line n, Nat.sub_le _ _, ?_, cursor_lt line, fun s => scans_iff, ?_,
    fails_iff line n⟩
  · rw [drop_cursor, glyphs_left]
  · intro r rest
    rw [reads_iff, drop_cursor, glyphs_left, Prod.ext_iff, drop_cursor]
    refine and_congr_right fun _ => ⟨fun hrest => ?_, fun hrest => ?_⟩
    · rw [left, hrest, Text.bytes_glyphs]
    · rw [← hrest]
      exact (glyphs_left line (n + 1)).symm

end Calls

end LineForth.Token
