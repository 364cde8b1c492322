import Mathlib.Data.List.TakeWhile
import LineForth.Language.Token
import LineForth.Proofs.Glyphs

/-!
# The tokens of a line

A token takes at least one glyph (`next_shorter`), so the loop over the tokens of a line ends by
itself, and the bound on its rounds is never what stops it: `scan` is what the unbounded loop gives
(`scan_eq`, `scans_iff`).

Of a line made of words with a space between them, the tokens are these words (`scan_join`).  A word
here is any text without white space, but for the two that start a literal or a comment.
-/

namespace LineForth.Token

section Progress

theorem make_failure {gs : List Glyph} {quoted : Bool} {f : Failure}
    (h : make gs quoted = .error f) : f = .endOfInput := by
  unfold make at h
  split_ifs at h
  exact (Except.error.inj h).symm

theorem make_ok {gs : List Glyph} {quoted : Bool} {t : Token} (h : make gs quoted = .ok t) :
    gs ≠ [] ∧ t = ⟨Text.bytes gs, quoted⟩ := by
  unfold make at h
  split_ifs at h with hgs
  exact ⟨by simpa using hgs, (Except.ok.inj h).symm⟩

theorem next_failure {line rest : List Glyph} {f : Failure} (h : next line = (.error f, rest)) :
    f = .endOfInput := by
  unfold next at h
  simp only [] at h
  split at h <;> exact make_failure (congrArg Prod.fst h)

/-- A call depends only on what is behind white space and comments. -/
theorem next_congr {line line' : List Glyph} (h : skip false line = skip false line') :
    next line = next line' := by
  unfold next
  rw [h]

theorem skip_suffix : ∀ (line : List Glyph) (inside : Bool), skip inside line <:+ line
  | [], _ => by simp [skip]
  | g :: gs, true => by
    rw [skip]
    exact (skip_suffix gs _).trans (List.suffix_cons g gs)
  | g :: gs, false => by
    rw [skip]
    split_ifs
    · exact (skip_suffix gs _).trans (List.suffix_cons g gs)
    · exact (skip_suffix gs _).trans (List.suffix_cons g gs)
    · exact List.suffix_refl _

theorem literal?_suffix {gs body : List Glyph} (h : literal? gs = some body) : body <:+ gs := by
  unfold literal? at h
  split at h
  · split_ifs at h
    obtain rfl := Option.some.inj h
    exact ⟨[_, _, _], rfl⟩
  · cases h

theorem next_suffix (line : List Glyph) : (next line).2 <:+ line := by
  have hskip := skip_suffix line false
  unfold next
  simp only []
  split
  · rename_i body hl
    exact (List.drop_suffix _ _).trans
      ((List.dropWhile_suffix _).trans ((literal?_suffix hl).trans hskip))
  · exact (List.dropWhile_suffix _).trans hskip

theorem literal?_length {gs body : List Glyph} (h : literal? gs = some body) :
    gs.length = body.length + 3 := by
  unfold literal? at h
  split at h
  · split_ifs at h
    obtain rfl := Option.some.inj h
    rfl
  · cases h

theorem next_shorter {line rest : List Glyph} {t : Token} (h : next line = (.ok t, rest)) :
    rest.length < line.length := by
  have hskip := (skip_suffix line false).length_le
  unfold next at h
  simp only [] at h
  split at h
  · rename_i body hl
    obtain ⟨-, rfl⟩ := Prod.mk.inj h
    have hlen := literal?_length hl
    have hdrop := (body.dropWhile_suffix (· ≠ Glyph.char '"')).length_le
    rw [List.length_drop]
    omega
  · obtain ⟨hmake, rfl⟩ := Prod.mk.inj h
    obtain ⟨hne, -⟩ := make_ok hmake
    have hpos := List.length_pos_iff.2 hne
    have hsplit := congrArg List.length
      (List.takeWhile_append_dropWhile (p := fun g => !Glyph.isSpace g) (l := skip false line))
    rw [List.length_append] at hsplit
    omega

end Progress

section Loop

theorem scanOnto_failure {f : Failure} : ∀ (n : Nat) (acc : List Token) (line : List Glyph),
    (scanOnto acc n line).failure = some f → f = .endOfInput
  | 0, _, _, h => by simp [scanOnto] at h
  | n + 1, acc, line, h => by
    rw [scanOnto] at h
    split_ifs at h
    split at h
    · exact scanOnto_failure n _ _ h
    · rename_i hn
      obtain rfl := Option.some.inj h
      exact next_failure hn

theorem scan_failure {line : List Glyph} {f : Failure} (h : (scan line).failure = some f) :
    f = .endOfInput :=
  scanOnto_failure _ _ _ h

theorem scanOnto_acc : ∀ (n : Nat) (acc : List Token) (line : List Glyph),
    scanOnto acc n line = ⟨acc.reverse ++ (scanOnto [] n line).tokens, (scanOnto [] n line).failure⟩
  | 0, acc, line => by simp [scanOnto]
  | n + 1, acc, line => by
    simp only [scanOnto]
    split_ifs
    · rcases next line with ⟨f | t, rest⟩
      · simp
      · simp only []
        rw [scanOnto_acc n (t :: acc), scanOnto_acc n [t]]
        simp
    · simp

theorem scanOnto_enough : ∀ (n n' : Nat) (acc : List Token) (line : List Glyph), line.length ≤ n →
    line.length ≤ n' → scanOnto acc n line = scanOnto acc n' line
  | 0, n', acc, line, h, _ => by
    obtain rfl := List.length_eq_zero_iff.1 (Nat.le_zero.1 h)
    cases n' <;> simp [scanOnto, hasMore]
  | n + 1, 0, acc, line, _, h => by
    obtain rfl := List.length_eq_zero_iff.1 (Nat.le_zero.1 h)
    simp [scanOnto, hasMore]
  | n + 1, n' + 1, acc, line, h, h' => by
    simp only [scanOnto]
    split_ifs
    · rcases hn : next line with ⟨f | t, rest⟩
      · rfl
      · have hlt := next_shorter hn
        exact scanOnto_enough n n' (t :: acc) rest (by omega) (by omega)
    · rfl

/-- A line is scanned one token at a time, until nothing but white space is left. -/
theorem scan_eq (line : List Glyph) :
    scan line =
      if hasMore line then
        match next line with
        | (.ok t, rest) => ⟨t :: (scan rest).tokens, (scan rest).failure⟩
        | (.error f, _) => ⟨[], some f⟩
      else ⟨[], none⟩ := by
  unfold scan
  rw [scanOnto_enough line.length (line.length + 1) [] line (Nat.le_refl _) (Nat.le_succ _),
    scanOnto]
  split_ifs
  · rcases hn : next line with ⟨f | t, rest⟩
    · rfl
    · have hlt := next_shorter hn
      simp only []
      rw [scanOnto_enough line.length rest.length [t] rest (by omega) (Nat.le_refl _),
        scanOnto_acc rest.length [t]]
      rfl
  · rfl

theorem skip_blank : ∀ (gs line : List Glyph), (∀ g ∈ gs, g.isSpace) →
    skip false (gs ++ line) = skip false line
  | [], _, _ => rfl
  | g :: gs, line, h => by
    rw [List.cons_append, skip, if_pos (h g List.mem_cons_self)]
    exact skip_blank gs line fun g' hg' => h g' (List.mem_cons_of_mem _ hg')

theorem hasMore_of_next {line rest : List Glyph} {t : Token} (h : next line = (.ok t, rest)) :
    hasMore line := by
  by_contra hmore
  have hall : ∀ g ∈ line, g.isSpace := by simpa [hasMore] using hmore
  have hskip := skip_blank line [] hall
  rw [List.append_nil] at hskip
  rw [next_congr hskip] at h
  cases h

/-- Where a call gives a token, the loop goes on behind it. -/
theorem scan_token {line rest : List Glyph} {t : Token} (h : next line = (.ok t, rest)) :
    scan line = ⟨t :: (scan rest).tokens, (scan rest).failure⟩ := by
  rw [scan_eq, if_pos (hasMore_of_next h), h]

/-- The loop over the tokens of a line without any bound: what it gives where it ends. -/
inductive Scans : List Glyph → Scan → Prop
  | ended {line : List Glyph} : hasMore line = false → Scans line ⟨[], none⟩
  | failed {line rest : List Glyph} {f : Failure} : hasMore line → next line = (.error f, rest) →
      Scans line ⟨[], some f⟩
  | token {line rest : List Glyph} {t : Token} {s : Scan} : hasMore line →
      next line = (.ok t, rest) → Scans rest s → Scans line ⟨t :: s.tokens, s.failure⟩

theorem scans_scan (line : List Glyph) : Scans line (scan line) := by
  induction hn : line.length using Nat.strongRecOn generalizing line with
  | ind n ih =>
    subst hn
    rw [scan_eq]
    split_ifs with hm
    · rcases hn : next line with ⟨f | t, rest⟩
      · exact .failed hm hn
      · exact .token hm hn (ih rest.length (next_shorter hn) rest rfl)
    · exact .ended (by simpa using hm)

theorem scans_iff {line : List Glyph} {s : Scan} : Scans line s ↔ s = scan line := by
  refine ⟨fun h => ?_, fun h => h ▸ scans_scan line⟩
  induction h with
  | ended hm => rw [scan_eq, if_neg (by simp [hm])]
  | failed hm hn => rw [scan_eq, if_pos hm, hn]
  | @token line rest t s hm hn _ ih => rw [scan_eq line, if_pos hm, hn, ih]

end Loop

section Words

/-- A text that is read as one word wherever it stands between spaces. -/
structure IsWord (w : Text) : Prop where
  nonempty : w ≠ []
  noSpace : ∀ g ∈ Text.glyphs w, g.isSpace = false
  notLiteral : w ≠ Text.ofString ".\""
  notComment : w ≠ Text.ofString "("

instance (w : Text) : Decidable (IsWord w) :=
  decidable_of_iff (w ≠ [] ∧ (∀ g ∈ Text.glyphs w, g.isSpace = false)
    ∧ w ≠ Text.ofString ".\"" ∧ w ≠ Text.ofString "(")
    ⟨fun ⟨h1, h2, h3, h4⟩ => ⟨h1, h2, h3, h4⟩, fun ⟨h1, h2, h3, h4⟩ => ⟨h1, h2, h3, h4⟩⟩

/-- Words with a space in front of each. -/
def spaced (ws : List Text) : List Glyph := ws.flatMap fun w => .char ' ' :: Text.glyphs w

theorem glyphs_space (t : Text) : Text.glyphs (Text.space :: t) = .char ' ' :: Text.glyphs t :=
  Text.glyphs_cons (by decide) t

theorem glyphs_spaced : ∀ (ws : List Text) (t : Text),
    Text.glyphs (t ++ ws.flatMap fun w => [Text.space] ++ w) = Text.glyphs t ++ spaced ws
  | [], t => by simp [spaced]
  | w :: ws, t => by
    have hs : ¬ IsContinuation Text.space := by simp [IsContinuation, Text.space]
    simp only [List.flatMap_cons, List.cons_append, List.nil_append]
    rw [Text.glyphs_append hs, glyphs_space]
    have ih := glyphs_spaced ws w
    simp only [List.cons_append, List.nil_append] at ih
    rw [ih]
    simp [spaced]

theorem glyphs_join (w : Text) (ws : List Text) :
    Text.glyphs (Text.join [Text.space] (w :: ws)) = Text.glyphs w ++ spaced ws :=
  glyphs_spaced ws w

theorem spaced_head (ws : List Text) : ∀ g, (spaced ws).head? = some g → g.isSpace := by
  intro g hg
  cases ws with
  | nil => simp [spaced] at hg
  | cons w ws =>
    simp only [spaced, List.flatMap_cons, List.cons_append, List.head?_cons,
      Option.some.injEq] at hg
    subst hg
    rfl

theorem glyphs_ne_nil {w : Text} (h : w ≠ []) : Text.glyphs w ≠ [] := by
  intro hg
  apply h
  rw [← Text.bytes_glyphs w, hg]
  rfl

/-- A run without white space goes up to the white space after it. -/
theorem takeWhile_run {gs rest : List Glyph} (hgs : ∀ g ∈ gs, g.isSpace = false)
    (hrest : ∀ g, rest.head? = some g → g.isSpace) :
    (gs ++ rest).takeWhile (fun g => !g.isSpace) = gs
      ∧ (gs ++ rest).dropWhile (fun g => !g.isSpace) = rest := by
  have hall : ∀ g ∈ gs, (!g.isSpace) = true := by
    intro g hg
    rw [hgs g hg]
    rfl
  rw [List.takeWhile_append_of_pos hall, List.dropWhile_append_of_pos hall]
  cases rest with
  | nil => simp
  | cons g rest =>
    have := hrest g rfl
    simp [this]

variable {w : Text} (hw : IsWord w) {rest : List Glyph}
  (hrest : ∀ g, rest.head? = some g → g.isSpace)

include hw in
/-- Only a comment's opening could be passed over at a word. -/
theorem skip_word : skip false (Text.glyphs w ++ rest) = Text.glyphs w ++ rest := by
  have hsp := hw.noSpace
  have hbytes := Text.bytes_glyphs w
  rcases hg : Text.glyphs w with _ | ⟨g, gs⟩
  · exact absurd hg (glyphs_ne_nil hw.nonempty)
  rw [hg] at hsp hbytes
  rw [List.cons_append, skip, if_neg (by simp [hsp g List.mem_cons_self]), if_neg]
  rintro ⟨rfl, hhead⟩
  cases gs with
  | nil =>
    apply hw.notComment
    rw [← hbytes]
    decide
  | cons g' gs =>
    simp only [List.cons_append, List.head?_cons, Option.some.injEq] at hhead
    subst hhead
    have := hsp (.char ' ') (by simp)
    simp [Glyph.isSpace, isSpaceCode] at this

include hw hrest

theorem literal?_word : literal? (Text.glyphs w ++ rest) = none := by
  have hsp := hw.noSpace
  have hbytes := Text.bytes_glyphs w
  have hquote : Glyph.isSpace (.char '"') = false := by decide
  have hspace : Glyph.isSpace (.char ' ') = true := by decide
  unfold literal?
  split
  · rename_i a b c gs heq
    rw [if_neg]
    rintro ⟨rfl, rfl, rfl⟩
    rcases hg : Text.glyphs w with _ | ⟨g, _ | ⟨g', _ | ⟨g'', gs'⟩⟩⟩ <;> rw [hg] at heq hsp hbytes
    · exact glyphs_ne_nil hw.nonempty hg
    · simp only [List.cons_append, List.nil_append, List.cons.injEq] at heq
      have := hrest (.char '"') (by rw [heq.2]; rfl)
      rw [hquote] at this
      cases this
    · simp only [List.cons_append, List.nil_append, List.cons.injEq] at heq
      obtain ⟨rfl, rfl, -⟩ := heq
      apply hw.notLiteral
      rw [← hbytes]
      decide
    · simp only [List.cons_append, List.cons.injEq] at heq
      obtain ⟨-, -, rfl, -⟩ := heq
      have := hsp (.char ' ') (by simp)
      rw [hspace] at this
      cases this
  · rfl

/-- A word is read as it stands, and reading stops at the space after it. -/
theorem next_word : next (Text.glyphs w ++ rest) = (.ok (word w), rest) := by
  obtain ⟨htake, hdrop⟩ := takeWhile_run hw.noSpace hrest
  unfold next
  simp only [skip_word hw, literal?_word hw hrest, htake, hdrop]
  rw [make, if_neg (by simpa using glyphs_ne_nil hw.nonempty), Text.bytes_glyphs]
  rfl

omit hw hrest

theorem next_space (line : List Glyph) : next (.char ' ' :: line) = next line := by
  have hs : Glyph.isSpace (.char ' ') = true := by decide
  exact next_congr (by rw [skip, if_pos hs])

theorem scan_spaced : ∀ ws : List Text, (∀ w ∈ ws, IsWord w) →
    scan (spaced ws) = ⟨ws.map word, none⟩
  | [], _ => by decide
  | w :: ws, h => by
    have hnext : next (spaced (w :: ws)) = (.ok (word w), spaced ws) := by
      rw [show spaced (w :: ws) = .char ' ' :: (Text.glyphs w ++ spaced ws) from rfl, next_space,
        next_word (h w List.mem_cons_self) (spaced_head ws)]
    rw [scan_token hnext, scan_spaced ws fun w' hw' => h w' (List.mem_cons_of_mem _ hw')]
    rfl

theorem scan_join (ws : List Text) (h : ∀ w ∈ ws, IsWord w) :
    scan (Text.glyphs (Text.join [Text.space] ws)) = ⟨ws.map word, none⟩ := by
  cases ws with
  | nil => decide
  | cons w ws =>
    have hnext := next_word (h w List.mem_cons_self) (spaced_head ws)
    rw [glyphs_join, scan_token hnext,
      scan_spaced ws fun w' hw' => h w' (List.mem_cons_of_mem _ hw')]
    rfl

end Words

end LineForth.Token
