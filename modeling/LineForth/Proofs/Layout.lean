import LineForth.Proofs.Dictionary
import LineForth.Proofs.Reachable
import LineForth.Proofs.Writing

/-!
# Definitions over several lines

A definition may be broken into lines between any two of its tokens, as long as the name stays on
the first line, no other line looks as if it opened a definition, and none but the last looks as if
it closed one (`Layout`).  Each line then adds the actions of its own tokens to the definition in
progress, and since the dictionary does not change on the way, the word that is added in the end
has the actions of all the tokens in turn (`Layout.adds`): no layout of the definition can be told
from another.

That the last line does close the definition is not asked for: the final semicolon is on some line,
which then looks as if it closed one.
-/

namespace LineForth

open Token (Row)

section Ends

namespace Token

theorem opensDefinition_blank {gs : List Glyph} (h : ∀ g ∈ gs, g.isSpace) (line : List Glyph) :
    opensDefinition (gs ++ line) = opensDefinition line := by
  unfold opensDefinition
  rw [List.dropWhile_append_of_pos h]

theorem closesDefinition_append {line : List Glyph} (h : closesDefinition line)
    (before : List Glyph) : closesDefinition (before ++ line) := by
  unfold closesDefinition at h ⊢
  rw [List.reverse_append, List.dropWhile_append]
  have h := of_decide_eq_true h
  rcases hrest : line.reverse.dropWhile Glyph.isSpace with _ | ⟨g, rest⟩
  · rw [hrest] at h
    cases h
  · rw [hrest] at h
    simpa using h

variable {gap : Text} {ps : List (Text × Token)} {trail : Text}

theorem row_opens (h : Row.Spaced ⟨(gap, .word (Text.ofString ":")) :: ps, trail⟩) :
    opensDefinition (Text.glyphs (Row.text ⟨(gap, .word (Text.ofString ":")) :: ps, trail⟩)) := by
  have hcolon : Text.glyphs (word (Text.ofString ":")).written = [.char ':'] := by decide
  have hspace : Glyph.isSpace (.char ':') = false := by decide
  rw [h.glyphs_cons, opensDefinition_blank (Text.isBlank_iff.1 (h.gaps _ List.mem_cons_self)),
    hcolon]
  simp [opensDefinition, hspace]

theorem row_closes {r : Row} (h : r.Spaced)
    (hlast : r.tokens.getLast? = some (.word Draft.semicolon)) :
    closesDefinition (Text.glyphs r.text) := by
  obtain ⟨placed, trail⟩ := r
  induction placed with
  | nil => cases hlast
  | cons p ps ih =>
    obtain ⟨gap, t⟩ := p
    rw [h.glyphs_cons]
    refine closesDefinition_append ?_ _
    rcases ps with _ | ⟨p, ps⟩
    · obtain rfl : t = .word Draft.semicolon := Option.some.inj hlast
      have hsemi : Text.glyphs (word Draft.semicolon).written = [.char ';'] := by decide
      have hspace : Glyph.isSpace (.char ';') = false := by decide
      have htrail := Text.isBlank_iff.1 h.trail
      rw [hsemi]
      unfold closesDefinition
      rw [List.reverse_append, List.dropWhile_append_of_pos]
      · simp [hspace]
      · simpa [Row.text] using htrail
    · refine closesDefinition_append (ih h.tail ?_) _
      simpa [Row.tokens] using hlast

end Token

end Ends

namespace Interpreter

/-- The replies to lines that are read in turn. -/
def replies (i : Interpreter) : List Text → List Reply
  | [] => []
  | line :: lines => (i.readLine line).2 :: replies (i.readLine line).1 lines

/-- The lines add one word and do nothing else, and only the last of them is answered. -/
structure Adds (i : Interpreter) (lines : List Text) (name : Text) (code : List Action) : Prop where
  dict : (i.readLines lines).dict = i.dict.add name (.compiled name code)
  stack : (i.readLines lines).stack = i.stack
  mode : (i.readLines lines).toMode = {}
  replies : i.replies lines
    = List.replicate (lines.length - 1) (.answer []) ++ [.answer (Text.ofString "  ok")]

/-- The line goes into the definition `draft` with the tokens `ts`, all of them accepted. -/
def Takes (i : Interpreter) (line : Text) (draft : Draft) (ts : List Token) : Prop :=
  ∃ body, i.Defines (Text.glyphs line) draft body ∧ Token.scan body = ⟨ts, none⟩
    ∧ ∀ t ∈ ts, Draft.rejection i.dict t = none

section Lines

variable {i : Interpreter} {line : Text} {draft : Draft} {ts : List Token}

theorem Takes.effect (h : i.Takes line draft ts) :
    ∃ draft' : Draft, draft'.name = draft.name
      ∧ draft'.code.toList = draft.code.toList ++ Draft.actionsOf i.dict ts
      ∧ (i.readLine line).1.stack = i.stack
      ∧ (i.readLine line).1.dict
        = (if Token.closesDefinition (Text.glyphs line) then draft'.compile i.dict else i.dict)
      ∧ (i.readLine line).1.toMode
        = (if Token.closesDefinition (Text.glyphs line) then {} else ⟨true, some draft'⟩)
      ∧ (i.readLine line).2 = .answer
        (if Token.closesDefinition (Text.glyphs line) then Text.ofString "  ok" else []) := by
  obtain ⟨body, hd, hscan, hts⟩ := h
  have hfailure : Draft.bodyFailure i.dict body = none := by
    unfold Draft.bodyFailure
    rw [hscan]
    simpa [List.findSome?_eq_none_iff] using hts
  have heffect := (readLine_effect i line).of_defines hd hfailure
  rwa [hscan] at heffect

theorem Takes.adds (h : i.Takes line draft ts)
    (hc : Token.closesDefinition (Text.glyphs line)) :
    i.Adds [line] draft.name (draft.code.toList ++ Draft.actionsOf i.dict ts) := by
  obtain ⟨draft', hname, hcode, hstack, hdict, hmode, hreply⟩ := h.effect
  rw [if_pos hc] at hdict hmode hreply
  refine ⟨?_, hstack, hmode, ?_⟩
  · rw [← hname, ← hcode]
    exact hdict
  · rw [Interpreter.replies, hreply]
    rfl

/-- A line in front of others that is not answered and leaves stack and dictionary alone. -/
theorem Adds.cons {lines : List Text} {name : Text} {code : List Action}
    (h : (i.readLine line).1.Adds lines name code) (hne : lines ≠ [])
    (hdict : (i.readLine line).1.dict = i.dict) (hstack : (i.readLine line).1.stack = i.stack)
    (hreply : (i.readLine line).2 = .answer []) : i.Adds (line :: lines) name code where
  dict := by
    rw [← hdict]
    exact h.dict
  stack := h.stack.trans hstack
  mode := h.mode
  replies := by
    have hlength : (line :: lines).length - 1 = lines.length - 1 + 1 := by
      have := List.length_pos_of_ne_nil hne
      simp only [List.length_cons]
      omega
    rw [Interpreter.replies, hreply, h.replies, hlength, List.replicate_succ]
    rfl

end Lines

section Rows

/-- A row that goes on with a definition, in a dictionary that knows its tokens. -/
structure Continues (d : Dictionary) (r : Row) : Prop where
  spaced : r.Spaced
  stays : Token.opensDefinition (Text.glyphs r.text) = false
  tokens : ∀ t ∈ r.tokens, t.Writable ∧ Draft.rejection d t = none

theorem Continues.takes {i : Interpreter} {r : Row} (h : Continues i.dict r) {draft : Draft}
    (hmode : i.toMode = ⟨true, some draft⟩) : i.Takes r.text draft r.tokens := by
  refine ⟨_, .continued h.stays (congrArg Mode.inDefinition hmode)
    (congrArg Mode.current hmode), ?_, fun t ht => (h.tokens t ht).2⟩
  exact Token.scan_row h.spaced fun t ht => (h.tokens t ht).1

/-- Rows that continue a definition, after a line that opens or continues it.  The induction is on
the rows; the dictionary stays the one in which their tokens are accepted. -/
theorem adds_rows : ∀ (rows : List Row) {i : Interpreter} {line : Text} {draft : Draft}
    {ts : List Token}, i.Takes line draft ts → (∀ r ∈ rows, Continues i.dict r) →
    (∀ l ∈ (line :: rows.map Row.text).dropLast, Token.closesDefinition (Text.glyphs l) = false) →
    (∀ l ∈ (line :: rows.map Row.text).getLast?, Token.closesDefinition (Text.glyphs l)) →
    i.Adds (line :: rows.map Row.text) draft.name
      (draft.code.toList ++ Draft.actionsOf i.dict (ts ++ rows.flatMap Row.tokens))
  | [], i, line, draft, ts, h, _, _, hlast => by
    rw [List.flatMap_nil, List.append_nil]
    exact h.adds (hlast line rfl)
  | r :: rows, i, line, draft, ts, h, hrows, hopen, hlast => by
    obtain ⟨draft', hname, hcode, hstack, hdict, hmode, hreply⟩ := h.effect
    have hc : Token.closesDefinition (Text.glyphs line) = false := hopen line (by simp)
    simp only [hc, Bool.false_eq_true, if_false] at hdict hmode hreply
    have hrows' : ∀ r' ∈ r :: rows, Continues (i.readLine line).1.dict r' := by
      rw [hdict]
      exact hrows
    have hrest := adds_rows rows ((hrows' r List.mem_cons_self).takes hmode)
      (fun r' hr' => hrows' r' (List.mem_cons_of_mem _ hr'))
      (fun l hl => hopen l (by simpa using .inr hl))
      (fun l hl => hlast l (by simpa using hl))
    have hactions : Draft.actionsOf i.dict (ts ++ (r :: rows).flatMap Row.tokens)
        = Draft.actionsOf i.dict ts
          ++ Draft.actionsOf i.dict (r.tokens ++ rows.flatMap Row.tokens) := by
      rw [List.flatMap_cons]
      exact List.filterMap_append
    rw [hname, hcode, hdict, List.append_assoc, ← hactions] at hrest
    exact hrest.cons (by simp) hdict hstack hreply

end Rows

end Interpreter

/-- A definition of `name` that is laid out over lines: `:`, the name and the tokens of the body,
in order. -/
structure Layout (name : Text) (body : List Token) where
  first : Row
  later : List Row
  spaced : ∀ r ∈ first :: later, r.Spaced
  tokens : (first :: later).flatMap Row.tokens
    = .word (Text.ofString ":") :: .word name :: body
  named : 2 ≤ first.tokens.length
  stays : ∀ r ∈ later, Token.opensDefinition (Text.glyphs r.text) = false
  unfinished : ∀ r ∈ (first :: later).dropLast, Token.closesDefinition (Text.glyphs r.text) = false

namespace Layout

variable {name : Text} {body : List Token} (L : Layout name body)

def lines : List Text := (L.first :: L.later).map Row.text

/-- The first row holds the colon, the name and then some tokens of the body. -/
theorem first_placed : ∃ gap gap' ps trail,
    L.first = ⟨(gap, .word (Text.ofString ":")) :: (gap', .word name) :: ps, trail⟩
      ∧ ps.map Prod.snd ++ L.later.flatMap Row.tokens = body := by
  obtain ⟨⟨placed, trail⟩, later, -, htokens, hnamed, -, -⟩ := L
  rcases placed with _ | ⟨⟨gap, t⟩, _ | ⟨⟨gap', t'⟩, ps⟩⟩
  · simp [Row.tokens] at hnamed
  · simp [Row.tokens] at hnamed
  · simp only [Row.tokens, List.flatMap_cons, List.map_cons, List.cons_append,
      List.cons.injEq] at htokens
    obtain ⟨rfl, rfl, hbody⟩ := htokens
    exact ⟨gap, gap', ps, trail, rfl, hbody⟩

/-- Some row ends in the final semicolon, so it is the last: no row before that looks as if it closed
the definition. -/
theorem last_closes (hbody : body.getLast? = some (.word Draft.semicolon)) :
    ∀ l ∈ L.lines.getLast?, Token.closesDefinition (Text.glyphs l) := by
  have hlast : ((L.first :: L.later).flatMap Row.tokens).getLast?
      = some (.word Draft.semicolon) := by
    rw [L.tokens]
    simp [List.getLast?_cons, hbody]
  rw [List.getLast?_flatMap] at hlast
  obtain ⟨r, hr, hsemi⟩ := List.exists_of_findSome?_eq_some hlast
  have hr : r ∈ L.first :: L.later := List.mem_reverse.1 hr
  have hcloses := Token.row_closes (L.spaced r hr) hsemi
  intro l hl
  rw [lines, List.getLast?_map, Option.mem_def] at hl
  obtain ⟨r', hr', rfl⟩ := Option.map_eq_some_iff.1 hl
  rcases List.mem_append.1 (List.dropLast_append_getLast? r' hr' ▸ hr) with hr | hr
  · rw [L.unfinished r hr] at hcloses
    cases hcloses
  · rwa [List.mem_singleton.1 hr] at hcloses

theorem heading_first {gap gap' trail : Text} {ps : List (Text × Token)}
    (h : Row.Spaced ⟨(gap, .word (Text.ofString ":")) :: (gap', .word name) :: ps, trail⟩)
    (hname : Token.IsWord name) :
    Interpreter.heading (Text.glyphs
        (Row.text ⟨(gap, .word (Text.ofString ":")) :: (gap', .word name) :: ps, trail⟩))
      = .ok (name, Text.glyphs (Row.text ⟨ps, trail⟩)) := by
  have hcolon : (Token.word (Text.ofString ":")).Writable := by decide
  unfold Interpreter.heading
  rw [Token.next_row h hcolon]
  simp only []
  rw [Token.next_row h.tail (t := .word name) hname]
  rfl

theorem adds {i : Interpreter} (hname : Token.IsWord name)
    (hbody : ∀ t ∈ body, t.Writable ∧ Draft.rejection i.dict t = none)
    (hlast : body.getLast? = some (.word Draft.semicolon)) :
    i.Adds L.lines name (Draft.actionsOf i.dict body) := by
  obtain ⟨gap, gap', ps, trail, hfirst, hsplit⟩ := L.first_placed
  have hspaced := L.spaced L.first List.mem_cons_self
  rw [hfirst] at hspaced
  have hps : ∀ t ∈ ps.map Prod.snd, t.Writable ∧ Draft.rejection i.dict t = none :=
    fun t ht => hbody t (hsplit ▸ List.mem_append_left _ ht)
  have htakes : i.Takes L.first.text { name } (ps.map Prod.snd) := by
    rw [hfirst]
    exact ⟨_, .opened (Token.row_opens hspaced) (heading_first hspaced hname),
      Token.scan_row hspaced.tail.tail fun t ht => (hps t ht).1, fun t ht => (hps t ht).2⟩
  have hlater : ∀ r ∈ L.later, Interpreter.Continues i.dict r := by
    refine fun r hr => ⟨L.spaced r (List.mem_cons_of_mem _ hr), L.stays r hr, fun t ht => ?_⟩
    exact hbody t (hsplit ▸ List.mem_append_right _ (List.mem_flatMap.2 ⟨r, hr, ht⟩))
  have hopen : ∀ l ∈ L.lines.dropLast, Token.closesDefinition (Text.glyphs l) = false := by
    intro l hl
    rw [lines, ← List.map_dropLast] at hl
    obtain ⟨r, hr, rfl⟩ := List.mem_map.1 hl
    exact L.unfinished r hr
  have hadds := Interpreter.adds_rows L.later htakes hlater hopen (L.last_closes hlast)
  rwa [hsplit] at hadds

end Layout

/-- A definition is the same however it is laid out over lines: the same word is added, the stack
stays as it is, and no line is answered but the last. -/
theorem layout_immaterial {i : Interpreter} {name : Text} {body : List Token}
    (hname : Token.IsWord name)
    (hbody : ∀ t ∈ body, t.Writable ∧ Draft.rejection i.dict t = none)
    (hlast : body.getLast? = some (.word Draft.semicolon)) (L L' : Layout name body) :
    (i.readLines L.lines).dict = (i.readLines L'.lines).dict
      ∧ (∃ e, (i.readLines L.lines).dict.entries = e :: i.dict.entries
        ∧ (i.readLines L.lines).dict.nameOf e = Text.fold name
        ∧ e.meaning = .compiled name (Draft.actionsOf i.dict body))
      ∧ ∀ M ∈ [L, L'], (i.readLines M.lines).stack = i.stack
        ∧ (i.readLines M.lines).inDefinition = false
        ∧ i.replies M.lines = List.replicate (M.lines.length - 1) (.answer [])
          ++ [.answer (Text.ofString "  ok")] := by
  have hadds : ∀ M : Layout name body, i.Adds M.lines name (Draft.actionsOf i.dict body) :=
    fun M => M.adds hname hbody hlast
  refine ⟨(hadds L).dict.trans (hadds L').dict.symm, ?_, fun M _ => ?_⟩
  · rw [(hadds L).dict]
    exact ⟨_, Dictionary.add_entries _ _ _, Dictionary.nameOf_fresh _ _ _, rfl⟩
  · exact ⟨(hadds M).stack, congrArg Mode.inDefinition (hadds M).mode, (hadds M).replies⟩

/-- On one line or on four, one of them blank, while another definition is still open. -/
theorem layout_immaterial_quad :
    let i := (Session.new []).core.readLines
      [Text.ofString ": double dup + ;", Text.ofString ": half 2"]
    let lines := [" : quad double ; .\" a;b\" DOUBLE ;"].map Text.ofString
    let lines' := [" : quad double ; .\" a;b\"", " ", " DOUBLE", " ;"].map Text.ofString
    i.inDefinition ∧ (i.readLines lines).dict = (i.readLines lines').dict
      ∧ i.replies lines'
        = [.answer [], .answer [], .answer [], .answer (Text.ofString "  ok")] := by
  intro i lines lines'
  let opening : List Token := [.word (Text.ofString ":"), .word (Text.ofString "quad"),
    .word (Text.ofString "double"), .word Draft.semicolon, .string (Text.ofString "a;b")]
  let double : Token := .word (Text.ofString "DOUBLE")
  let close : Token := .word Draft.semicolon
  let L : Layout (Text.ofString "quad") ((opening ++ [double, close]).drop 2) :=
    { first := .plain (opening ++ [double, close])
      later := []
      spaced := by decide
      tokens := by decide
      named := by decide
      stays := by decide
      unfinished := by decide }
  let L' : Layout (Text.ofString "quad") ((opening ++ [double, close]).drop 2) :=
    { first := .plain opening
      later := [⟨[], [Text.space]⟩, .plain [double], .plain [close]]
      spaced := by decide
      tokens := by decide
      named := by decide
      stays := by decide
      unfinished := by decide }
  have hlines : L.lines = lines := by decide
  have hlines' : L'.lines = lines' := by decide
  have hname : Token.IsWord (Text.ofString "quad") := by decide
  obtain ⟨hdict, -, hall⟩ := layout_immaterial (i := i) hname (by decide +kernel) (by decide) L L'
  obtain ⟨-, -, hreplies⟩ := hall L' (by simp)
  rw [hlines, hlines'] at hdict
  rw [hlines'] at hreplies
  exact ⟨by decide +kernel, hdict, hreplies⟩

end LineForth
