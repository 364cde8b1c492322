import LineForth.Proofs.Layout
import LineForth.Proofs.Modes
import LineForth.Proofs.Naming

/-!
# The closing semicolon

A definition ends where its last character is a semicolon, and the semicolon is a token of its body
like any other: it adds nothing unless there is a word of that name, which is then called last.  So
the code of a definition is that of the tokens in front of the closing semicolon, followed by that
call if there is one (`closing_semicolon`), and running the word runs this code.
-/

namespace LineForth

namespace Token

section Last

variable {t : Text} {line rest : List Glyph}

/-- A semicolon that is read as a word stands right in front of what is left. -/
theorem skip_of_semicolon (hline : line <:+ Text.glyphs t)
    (h : next line = (.ok (.word Draft.semicolon), rest)) :
    skip false line = .char ';' :: rest := by
  have hskip := (skip_suffix line false).trans hline
  unfold next at h
  simp only [] at h
  generalize skip false line = gs at h hskip
  split at h
  · obtain ⟨-, hmake⟩ := make_ok (congrArg Prod.fst h)
    exact absurd (congrArg Token.quoted hmake) Bool.false_ne_true
  · obtain ⟨hmake, rfl⟩ := Prod.mk.inj h
    obtain ⟨-, htext⟩ := make_ok hmake
    have hbytes : Text.bytes (gs.takeWhile (!·.isSpace)) = [0x3B] :=
      (congrArg Token.text htext).symm
    have hrest := Text.glyphs_suffix t ((List.dropWhile_suffix (!·.isSpace)).trans hskip)
    calc gs = Text.glyphs (Text.bytes gs) := (Text.glyphs_suffix t hskip).symm
      _ = Text.glyphs (0x3B :: Text.bytes (gs.dropWhile (!·.isSpace))) := by
        rw [← List.singleton_append, ← hbytes, ← Text.bytes_append,
          List.takeWhile_append_dropWhile]
      _ = .char ';' :: gs.dropWhile (!·.isSpace) := by
        rw [Text.glyphs_cons (by decide), hrest]
        rfl

/-- A line whose last token is a semicolon closes definitions. -/
theorem closes_of_last {s : Scan} (h : Scans line s) (hline : line <:+ Text.glyphs t)
    (hfailure : s.failure = none) (hlast : s.tokens.getLast? = some (.word Draft.semicolon)) :
    closesDefinition line := by
  induction h with
  | ended => cases hlast
  | failed => cases hfailure
  | @token line rest u s _ hn hs ih =>
    have hrest : rest <:+ line := by
      have := next_suffix line
      rwa [hn] at this
    rcases hts : s.tokens with _ | ⟨u', ts⟩
    · obtain rfl : u = .word Draft.semicolon := by simpa [hts] using hlast
      have hblank : ∀ g ∈ rest, g.isSpace := by
        cases hs with
        | ended hm => simpa [hasMore] using hm
        | failed => cases hfailure
        | token => cases hts
      obtain ⟨front, hfront⟩ := skip_suffix line false
      rw [← hfront, skip_of_semicolon hline hn]
      refine closesDefinition_append ?_ front
      have hspace : Glyph.isSpace (.char ';') = false := by decide
      unfold closesDefinition
      rw [List.reverse_cons, List.dropWhile_append_of_pos (by simpa using hblank)]
      simp [hspace]
    · obtain ⟨front, hfront⟩ := hrest
      rw [← hfront]
      refine closesDefinition_append (ih ?_ hfailure ?_) front
      · exact (List.suffix_append front rest).trans (hfront ▸ hline)
      · rw [hts]
        simpa [hts] using hlast

end Last

end Token

namespace Interpreter

/-- The call that a semicolon stands for where there is a word of that name. -/
def closingCall (d : Dictionary) : List Action :=
  ((d.lookup Draft.semicolon).map fun e => Action.call Draft.semicolon e.address).toList

section Code

variable {i : Interpreter} {line : List Glyph}

theorem actionOf_semicolon (hi : i.Sound) :
    (Draft.actionOf i.dict (.word Draft.semicolon)).toList = closingCall i.dict := by
  rcases he : i.dict.lookup Draft.semicolon with _ | e
  · simp [closingCall, Draft.actionOf, Draft.resolve, Token.word, he, ofText?_semicolon]
  · have hmarker : e.meaning.marker? = none := by
      rcases hm : e.meaning with k | p | w | ⟨name, code⟩
      · have hname := fold_eq_marker hi he hm
        cases k <;> exact absurd hname (by decide)
      · rfl
      · rfl
      · rfl
    have hfold : Text.fold Draft.semicolon = Draft.semicolon := by decide
    simp [closingCall, Draft.actionOf, Draft.resolve, Token.word, he, hmarker, hfold]

theorem actionsOf_concat (d : Dictionary) (ts : List Token) (t : Token) :
    Draft.actionsOf d (ts ++ [t]) = Draft.actionsOf d ts ++ (Draft.actionOf d t).toList := by
  rw [Draft.actionsOf, List.filterMap_append]
  rcases ha : Draft.actionOf d t with _ | a <;> simp [Draft.actionsOf, ha]

theorem heading_suffix {name : Text} {body : List Glyph} (h : heading line = .ok (name, body)) :
    body <:+ line := by
  have hfirst := Token.next_suffix line
  unfold heading at h
  split at h
  · cases h
  · rename_i rest hn
    rw [hn] at hfirst
    have hsecond := Token.next_suffix rest
    split at h
    · cases h
    · rename_i hn'
      obtain ⟨-, rfl⟩ := Prod.mk.inj (Except.ok.inj h)
      rw [hn'] at hsecond
      exact hsecond.trans hfirst

theorem bodyOf_suffix {body : List Glyph} (h : bodyOf line = .ok body) : body <:+ line := by
  unfold bodyOf at h
  split_ifs at h
  · rcases hh : heading line with f | ⟨name, rest⟩ <;> rw [hh] at h
    · cases h
    · obtain rfl := Except.ok.inj h
      exact heading_suffix hh
  · obtain rfl := Except.ok.inj h
    exact List.suffix_rfl

/-- A definition line that ends with a semicolon closes the definition. -/
theorem closes_of_semicolon {line : Text} {d : Dictionary}
    (hf : lineFailure d (Text.glyphs line) = none)
    (hlast : (bodyTokens (Text.glyphs line)).getLast? = some (.word Draft.semicolon)) :
    Token.closesDefinition (Text.glyphs line) := by
  unfold lineFailure at hf
  unfold bodyTokens at hlast
  rcases hb : bodyOf (Text.glyphs line) with f | body
  · rw [hb] at hf
    cases hf
  · rw [hb] at hf hlast
    obtain ⟨front, hfront⟩ := bodyOf_suffix hb
    have hfailure : (Token.scan body).failure = none := (Option.or_eq_none_iff.1 hf).2
    have hcloses : Token.closesDefinition body :=
      Token.closes_of_last (Token.scans_scan body) (bodyOf_suffix hb) hfailure hlast
    rw [← hfront]
    exact Token.closesDefinition_append hcloses front

/-- The tokens of lines end with that of the last one. -/
theorem tokens_last {lines : List Text} {line : Text} {t : Token}
    (hlines : lines.getLast? = some line)
    (hlast : (bodyTokens (Text.glyphs line)).getLast? = some t) :
    ∃ body, lines.flatMap (fun l => bodyTokens (Text.glyphs l)) = body ++ [t] := by
  refine ⟨lines.dropLast.flatMap (fun l => bodyTokens (Text.glyphs l))
    ++ (bodyTokens (Text.glyphs line)).dropLast, ?_⟩
  rw [List.append_assoc, List.dropLast_append_getLast? _ hlast]
  nth_rewrite 1 [← List.dropLast_append_getLast? line hlines]
  rw [List.flatMap_append, List.flatMap_singleton]

theorem Writes.code_of_tokens {d : Dictionary} {opening name : Text} {after : List Text}
    {code : List Action} (h : Writes d opening after name code) :
    code = Draft.actionsOf d
      ((opening :: after).flatMap fun l => bodyTokens (Text.glyphs l)) := by
  rw [h.code_eq, Draft.actionsOf, List.filterMap_flatMap]
  rfl

end Code

end Interpreter

open Interpreter in
/-- A line that ends with the token `;` closes the definition in progress.  The code of the new word
is that of the tokens in front of this one, and one more call if there is a word named `;`; running
the word runs this code. -/
theorem closing_semicolon (trees : List SettingTree) (listing : Stack → Text) (past : List Text)
    (line : Text) :
    let i := (Session.new trees listing).core.readLines past
    let i' := (i.readLine line).1
    Token.opensDefinition (Text.glyphs line) ∨ i.inDefinition →
    lineFailure i.dict (Text.glyphs line) = none →
    (bodyTokens (Text.glyphs line)).getLast? = some (.word Draft.semicolon) →
    (i.readLine line).2 = .answer (Text.ofString "  ok") ∧ i'.inDefinition = false
      ∧ ∃ before opening after name body e code,
        past ++ [line] = before ++ opening :: after
        ∧ Token.opensDefinition (Text.glyphs opening)
        ∧ (∀ l ∈ after, Token.opensDefinition (Text.glyphs l) = false)
        ∧ (∃ rest, heading (Text.glyphs opening) = .ok (name, rest))
        ∧ (opening :: after).flatMap (fun l => bodyTokens (Text.glyphs l))
          = body ++ [.word Draft.semicolon]
        ∧ i'.dict.entries = e :: i.dict.entries ∧ i'.dict.nameOf e = Text.fold name
        ∧ e.meaning = .compiled name code
        ∧ code = Draft.actionsOf i.dict body ++ closingCall i.dict
        ∧ ∀ m, i'.dict.run e.address m = runCompiled i.dict.run name code m := by
  intro i i' hdef hf hlast
  have hsound : i.Sound := Reachable.sound ⟨trees, listing, past, rfl⟩
  have hline := (readLine_effect i line).definitionLine (readLines_written trees listing past)
    hsound.coherent hdef
  obtain ⟨hmode, hreply, name, code, e, hwritten, -, hentries, hname, hmeaning⟩ :=
    hline.compiled hf (closes_of_semicolon hf hlast)
  obtain ⟨before, opening, after, hpast, hw⟩ := hwritten
  have hend : (opening :: after).getLast? = some line := by
    have := congrArg List.getLast? hpast
    rw [List.getLast?_concat, List.getLast?_append_cons] at this
    exact this.symm
  obtain ⟨body, hbody⟩ := tokens_last hend hlast
  refine ⟨hreply, congrArg Mode.inDefinition hmode, before, opening, after, name, body, e, code,
    hpast, hw.opens, hw.stays, hw.named, hbody, hentries, hname, hmeaning, ?_, fun m => ?_⟩
  · rw [← actionOf_semicolon hsound, ← actionsOf_concat, ← hbody]
    exact hw.code_of_tokens
  · rw [Dictionary.run, hentries, runAt_cons_self, hmeaning]
    rfl

open Interpreter in
/-- The last of two lines is nothing but the semicolon, after a word of that name was defined. -/
theorem closing_semicolon_called :
    let past := [Text.ofString ": ; 1 ;", Text.ofString ": a 2"]
    let line := Text.ofString ";"
    let i := (Session.new []).core.readLines past
    i.inDefinition ∧ lineFailure i.dict (Text.glyphs line) = none
      ∧ (bodyTokens (Text.glyphs line)).getLast? = some (.word Draft.semicolon)
      ∧ (closingCall i.dict).length = 1
      ∧ ∃ name body e, (i.readLine line).1.dict.entries = e :: i.dict.entries
        ∧ e.meaning = .compiled name (Draft.actionsOf i.dict body ++ closingCall i.dict) := by
  intro past line i
  have hdef : ((Session.new []).core.readLines past).inDefinition := by decide +kernel
  have hf : lineFailure i.dict (Text.glyphs line) = none := by decide +kernel
  have hlast : (bodyTokens (Text.glyphs line)).getLast? = some (.word Draft.semicolon) := by
    decide +kernel
  have hcall : (closingCall i.dict).length = 1 := by decide +kernel
  obtain ⟨-, -, _, _, _, name, body, e, code, -, -, -, -, -, hentries, -, hmeaning, hcode, -⟩ :=
    closing_semicolon [] Stack.listing past line (.inr hdef) hf hlast
  rw [hcode] at hmeaning
  simp only [i]
  exact ⟨hdef, hf, hlast, hcall, name, body, e, hentries, hmeaning⟩

open Interpreter in
/-- Where there is a word named `;`, the closing semicolon calls it. -/
theorem semicolon_called_last :
    let i := (Session.new []).core.readLines [Text.ofString ": ; 1 ;"]
    let line := Text.ofString ": a 2 ;"
    let i' := (i.readLine line).1
    lineFailure i.dict (Text.glyphs line) = none
      ∧ bodyTokens (Text.glyphs line) = [.word (Text.ofString "2"), .word Draft.semicolon]
      ∧ Draft.actionsOf i.dict [.word (Text.ofString "2")] = [.push 2]
      ∧ i'.dict.entries.head?.map (·.meaning)
        = some (.compiled (Text.ofString "a") (.push 2 :: closingCall i.dict))
      ∧ closingCall i.dict ≠ []
      ∧ (i'.readLine (Text.ofString "a")).1.stack.values = [2, 1] := by
  decide +kernel

end LineForth
