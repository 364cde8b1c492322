import Mathlib.Data.List.Induction
import LineForth.Proofs.Dictionary
import LineForth.Proofs.Reachable

/-!
# The two modes

Whether a definition is open and the definition itself are set apart from each other, and still
agree after every line, however it ended.  A line that opens a definition, or comes while one is
open, goes into the definition: it does nothing to the stack and it cannot break off.  What becomes
of it is decided by its tokens and its last character (`DefinitionLine`): a token that is rejected
ends the definition and leaves no trace of it, a line without a closing semicolon is waited on, and
one with it adds a single word.  Any other line runs, and does nothing to the dictionary or the mode
(`ImmediateLine`).

A definition is written over many lines, and the dictionary stands still while it is.  So the code
of the definition in progress is that of all its lines so far, each read against the present
dictionary (`readLines_written`), and this is the code of the word when it is added.
-/

namespace LineForth

open Dictionary

namespace Interpreter

section Body

/-- The part of a line that goes into a definition: all of it, or what follows the name. -/
def bodyOf (line : List Glyph) : Except Failure (List Glyph) :=
  if Token.opensDefinition line then (heading line).map Prod.snd else .ok line

/-- The first failure of a line that goes into a definition. -/
def lineFailure (d : Dictionary) (line : List Glyph) : Option Failure :=
  match bodyOf line with
  | .error f => some f
  | .ok body => Draft.bodyFailure d body

def bodyTokens (line : List Glyph) : List Token :=
  match bodyOf line with
  | .error _ => []
  | .ok body => (Token.scan body).tokens

variable {i : Interpreter} {line body : List Glyph} {draft : Draft}

theorem Defines.bodyOf_eq (h : i.Defines line draft body) : bodyOf line = .ok body := by
  cases h with
  | opened ho hh =>
    rw [bodyOf, if_pos ho, hh]
    rfl
  | continued ho => rw [bodyOf, if_neg (by simp [ho])]

theorem Defines.lineFailure_eq (h : i.Defines line draft body) (d : Dictionary) :
    lineFailure d line = Draft.bodyFailure d body := by
  simp only [lineFailure, h.bodyOf_eq]

theorem Defines.bodyTokens_eq (h : i.Defines line draft body) :
    bodyTokens line = (Token.scan body).tokens := by
  simp only [bodyTokens, h.bodyOf_eq]

theorem lineFailure_nameless {f : Failure} (ho : Token.opensDefinition line)
    (hh : heading line = .error f) (d : Dictionary) : lineFailure d line = some f := by
  have hbody : bodyOf line = .error f := by
    rw [bodyOf, if_pos ho, hh]
    rfl
  simp only [lineFailure, hbody]

end Body

section Written

/-- `opening` opens a definition of `name`, the lines after it open no other, all their tokens are
accepted, and `code` is what they stand for, one after the other. -/
structure Writes (d : Dictionary) (opening : Text) (after : List Text) (name : Text)
    (code : List Action) : Prop where
  opens : Token.opensDefinition (Text.glyphs opening)
  named : ∃ body, heading (Text.glyphs opening) = .ok (name, body)
  stays : ∀ line ∈ after, Token.opensDefinition (Text.glyphs line) = false
  accepted : ∀ line ∈ opening :: after, lineFailure d (Text.glyphs line) = none
  code_eq : code
    = (opening :: after).flatMap fun line => Draft.actionsOf d (bodyTokens (Text.glyphs line))

/-- The lines since the last opening one write the definition. -/
def Written (d : Dictionary) (past : List Text) (name : Text) (code : List Action) : Prop :=
  ∃ before opening after, past = before ++ opening :: after ∧ Writes d opening after name code

theorem Writes.concat {d : Dictionary} {opening line name : Text} {after : List Text}
    {code : List Action} (h : Writes d opening after name code)
    (ho : Token.opensDefinition (Text.glyphs line) = false)
    (hf : lineFailure d (Text.glyphs line) = none) :
    Writes d opening (after ++ [line]) name
      (code ++ Draft.actionsOf d (bodyTokens (Text.glyphs line))) where
  opens := h.opens
  named := h.named
  stays := by
    intro l hl
    rcases List.mem_append.1 hl with hl | hl
    · exact h.stays l hl
    · rw [List.mem_singleton.1 hl]
      exact ho
  accepted := by
    intro l hl
    rw [← List.cons_append] at hl
    rcases List.mem_append.1 hl with hl | hl
    · exact h.accepted l hl
    · rw [List.mem_singleton.1 hl]
      exact hf
  code_eq := by
    rw [h.code_eq, ← List.cons_append, List.flatMap_append]
    simp

/-- The definition in progress is the one that the last lines write. -/
def Drafted (past : List Text) (i : Interpreter) : Prop :=
  ∀ draft, i.current = some draft → Written i.dict past draft.name draft.code.toList

theorem Drafted.defines {past : List Text} {i : Interpreter} (h : Drafted past i) {line : Text}
    {draft draft' : Draft} {body : List Glyph} (hd : i.Defines (Text.glyphs line) draft body)
    (hf : Draft.bodyFailure i.dict body = none) (hname : draft'.name = draft.name)
    (hcode : draft'.code.toList
      = draft.code.toList ++ Draft.actionsOf i.dict (Token.scan body).tokens) :
    Written i.dict (past ++ [line]) draft'.name draft'.code.toList := by
  have hfail := hd.lineFailure_eq i.dict
  rw [hcode, hname, ← hd.bodyTokens_eq]
  rw [hf] at hfail
  cases hd with
  | opened ho hh =>
    refine ⟨past, line, [], rfl, ho, ⟨body, hh⟩, by simp, ?_, by simp⟩
    intro l hl
    rw [List.mem_singleton.1 hl]
    exact hfail
  | continued ho _ hdraft =>
    obtain ⟨before, opening, after, rfl, hw⟩ := h draft hdraft
    exact ⟨before, opening, after ++ [line], by simp, hw.concat ho hfail⟩

theorem drafted_of_closed {past : List Text} {i : Interpreter} (h : i.toMode = {}) :
    Drafted past i := by
  intro draft hdraft
  rw [h] at hdraft
  cases hdraft

theorem Drafted.of_effect {past : List Text} {i i' : Interpreter} (h : Drafted past i)
    (hi : i.toMode.Coherent) {line : Text} {s : Stack} {d : Dictionary} {mode : Mode}
    {reply : Reply} (he : i.Effect (Text.glyphs line) s d mode reply) (hdict : i'.dict = d)
    (hmode : i'.toMode = mode) : Drafted (past ++ [line]) i' := by
  cases he with
  | nameless | rejected | compiled | noDraftFailed => exact drafted_of_closed hmode
  | continued hd hf _ hname hcode =>
    intro draft hdraft
    rw [hmode] at hdraft
    obtain rfl := Option.some.inj hdraft
    rw [hdict]
    exact h.defines hd hf hname hcode
  | ran _ hout => exact drafted_of_closed (hmode.trans (hi.closed hout))
  | noDraft _ hin hnone => exact absurd hnone (hi.not_missing hin)

theorem readLines_written (trees : List SettingTree) (listing : Stack → Text)
    (past : List Text) : Drafted past ((Session.new trees listing).core.readLines past) := by
  induction past using List.reverseRecOn with
  | nil => exact drafted_of_closed (new_mode trees listing)
  | append_singleton past line ih =>
    have hi : Reachable ((Session.new trees listing).core.readLines past) :=
      ⟨trees, listing, past, rfl⟩
    rw [readLines_concat]
    exact ih.of_effect hi.coherent (readLine_effect _ line) rfl rfl

end Written

section Lines

variable (past : List Text) (i : Interpreter) (line : Text) (s : Stack) (d : Dictionary)
  (mode : Mode) (reply : Reply)

/-- What a line does that belongs to a definition. -/
structure DefinitionLine : Prop where
  stack : s = i.stack
  answered : ∃ response, reply = .answer response
  rejected : ∀ f, lineFailure i.dict (Text.glyphs line) = some f →
    mode = {} ∧ d = i.dict ∧ reply = .answer (Text.space :: f.message)
  continued : lineFailure i.dict (Text.glyphs line) = none →
    Token.closesDefinition (Text.glyphs line) = false →
    d = i.dict ∧ reply = .answer []
      ∧ ∃ draft, mode = ⟨true, some draft⟩
        ∧ Written i.dict (past ++ [line]) draft.name draft.code.toList
  compiled : lineFailure i.dict (Text.glyphs line) = none →
    Token.closesDefinition (Text.glyphs line) →
    mode = {} ∧ reply = .answer (Text.ofString "  ok")
      ∧ ∃ name code e, Written i.dict (past ++ [line]) name code
        ∧ d = i.dict.add name (.compiled name code) ∧ d.entries = e :: i.dict.entries
        ∧ d.nameOf e = Text.fold name ∧ e.meaning = .compiled name code

/-- What any other line does.  The tokens run in turn, from a machine with the present stack; the
first that does not end well is the last to run, and what it did before it ended stays done. -/
structure ImmediateLine : Prop where
  dict : d = i.dict
  mode : mode = i.toMode
  runs : ∃ m ran left m' out, m.stack = i.stack
    ∧ (Token.scan (Text.glyphs line)).tokens = ran ++ left
    ∧ runTokens i.dict ran m = (m', .done out)
    ∧ (left = [] ∧ s = m'.stack
        ∧ reply = .ofOutcome (.done out) (Token.scan (Text.glyphs line)).failure
      ∨ ∃ t rest, left = t :: rest ∧ (∀ u, (execute i.dict t m').2 ≠ .done u)
        ∧ s = (execute i.dict t m').1.stack ∧ reply = .ofOutcome (execute i.dict t m').2 none)

end Lines

section Immediate

/-- Tokens run up to the first that does not end well, whose end is then the end of them all. -/
theorem runTokens_split (d : Dictionary) : ∀ (ts : List Token) (m : Machine),
    ∃ ran left m' out, ts = ran ++ left ∧ runTokens d ran m = (m', .done out)
      ∧ (left = [] ∧ runTokens d ts m = (m', .done out)
        ∨ ∃ t rest, left = t :: rest ∧ (∀ u, (execute d t m').2 ≠ .done u)
          ∧ runTokens d ts m = ((execute d t m').1, (execute d t m').2.after []))
  | [], m => ⟨[], [], m, [], rfl, rfl, .inl ⟨rfl, rfl⟩⟩
  | t :: ts, m => by
    rcases ht : execute d t m with ⟨m₁, piece | ⟨piece, f⟩ | ⟨word, place⟩⟩
    · obtain ⟨ran, left, m', out, hts, hran, hend⟩ := runTokens_split d ts m₁
      refine ⟨t :: ran, left, m', piece ++ out, by rw [hts]; rfl, ?_, ?_⟩
      · rw [runTokens, ht, andThen_done, hran]
        rfl
      · rcases hend with ⟨hleft, hall⟩ | ⟨t', rest, hleft, hbad, hall⟩
        · refine .inl ⟨hleft, ?_⟩
          rw [runTokens, ht, andThen_done, hall]
          rfl
        · refine .inr ⟨t', rest, hleft, hbad, ?_⟩
          rw [runTokens, ht, andThen_done, hall]
          rcases ho : (execute d t' m').2 with u | ⟨u, f⟩ | ⟨word, place⟩
          · exact absurd ho (hbad u)
          · rfl
          · rfl
    · refine ⟨[], t :: ts, m, [], rfl, rfl, .inr ⟨t, ts, rfl, ?_, ?_⟩⟩
      · simp [ht]
      · rw [runTokens, ht]
        rfl
    · refine ⟨[], t :: ts, m, [], rfl, rfl, .inr ⟨t, ts, rfl, ?_, ?_⟩⟩
      · simp [ht]
      · rw [runTokens, ht]
        rfl

theorem ofOutcome_cut {o : Outcome} (ho : ∀ u, o ≠ .done u) (cut : Option Failure) :
    Reply.ofOutcome o cut = .ofOutcome o none := by
  cases o with
  | done u => exact absurd rfl (ho u)
  | failed u f => rfl
  | broke word place => rfl

theorem ofFailure_ne (f : Failure) : Reply.ofFailure f ≠ .answer [] := by
  unfold Reply.ofFailure
  split_ifs <;> simp

theorem ofOutcome_ne (o : Outcome) (cut : Option Failure) :
    Reply.ofOutcome o cut ≠ .answer [] := by
  rcases o with out | ⟨out, f⟩ | ⟨word, place⟩
  · cases cut with
    | none => simp [Reply.ofOutcome, okAnswer]
    | some f => exact ofFailure_ne f
  · exact ofFailure_ne f
  · simp [Reply.ofOutcome]

end Immediate

section Effects

variable {past : List Text} {i : Interpreter} {line : Text} {s : Stack} {d : Dictionary}
  {mode : Mode} {reply : Reply}

theorem Effect.answer_nil (he : i.Effect (Text.glyphs line) s d mode reply) (response : Text)
    (hr : reply = .answer response) : response = [] ↔ mode.inDefinition := by
  cases he with
  | nameless | rejected | noDraftFailed =>
    obtain rfl := Reply.answer.inj hr
    simp
  | continued =>
    obtain rfl := Reply.answer.inj hr
    simp
  | compiled =>
    obtain rfl := Reply.answer.inj hr
    have hok : Text.ofString "  ok" ≠ [] := by decide
    simp [hok]
  | ran _ hout =>
    have hne : response ≠ [] := by
      rintro rfl
      exact ofOutcome_ne _ _ hr
    simp [hne, hout]
  | noDraft _ hin _ hreply =>
    rcases hreply with hreply | hreply <;> rw [hreply] at hr
    · obtain rfl := Reply.answer.inj hr
      simp [hin]
    · cases hr

/-- A failure in a definition leaves everything as it was before the definition. -/
theorem DefinitionLine.of_failure {f : Failure}
    (hfail : lineFailure i.dict (Text.glyphs line) = some f) :
    DefinitionLine past i line i.stack i.dict {} (.answer (Text.space :: f.message)) := by
  refine ⟨rfl, ⟨_, rfl⟩, fun g hg => ?_, fun hg => ?_, fun hg => ?_⟩ <;> rw [hfail] at hg
  · obtain rfl := Option.some.inj hg
    exact ⟨rfl, rfl, rfl⟩
  · cases hg
  · cases hg

theorem Effect.definitionLine (hi : Drafted past i) (hmode : i.toMode.Coherent)
    (he : i.Effect (Text.glyphs line) s d mode reply)
    (hdef : Token.opensDefinition (Text.glyphs line) ∨ i.inDefinition) :
    DefinitionLine past i line s d mode reply := by
  cases he with
  | nameless ho hh => exact .of_failure (lineFailure_nameless ho hh i.dict)
  | rejected hd hf => exact .of_failure ((hd.lineFailure_eq i.dict).trans hf)
  | continued hd hf hc hname hcode =>
    have hfail := (hd.lineFailure_eq i.dict).trans hf
    refine ⟨rfl, ⟨_, rfl⟩, fun g hg => ?_, fun _ _ => ⟨rfl, rfl, _, rfl, ?_⟩, fun _ hc' => ?_⟩
    · rw [hfail] at hg
      cases hg
    · exact hi.defines hd hf hname hcode
    · rw [hc] at hc'
      cases hc'
  | @compiled _ draft' _ hd hf hc hname hcode =>
    have hfail := (hd.lineFailure_eq i.dict).trans hf
    refine ⟨rfl, ⟨_, rfl⟩, fun g hg => ?_, fun _ hc' => ?_, fun _ _ => ⟨rfl, rfl, ?_⟩⟩
    · rw [hfail] at hg
      cases hg
    · rw [hc] at hc'
      cases hc'
    · exact ⟨draft'.name, draft'.code.toList, _, hi.defines hd hf hname hcode, rfl,
        add_entries _ _ _, nameOf_fresh _ _ _, rfl⟩
  | ran ho hout =>
    rcases hdef with ho' | hin
    · rw [ho] at ho'
      cases ho'
    · rw [hout] at hin
      cases hin
  | noDraft _ hin hnone | noDraftFailed _ hin hnone =>
    exact absurd hnone (hmode.not_missing hin)

theorem Effect.immediateLine (he : i.Effect (Text.glyphs line) s d mode reply)
    (ho : Token.opensDefinition (Text.glyphs line) = false) (hout : i.inDefinition = false) :
    ImmediateLine i line s d mode reply := by
  obtain ⟨m, hm, rfl, rfl, rfl, rfl⟩ := he.of_immediate ho hout
  obtain ⟨ran, left, m', out, hts, hran, hend⟩ :=
    runTokens_split i.dict (Token.scan (Text.glyphs line)).tokens m
  refine ⟨rfl, rfl, m, ran, left, m', out, hm, hts, hran, ?_⟩
  rcases hend with ⟨hleft, hall⟩ | ⟨t, rest, hleft, hbad, hall⟩
  · rw [hall]
    exact .inl ⟨hleft, rfl, rfl⟩
  · rw [hall]
    refine .inr ⟨t, rest, hleft, hbad, rfl, ?_⟩
    rw [ofOutcome_after, ofOutcome_cut hbad]

end Effects

end Interpreter

/-- In every state, a line leaves a definition exactly if it leaves one open, also when it breaks
off; and it is of one mode, and does what lines of that mode do. -/
theorem readLine_modes (trees : List SettingTree) (listing : Stack → Text) (past : List Text)
    (line : Text) :
    let i := (Session.new trees listing).core.readLines past
    let i' := (i.readLine line).1
    let reply := (i.readLine line).2
    (i'.inDefinition ↔ ∃ draft, i'.current = some draft)
      ∧ (∀ response, reply = .answer response → (response = [] ↔ i'.inDefinition))
      ∧ (Token.opensDefinition (Text.glyphs line) ∨ i.inDefinition →
        Interpreter.DefinitionLine past i line i'.stack i'.dict i'.toMode reply)
      ∧ (¬ (Token.opensDefinition (Text.glyphs line) ∨ i.inDefinition) →
        Interpreter.ImmediateLine i line i'.stack i'.dict i'.toMode reply) := by
  intro i i' reply
  have hi : i.toMode.Coherent := Interpreter.Reachable.coherent ⟨trees, listing, past, rfl⟩
  have he := Interpreter.readLine_effect i line
  refine ⟨(he.coherent hi).iff, he.answer_nil, ?_, fun h => ?_⟩
  · exact he.definitionLine (Interpreter.readLines_written trees listing past) hi
  · rw [not_or, Bool.not_eq_true] at h
    exact he.immediateLine h.1 (by simpa using h.2)

end LineForth
