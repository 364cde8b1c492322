import LineForth.Language.Interpreter
import LineForth.Proofs.Perform
import LineForth.Proofs.Tokens

/-!
# What reading a line can do

A line either belongs to a definition, which it opens or continues (`Interpreter.Defines`), or it is
run.  `Interpreter.Effect` lists the ways in which a line can end, each with the stack, the
dictionary and the mode that it leaves and the reply it gives; every line ends in one of them
(`readLine_effect`).  The ways of a line that comes while a definition is open but not there are
listed with the others; that this is never so in a session is for the runs to show.

The tokens of a definition are taken one at a time, and the first that is rejected ends the line.
What they amount to is said without the loop: `Draft.bodyFailure` is the first failure, and
`Draft.actionsOf` the actions of all the tokens, one after the other.  Likewise `runTokens` is what
running the tokens of a line amounts to.
-/

namespace LineForth

/-- The answer to a failure that ends a line. -/
def Reply.ofFailure (f : Failure) : Reply :=
  if f.recoverable then .answer (Text.space :: f.message) else .fault (.host f.message)

/-- The reply to a line whose tokens ended with an outcome, or were cut short by a failure. -/
def Reply.ofOutcome : Outcome → Option Failure → Reply
  | .done out, none => .answer (Interpreter.okAnswer out)
  | .done _, some f => .ofFailure f
  | .failed _ f, _ => .ofFailure f
  | .broke word place, _ => .fault (.unbalanced word place)

namespace Draft

/-- Why a token is not accepted in a definition. -/
def rejection (d : Dictionary) (t : Token) : Option Failure :=
  match resolve d t with
  | .error f => some f
  | .ok _ => none

/-- The action that a token adds to a definition. -/
def actionOf (d : Dictionary) (t : Token) : Option Action :=
  match resolve d t with
  | .error _ => none
  | .ok a => a

def actionsOf (d : Dictionary) (ts : List Token) : List Action := ts.filterMap (actionOf d)

/-- The first failure in the body of a definition: a token that is rejected, or the end of the
line where a token should be. -/
def bodyFailure (d : Dictionary) (body : List Glyph) : Option Failure :=
  ((Token.scan body).tokens.findSome? (rejection d)).or (Token.scan body).failure

theorem rejection_recoverable {d : Dictionary} {t : Token} {f : Failure}
    (h : rejection d t = some f) : f.recoverable := by
  unfold rejection at h
  split at h
  · rename_i g hg
    obtain rfl := Option.some.inj h
    unfold resolve at hg
    split at hg
    · split at hg <;> cases hg
    · split at hg
      · cases hg
      · split_ifs at hg
        cases hg
        rfl
  · cases h

theorem add_accepted {d : Dictionary} {t : Token} (h : rejection d t = none) (draft : Draft)
    (trace : Trace) : ∃ draft' trace', draft.add d t trace = (draft', trace', none)
      ∧ draft'.name = draft.name
      ∧ draft'.code.toList = draft.code.toList ++ (actionOf d t).toList := by
  unfold rejection at h
  unfold add actionOf
  rcases hr : resolve d t with f | _ | a
  · rw [hr] at h
    cases h
  · exact ⟨_, _, rfl, rfl, by simp⟩
  · exact ⟨_, _, rfl, rfl, by simp⟩

theorem add_rejected {d : Dictionary} {t : Token} {f : Failure} (h : rejection d t = some f)
    (draft : Draft) (trace : Trace) : draft.add d t trace = (draft, trace, some f) := by
  unfold rejection at h
  unfold add
  rcases hr : resolve d t with g | _ | a <;> rw [hr] at h
  · obtain rfl := Option.some.inj h
    rfl
  · cases h
  · cases h

theorem addAll_accepted (d : Dictionary) : ∀ (ts : List Token) (draft : Draft) (trace : Trace),
    ts.findSome? (rejection d) = none →
    ∃ draft' trace', addAll d ts draft trace = (draft', trace', none)
      ∧ draft'.name = draft.name ∧ draft'.code.toList = draft.code.toList ++ actionsOf d ts
  | [], draft, trace, _ => ⟨draft, trace, rfl, rfl, by simp [actionsOf]⟩
  | t :: ts, draft, trace, h => by
    rcases ht : rejection d t with _ | f
    · rw [List.findSome?_cons_of_isNone (by rw [ht]; rfl)] at h
      obtain ⟨draft₁, trace₁, hadd, hname, hcode⟩ := add_accepted ht draft trace
      obtain ⟨draft₂, trace₂, hall, hname', hcode'⟩ := addAll_accepted d ts draft₁ trace₁ h
      refine ⟨draft₂, trace₂, ?_, hname'.trans hname, ?_⟩
      · rw [addAll, hadd]
        exact hall
      · rw [hcode', hcode, List.append_assoc]
        unfold actionsOf
        rcases ha : actionOf d t with _ | a <;> simp [ha]
    · rw [List.findSome?_cons, ht] at h
      cases h

theorem addAll_rejected (d : Dictionary) {f : Failure} :
    ∀ (ts : List Token) (draft : Draft) (trace : Trace), ts.findSome? (rejection d) = some f →
      ∃ draft' trace', addAll d ts draft trace = (draft', trace', some f)
  | t :: ts, draft, trace, h => by
    rcases ht : rejection d t with _ | g
    · rw [List.findSome?_cons_of_isNone (by rw [ht]; rfl)] at h
      obtain ⟨draft₁, trace₁, hadd, -⟩ := add_accepted ht draft trace
      obtain ⟨draft₂, trace₂, hall⟩ := addAll_rejected d ts draft₁ trace₁ h
      refine ⟨draft₂, trace₂, ?_⟩
      rw [addAll, hadd]
      exact hall
    · rw [List.findSome?_cons, ht] at h
      obtain rfl := Option.some.inj h
      exact ⟨draft, trace, by rw [addAll, add_rejected ht]⟩

end Draft

theorem Draft.bodyFailure_recoverable {d : Dictionary} {body : List Glyph} {f : Failure}
    (h : bodyFailure d body = some f) : f.recoverable := by
  unfold bodyFailure at h
  rcases hf : (Token.scan body).tokens.findSome? (rejection d) with _ | g <;> rw [hf] at h
  · rw [Token.scan_failure h]
    rfl
  · obtain rfl := Option.some.inj h
    obtain ⟨t, -, ht⟩ := List.exists_of_findSome?_eq_some hf
    exact rejection_recoverable ht

namespace Interpreter

theorem heading_recoverable {line : List Glyph} {f : Failure} (h : heading line = .error f) :
    f.recoverable := by
  unfold heading at h
  split at h
  · rename_i hn
    obtain rfl := Except.error.inj h
    rw [Token.next_failure hn]
    rfl
  · split at h
    · rename_i hn
      obtain rfl := Except.error.inj h
      rw [Token.next_failure hn]
      rfl
    · cases h

/-- `draft` is the definition that the tokens of `body` go into when `line` is read. -/
inductive Defines (i : Interpreter) (line : List Glyph) : Draft → List Glyph → Prop
  | opened {name : Text} {body : List Glyph} : Token.opensDefinition line →
      heading line = .ok (name, body) → Defines i line { name } body
  | continued {draft : Draft} : Token.opensDefinition line = false → i.inDefinition →
      i.current = some draft → Defines i line draft line

/-- Runs tokens up to the first that does not end well. -/
def runTokens (d : Dictionary) : List Token → Machine → Machine × Outcome
  | [], m => (m, .done [])
  | t :: ts, m => andThen (execute d t m) (runTokens d ts)

/-- The ways in which a line can end: the stack, the dictionary and the mode that it leaves, and its
reply. -/
inductive Effect (i : Interpreter) (line : List Glyph) :
    Stack → Dictionary → Mode → Reply → Prop
  | nameless {f : Failure} : Token.opensDefinition line → heading line = .error f →
      Effect i line i.stack i.dict {} (.answer (Text.space :: f.message))
  | rejected {draft : Draft} {body : List Glyph} {f : Failure} : i.Defines line draft body →
      Draft.bodyFailure i.dict body = some f →
      Effect i line i.stack i.dict {} (.answer (Text.space :: f.message))
  | continued {draft draft' : Draft} {body : List Glyph} : i.Defines line draft body →
      Draft.bodyFailure i.dict body = none → Token.closesDefinition line = false →
      draft'.name = draft.name →
      draft'.code.toList
        = draft.code.toList ++ Draft.actionsOf i.dict (Token.scan body).tokens →
      Effect i line i.stack i.dict ⟨true, some draft'⟩ (.answer [])
  | compiled {draft draft' : Draft} {body : List Glyph} : i.Defines line draft body →
      Draft.bodyFailure i.dict body = none → Token.closesDefinition line →
      draft'.name = draft.name →
      draft'.code.toList
        = draft.code.toList ++ Draft.actionsOf i.dict (Token.scan body).tokens →
      Effect i line i.stack (draft'.compile i.dict) {} (.answer (Text.ofString "  ok"))
  | ran {m : Machine} : Token.opensDefinition line = false → i.inDefinition = false →
      m.stack = i.stack →
      Effect i line (runTokens i.dict (Token.scan line).tokens m).1.stack i.dict i.toMode
        (.ofOutcome (runTokens i.dict (Token.scan line).tokens m).2 (Token.scan line).failure)
  | noDraft {reply : Reply} : Token.opensDefinition line = false → i.inDefinition →
      i.current = none → reply = .answer [] ∨ reply = .fault .noDraft →
      Effect i line i.stack i.dict i.toMode reply
  | noDraftFailed {f : Failure} : Token.opensDefinition line = false → i.inDefinition →
      i.current = none → (Token.scan line).failure = some f →
      Effect i line i.stack i.dict {} (.answer (Text.space :: f.message))

section Recording

variable (i : Interpreter)

theorem fail_effect (f : Failure) : (i.fail f).1.stack = i.stack ∧ (i.fail f).1.dict = i.dict
    ∧ (i.fail f).1.toMode = i.toMode ∧ (i.fail f).2 = .ofFailure f := by
  unfold fail Reply.ofFailure
  split_ifs <;> exact ⟨rfl, rfl, rfl, rfl⟩

/-- A line is heard and its reply recorded, which changes nothing but the trace. -/
theorem readLine_process (line : Text) :
    (i.readLine line).1.stack = ((i.event (.heard line)).process (Text.glyphs line)).1.stack
      ∧ (i.readLine line).1.dict = ((i.event (.heard line)).process (Text.glyphs line)).1.dict
      ∧ (i.readLine line).1.toMode
        = ((i.event (.heard line)).process (Text.glyphs line)).1.toMode
      ∧ (i.readLine line).2 = ((i.event (.heard line)).process (Text.glyphs line)).2 := by
  unfold readLine
  split <;> rename_i h <;> rw [h] <;> exact ⟨rfl, rfl, rfl, rfl⟩

end Recording

section Immediate

theorem executeAll_eq (d : Dictionary) : ∀ (ts : List Token) (out : List Text) (m : Machine),
    (executeAll d out ts m).1 = (runTokens d ts m).1
      ∧ (executeAll d out ts m).2.after [] = (runTokens d ts m).2.after out.reverse.flatten
  | [], out, m => by simp [executeAll, runTokens]
  | t :: ts, out, m => by
    rw [executeAll, runTokens]
    rcases execute d t m with ⟨m', piece | ⟨piece, f⟩ | ⟨word, place⟩⟩
    · obtain ⟨h1, h2⟩ := executeAll_eq d ts (piece :: out) m'
      refine ⟨h1, ?_⟩
      simp only [andThen_done, after_after]
      rw [h2]
      simp
    · exact ⟨rfl, rfl⟩
    · exact ⟨rfl, rfl⟩

theorem ofOutcome_after (o : Outcome) (cut : Option Failure) :
    Reply.ofOutcome (o.after []) cut = .ofOutcome o cut := by
  cases o <;> rfl

theorem immediate_effect (i : Interpreter) (line : List Glyph) :
    (i.immediate line).1.stack = (runTokens i.dict (Token.scan line).tokens i.machine).1.stack
      ∧ (i.immediate line).1.dict = i.dict ∧ (i.immediate line).1.toMode = i.toMode
      ∧ (i.immediate line).2 = .ofOutcome (runTokens i.dict (Token.scan line).tokens i.machine).2
        (Token.scan line).failure := by
  obtain ⟨hm, ho⟩ := executeAll_eq i.dict (Token.scan line).tokens [] i.machine
  rw [← ofOutcome_after (runTokens _ _ _).2, ← List.flatten_nil, ← List.reverse_nil, ← ho,
    ofOutcome_after, ← hm]
  unfold immediate
  rcases he : executeAll i.dict [] (Token.scan line).tokens i.machine
    with ⟨m, out | ⟨out, f⟩ | ⟨word, place⟩⟩
  · rcases hs : (Token.scan line).failure with _ | f
    · simp only [he, hs]
      exact ⟨rfl, trivial, trivial, rfl⟩
    · simp only [he, hs]
      exact fail_effect _ f
  · simp only [he]
    exact fail_effect _ f
  · simp only [he]
    exact ⟨rfl, trivial, trivial, rfl⟩

end Immediate

section Definition

theorem fail_recoverable {f : Failure} (hf : f.recoverable) :
    Reply.ofFailure f = .answer (Text.space :: f.message) := by
  rw [Reply.ofFailure, if_pos hf]

variable {i : Interpreter} {body : List Glyph} (draft : Draft) (line : List Glyph)

theorem define_rejected {f : Failure} (h : Draft.bodyFailure i.dict body = some f) :
    (i.define draft line body).1.stack = i.stack ∧ (i.define draft line body).1.dict = i.dict
      ∧ (i.define draft line body).1.toMode = {}
      ∧ (i.define draft line body).2 = .answer (Text.space :: f.message) := by
  have hrec := fail_recoverable (Draft.bodyFailure_recoverable h)
  unfold Draft.bodyFailure at h
  unfold define
  rcases hf : (Token.scan body).tokens.findSome? (Draft.rejection i.dict) with _ | g <;>
    rw [hf] at h
  · obtain ⟨draft', trace', hall, -⟩ :=
      Draft.addAll_accepted i.dict (Token.scan body).tokens draft i.trace hf
    rw [Option.none_or] at h
    simp only [hall, h]
    obtain ⟨h1, h2, h3, h4⟩ := fail_effect (i.withTrace trace').endDefinition f
    exact ⟨h1, h2, h3, h4.trans hrec⟩
  · obtain rfl := Option.some.inj h
    obtain ⟨draft', trace', hall⟩ :=
      Draft.addAll_rejected i.dict (Token.scan body).tokens draft i.trace hf
    simp only [hall]
    obtain ⟨h1, h2, h3, h4⟩ := fail_effect (i.withTrace trace').endDefinition g
    exact ⟨h1, h2, h3, h4.trans hrec⟩

theorem define_accepted (hmode : i.inDefinition) (h : Draft.bodyFailure i.dict body = none) :
    ∃ draft' : Draft, draft'.name = draft.name
      ∧ draft'.code.toList
        = draft.code.toList ++ Draft.actionsOf i.dict (Token.scan body).tokens
      ∧ (i.define draft line body).1.stack = i.stack
      ∧ (i.define draft line body).1.dict
        = (if Token.closesDefinition line then draft'.compile i.dict else i.dict)
      ∧ (i.define draft line body).1.toMode
        = (if Token.closesDefinition line then {} else ⟨true, some draft'⟩)
      ∧ (i.define draft line body).2
        = .answer (if Token.closesDefinition line then Text.ofString "  ok" else []) := by
  unfold Draft.bodyFailure at h
  rw [Option.or_eq_none_iff] at h
  obtain ⟨draft', trace', hall, hname, hcode⟩ :=
    Draft.addAll_accepted i.dict (Token.scan body).tokens draft i.trace h.1
  have hopen : (⟨i.inDefinition, some draft'⟩ : Mode) = ⟨true, some draft'⟩ := by rw [hmode]
  refine ⟨draft', hname, hcode, ?_⟩
  unfold define
  simp only [hall, h.2]
  split_ifs
  · exact ⟨rfl, rfl, rfl, rfl⟩
  · exact ⟨rfl, rfl, hopen, rfl⟩

/-- A definition does the same to a line from every interpreter that has come to the same stack and
words. -/
theorem define_effect {j : Interpreter} {draft : Draft} {line : List Glyph}
    (h : i.Defines line draft body) (hstack : j.stack = i.stack) (hdict : j.dict = i.dict)
    (hmode : j.inDefinition) :
    i.Effect line (j.define draft line body).1.stack (j.define draft line body).1.dict
      (j.define draft line body).1.toMode (j.define draft line body).2 := by
  rcases hf : Draft.bodyFailure j.dict body with _ | f
  · obtain ⟨draft', hname, hcode, h1, h2, h3, h4⟩ := define_accepted draft line hmode hf
    rw [hdict] at hf hcode h2
    rw [h1, h2, h3, h4, hstack]
    split_ifs with hc
    · exact .compiled h hf hc hname hcode
    · exact .continued h hf (by simpa using hc) hname hcode
  · obtain ⟨h1, h2, h3, h4⟩ := define_rejected draft line hf
    rw [hdict] at hf h2
    rw [h1, h2, h3, h4, hstack]
    exact .rejected h hf

theorem defineNone_effect {line : List Glyph} (ho : Token.opensDefinition line = false)
    (hmode : i.inDefinition) (hnone : i.current = none) :
    i.Effect line (i.defineNone line line).1.stack (i.defineNone line line).1.dict
      (i.defineNone line line).1.toMode (i.defineNone line line).2 := by
  unfold defineNone
  rcases (Token.scan line).tokens with _ | ⟨t, ts⟩
  · rcases hf : (Token.scan line).failure with _ | f
    · simp only []
      split_ifs
      · exact .noDraft ho hmode hnone (.inr rfl)
      · exact .noDraft ho hmode hnone (.inl rfl)
    · obtain ⟨h1, h2, h3, h4⟩ := fail_effect i.endDefinition f
      have hrec : f.recoverable := by
        rw [Token.scan_failure hf]
        rfl
      simp only []
      rw [h1, h2, h3, h4, fail_recoverable hrec]
      exact .noDraftFailed ho hmode hnone hf
  · exact .noDraft ho hmode hnone (.inr rfl)

end Definition

section Line

variable {i : Interpreter} {line : List Glyph}

theorem Defines.of_event {e : Event} {draft : Draft} {body : List Glyph}
    (h : (i.event e).Defines line draft body) : i.Defines line draft body := by
  cases h with
  | opened ho hh => exact .opened ho hh
  | continued ho hin hd => exact .continued ho hin hd

theorem Effect.of_event {e : Event} {s : Stack} {d : Dictionary} {mode : Mode} {reply : Reply}
    (h : (i.event e).Effect line s d mode reply) : i.Effect line s d mode reply := by
  cases h with
  | nameless ho hh => exact .nameless ho hh
  | rejected hd hf => exact .rejected hd.of_event hf
  | continued hd hf hc hname hcode => exact .continued hd.of_event hf hc hname hcode
  | compiled hd hf hc hname hcode => exact .compiled hd.of_event hf hc hname hcode
  | ran ho hin hm => exact .ran ho hin hm
  | noDraft ho hin hnone hreply => exact .noDraft ho hin hnone hreply
  | noDraftFailed ho hin hnone hf => exact .noDraftFailed ho hin hnone hf

theorem process_effect (i : Interpreter) (line : List Glyph) :
    i.Effect line (i.process line).1.stack (i.process line).1.dict (i.process line).1.toMode
      (i.process line).2 := by
  unfold process enter startDefinition
  split_ifs with ho
  · rcases hh : heading line with f | ⟨name, body⟩
    · obtain ⟨h1, h2, h3, h4⟩ := fail_effect i.endDefinition f
      simp only []
      rw [h1, h2, h3, h4, fail_recoverable (heading_recoverable hh)]
      exact .nameless ho hh
    · exact define_effect (.opened ho hh) rfl rfl rfl
  · have ho : Token.opensDefinition line = false := by simpa using ho
    simp only []
    split_ifs with hin
    · rcases hd : i.current with _ | draft
      · exact defineNone_effect ho hin hd
      · exact define_effect (.continued ho hin hd) rfl rfl hin
    · obtain ⟨h1, h2, h3, h4⟩ := immediate_effect i line
      rw [h1, h2, h3, h4]
      exact .ran ho (by simpa using hin) rfl

theorem readLine_effect (i : Interpreter) (line : Text) :
    i.Effect (Text.glyphs line) (i.readLine line).1.stack (i.readLine line).1.dict
      (i.readLine line).1.toMode (i.readLine line).2 := by
  obtain ⟨h1, h2, h3, h4⟩ := readLine_process i line
  rw [h1, h2, h3, h4]
  exact (process_effect _ _).of_event

end Line

section Inversion

variable {i : Interpreter} {line : List Glyph} {s : Stack} {d : Dictionary} {mode : Mode}
  {reply : Reply}

theorem Defines.unique {draft draft' : Draft} {body body' : List Glyph}
    (h : i.Defines line draft body) (h' : i.Defines line draft' body') :
    draft' = draft ∧ body' = body := by
  rcases h with ⟨ho, hh⟩ | ⟨ho, -, hd⟩ <;> rcases h' with ⟨ho', hh'⟩ | ⟨ho', -, hd'⟩
  · rw [hh] at hh'
    obtain ⟨rfl, rfl⟩ := Prod.mk.inj (Except.ok.inj hh')
    exact ⟨rfl, rfl⟩
  · rw [ho] at ho'
    cases ho'
  · rw [ho] at ho'
    cases ho'
  · rw [hd] at hd'
    exact ⟨(Option.some.inj hd').symm, rfl⟩

theorem Defines.not_run {draft : Draft} {body : List Glyph} (h : i.Defines line draft body)
    (ho : Token.opensDefinition line = false) : i.inDefinition ∧ i.current = some draft := by
  rcases h with ⟨ho', -⟩ | ⟨-, hin, hd⟩
  · rw [ho] at ho'
    cases ho'
  · exact ⟨hin, hd⟩

/-- A line that goes into a definition, all of it accepted. -/
theorem Effect.of_defines (he : i.Effect line s d mode reply) {draft₀ : Draft}
    {body : List Glyph} (hd : i.Defines line draft₀ body)
    (hf : Draft.bodyFailure i.dict body = none) :
    ∃ draft' : Draft, draft'.name = draft₀.name
      ∧ draft'.code.toList
        = draft₀.code.toList ++ Draft.actionsOf i.dict (Token.scan body).tokens
      ∧ s = i.stack
      ∧ d = (if Token.closesDefinition line then draft'.compile i.dict else i.dict)
      ∧ mode = (if Token.closesDefinition line then {} else ⟨true, some draft'⟩)
      ∧ reply = .answer (if Token.closesDefinition line then Text.ofString "  ok" else []) := by
  cases he with
  | nameless ho hh =>
    rcases hd with ⟨-, hh'⟩ | ⟨ho', -⟩
    · rw [hh] at hh'
      cases hh'
    · rw [ho] at ho'
      cases ho'
  | rejected hd' hf' =>
    obtain ⟨-, rfl⟩ := hd.unique hd'
    rw [hf] at hf'
    cases hf'
  | @continued _ draft' _ hd' _ hc hname hcode =>
    obtain ⟨rfl, rfl⟩ := hd.unique hd'
    exact ⟨draft', hname, hcode, by simp [hc]⟩
  | @compiled _ draft' _ hd' _ hc hname hcode =>
    obtain ⟨rfl, rfl⟩ := hd.unique hd'
    exact ⟨draft', hname, hcode, by simp [hc]⟩
  | ran ho hout =>
    rw [(hd.not_run ho).1] at hout
    cases hout
  | noDraft ho _ hnone =>
    rw [(hd.not_run ho).2] at hnone
    cases hnone
  | noDraftFailed ho _ hnone =>
    rw [(hd.not_run ho).2] at hnone
    cases hnone

/-- A definition on a line of its own. -/
theorem Effect.of_closed (he : i.Effect line s d mode reply) {name : Text} {body : List Glyph}
    (ho : Token.opensDefinition line) (hh : heading line = .ok (name, body))
    (hf : Draft.bodyFailure i.dict body = none) (hc : Token.closesDefinition line) :
    s = i.stack
      ∧ d = i.dict.add name (.compiled name (Draft.actionsOf i.dict (Token.scan body).tokens))
      ∧ mode = {} ∧ reply = .answer (Text.ofString "  ok") := by
  obtain ⟨draft', hname, hcode, rfl, rfl, rfl, rfl⟩ := he.of_defines (.opened ho hh) hf
  refine ⟨rfl, ?_, by rw [if_pos hc], by rw [if_pos hc]⟩
  rw [if_pos hc, Draft.compile, hname, hcode]
  rfl

/-- A line that has nothing to do with a definition. -/
theorem Effect.of_immediate (he : i.Effect line s d mode reply)
    (ho : Token.opensDefinition line = false) (hout : i.inDefinition = false) :
    ∃ m : Machine, m.stack = i.stack
      ∧ s = (runTokens i.dict (Token.scan line).tokens m).1.stack ∧ d = i.dict
      ∧ mode = i.toMode
      ∧ reply = .ofOutcome (runTokens i.dict (Token.scan line).tokens m).2
        (Token.scan line).failure := by
  have hno : ∀ {draft' body}, ¬ i.Defines line draft' body := by
    intro draft' body hd
    rw [(hd.not_run ho).1] at hout
    cases hout
  cases he with
  | nameless ho' =>
    rw [ho] at ho'
    cases ho'
  | rejected hd' => exact absurd hd' hno
  | continued hd' => exact absurd hd' hno
  | compiled hd' => exact absurd hd' hno
  | @ran m _ _ hm => exact ⟨m, hm, rfl, rfl, rfl, rfl⟩
  | noDraft _ hin =>
    rw [hout] at hin
    cases hin
  | noDraftFailed _ hin =>
    rw [hout] at hin
    cases hin

end Inversion

end Interpreter

end LineForth
