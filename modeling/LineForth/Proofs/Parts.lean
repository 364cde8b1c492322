import LineForth.Proofs.Alike
import LineForth.Proofs.Naming
import LineForth.Proofs.Writing

/-!
# A line in parts

A line that is run is its tokens, run from left to right (`readLine_line`), and running tokens in
two parts is running one part and then the other (`runTokens_append`).  So a line can be cut in two
between any of its tokens.  The stack is the same in the end.  The answers differ in one thing only:
if the first part fails, nothing of the second is run, and if the second part fails, what the first
has printed is lost.

That a part has failed can be seen from its answer, since no message of a failure ends like the
answer to a line that ran to its end (`ofFailure_ne_ok`).
-/

namespace LineForth

namespace Token

section Lines

/-- Tokens written on one line with a single space between them. -/
def line (ts : List Token) : Text := Text.join [Text.space] (ts.map written)

/-- A line of tokens as a row, with nothing in front of the first. -/
def Row.ofLine : List Token → Row
  | [] => ⟨[], []⟩
  | t :: ts => ⟨([], t) :: (Row.plain ts).placed, []⟩

theorem Row.ofLine_text (ts : List Token) : (ofLine ts).text = line ts := by
  cases ts with
  | nil => rfl
  | cons t ts => simp [ofLine, text, plain, line, Text.join, List.flatMap_map]

theorem Row.ofLine_tokens (ts : List Token) : (ofLine ts).tokens = ts := by
  cases ts with
  | nil => rfl
  | cons t ts => exact congrArg (t :: ·) (plain_tokens ts)

theorem Row.ofLine_spaced (ts : List Token) : (ofLine ts).Spaced := by
  cases ts with
  | nil => exact ⟨by simp [ofLine], by simp [ofLine], rfl⟩
  | cons t ts =>
    have hplain := plain_spaced ts
    refine ⟨fun p hp => ?_, fun p hp => ?_, rfl⟩
    · rcases List.mem_cons.1 hp with rfl | hp
      · rfl
      · exact hplain.gaps p hp
    · obtain ⟨t', -, rfl⟩ := List.mem_map.1 hp
      simp

variable {ts : List Token}

theorem scan_line (hts : ∀ t ∈ ts, t.Writable) : scan (Text.glyphs (line ts)) = ⟨ts, none⟩ := by
  have hscan := scan_row (Row.ofLine_spaced ts) (by rwa [Row.ofLine_tokens])
  rwa [Row.ofLine_text, Row.ofLine_tokens] at hscan

/-- No word stands in front whose first character is a colon. -/
def NoColonFirst (ts : List Token) : Prop :=
  ∀ t ∈ ts.head?, t.quoted = false → ¬ StartsWithColon t.text

instance (ts : List Token) : Decidable (NoColonFirst ts) :=
  inferInstanceAs (Decidable (∀ t ∈ ts.head?, t.quoted = false → ¬ StartsWithColon t.text))

theorem line_opens (hts : ∀ t ∈ ts, t.Writable) (hfirst : NoColonFirst ts) :
    opensDefinition (Text.glyphs (line ts)) = false := by
  rcases ts with _ | ⟨t, ts⟩
  · decide
  have ht := hts t List.mem_cons_self
  rw [← Row.ofLine_text, Row.ofLine, (Row.ofLine_spaced (t :: ts)).glyphs_cons,
    show Text.glyphs [] = [] from rfl, List.nil_append]
  obtain ⟨x, _ | _⟩ := t
  · exact word_opens ht (hfirst _ rfl rfl) _
  · have hdot : Glyph.isSpace (.char '.') = false := by decide
    rw [show (⟨x, true⟩ : Token) = string x from rfl, glyphs_string]
    simp [opensDefinition, hdot]

theorem NoColonFirst.append {xs ys : List Token} (hx : NoColonFirst xs) (hy : NoColonFirst ys) :
    NoColonFirst (xs ++ ys) := by
  cases xs with
  | nil => exact hy
  | cons t xs => exact hx

end Lines

end Token

namespace Interpreter

section Answers

theorem okAnswer_inj {o o' : Text} : okAnswer o = okAnswer o' ↔ o = o' := by
  simp [okAnswer]

theorem ofFailure_ne_ok (f : Failure) (o : Text) : Reply.ofFailure f ≠ .answer (okAnswer o) := by
  intro h
  unfold Reply.ofFailure at h
  split_ifs at h with hf
  have hlast : f.message.getLast? = some 0x6B := by
    have hmessage : f.message = o ++ Text.ofString " ok" := by
      simpa [okAnswer] using Reply.answer.inj h
    rw [hmessage, List.getLast?_append]
    rfl
  revert hlast
  cases f with
  | missingWord word =>
    have hend : (Text.ofString " ? ").getLast? = some 0x20 := by decide
    rw [Failure.message, List.getLast?_append, hend, Option.some_or]
    decide
  | compileOnly word =>
    have hend : (Text.ofString " is compile-only").getLast? = some 0x79 := by decide
    rw [Failure.message, List.getLast?_append, hend, Option.some_or]
    decide
  | host message => cases hf
  | _ => decide

/-- The reply to a line that was read to its end tells whether all of it ran. -/
theorem ofOutcome_ok {o : Outcome} {out : Text} :
    Reply.ofOutcome o none = .answer (okAnswer out) ↔ o = .done out := by
  cases o with
  | done u => simp [Reply.ofOutcome, okAnswer_inj]
  | failed u f => simp [Reply.ofOutcome, ofFailure_ne_ok]
  | broke word place => simp [Reply.ofOutcome]

end Answers

section Parts

theorem runTokens_append (d : Dictionary) (ys : List Token) : ∀ (xs : List Token) (m : Machine),
    runTokens d (xs ++ ys) m = andThen (runTokens d xs m) (runTokens d ys)
  | [], m => by
    rw [List.nil_append, runTokens, andThen_done, runTokens_after]
  | x :: xs, m => by
    rw [List.cons_append, runTokens, runTokens, andThen_assoc]
    exact congrArg _ (funext fun m' => runTokens_append d ys xs m')

variable {i : Interpreter} {ts : List Token}

/-- A line of tokens outside a definition runs the tokens, and does nothing else. -/
theorem readLine_line (hout : i.inDefinition = false) (hts : ∀ t ∈ ts, t.Writable)
    (hfirst : Token.NoColonFirst ts) :
    (i.readLine (Token.line ts)).1.stack = (runTokens i.dict ts i.machine).1.stack
      ∧ (i.readLine (Token.line ts)).1.dict = i.dict
      ∧ (i.readLine (Token.line ts)).1.toMode = i.toMode
      ∧ (i.readLine (Token.line ts)).2 = .ofOutcome (runTokens i.dict ts i.machine).2 none := by
  obtain ⟨m, hm, hstack, hdict, hmode, hreply⟩ :=
    (readLine_effect i (Token.line ts)).of_immediate (Token.line_opens hts hfirst) hout
  rw [Token.scan_line hts] at hstack hreply
  obtain ⟨hsame, houtcome⟩ := runTokens_sameStack i.dict ts (show SameStack m i.machine from hm)
  refine ⟨hstack.trans hsame, hdict, hmode, ?_⟩
  rw [hreply, houtcome]

end Parts

end Interpreter

open Interpreter in
/-- Running a line is running its parts: a first part that fails or breaks off is the end of the
line, and after one that does not the line ends as its second part ends, with all that was printed
in the answer if there is nothing to complain of. -/
theorem line_in_parts {i : Interpreter} (hmode : i.inDefinition = false) {xs ys : List Token}
    (hxs : ∀ t ∈ xs, t.Writable) (hys : ∀ t ∈ ys, t.Writable) (hx : Token.NoColonFirst xs)
    (hy : Token.NoColonFirst ys) :
    let whole := i.readLine (Token.line (xs ++ ys))
    let first := i.readLine (Token.line xs)
    let second := first.1.readLine (Token.line ys)
    ((∀ o, first.2 ≠ .answer (okAnswer o)) →
        whole.2 = first.2 ∧ whole.1.stack = first.1.stack)
      ∧ ∀ o₁, first.2 = .answer (okAnswer o₁) → whole.1.stack = second.1.stack
        ∧ (∀ o₂, second.2 = .answer (okAnswer o₂) → whole.2 = .answer (okAnswer (o₁ ++ o₂)))
        ∧ ((∀ o₂, second.2 ≠ .answer (okAnswer o₂)) → whole.2 = second.2) := by
  intro whole first second
  have hall : ∀ t ∈ xs ++ ys, t.Writable := by
    intro t ht
    rcases List.mem_append.1 ht with ht | ht
    · exact hxs t ht
    · exact hys t ht
  obtain ⟨hstack₁, hdict₁, hmode₁, hreply₁⟩ := readLine_line hmode hxs hx
  obtain ⟨hstack₂, -, -, hreply₂⟩ :=
    readLine_line ((congrArg Mode.inDefinition hmode₁).trans hmode) hys hy
  obtain ⟨hstack, -, -, hreply⟩ := readLine_line hmode hall (hx.append hy)
  rw [hdict₁] at hstack₂ hreply₂
  rw [runTokens_append] at hstack hreply
  rcases hrun : runTokens i.dict xs i.machine with ⟨m, o | ⟨o, f⟩ | ⟨word, place⟩⟩ <;>
    rw [hrun] at hstack hreply hstack₁ hreply₁
  · obtain ⟨hsame, hout⟩ := runTokens_sameStack i.dict ys
      (show SameStack first.1.machine m from hstack₁)
    rw [hout] at hreply₂
    rw [andThen_done] at hstack hreply
    refine ⟨fun hne => absurd hreply₁ (hne o), fun o₁ ho₁ => ⟨?_, fun o₂ ho₂ => ?_, fun hne => ?_⟩⟩
    · rw [hstack, hstack₂]
      exact hsame.symm
    · obtain rfl : o = o₁ := okAnswer_inj.1 (Reply.answer.inj (hreply₁.symm.trans ho₁))
      rw [hreply, ofOutcome_ok.1 (hreply₂.symm.trans ho₂)]
      rfl
    · rw [hreply, hreply₂]
      rcases hend : (runTokens i.dict ys m).2 with u | ⟨u, f⟩ | ⟨word, place⟩
      · rw [hend] at hreply₂
        exact absurd hreply₂ (hne u)
      · rfl
      · rfl
  · refine ⟨fun _ => ⟨hreply.trans hreply₁.symm, hstack.trans hstack₁.symm⟩, fun o₁ ho₁ => ?_⟩
    exact absurd (hreply₁.symm.trans ho₁) (ofFailure_ne_ok f o₁)
  · refine ⟨fun _ => ⟨hreply.trans hreply₁.symm, hstack.trans hstack₁.symm⟩, fun o₁ ho₁ => ?_⟩
    cases hreply₁.symm.trans ho₁

open Interpreter in
/-- The second part takes one cell too many, and what the first has printed is lost. -/
theorem line_in_parts_underflow :
    let i := (Session.new []).core.readLines [Text.ofString ": double dup + ;"]
    let xs : List Token := [.word (Text.ofString "3"), .word (Text.ofString "double"),
      .word (Text.ofString "."), .string (Text.ofString "a  b"), .word (Text.ofString "7")]
    let ys : List Token := [.word (Text.ofString "drop"), .word (Text.ofString ".")]
    let first := i.readLine (Token.line xs)
    let second := first.1.readLine (Token.line ys)
    first.2 = .answer (okAnswer (Text.ofString "6 "))
      ∧ second.2 = .answer (Text.space :: Failure.stackUnderflow.message)
      ∧ (i.readLine (Token.line (xs ++ ys))).2 = second.2
      ∧ (i.readLine (Token.line (xs ++ ys))).1.stack = second.1.stack := by
  intro i xs ys first second
  have hfirst : first.2 = .answer (okAnswer (Text.ofString "6 ")) := by decide +kernel
  have hsecond : second.2 = .answer (Text.space :: Failure.stackUnderflow.message) := by
    decide +kernel
  obtain ⟨-, hparts⟩ := line_in_parts (i := i) (by decide +kernel)
    (show ∀ t ∈ xs, t.Writable by decide) (show ∀ t ∈ ys, t.Writable by decide)
    (show Token.NoColonFirst xs by decide) (show Token.NoColonFirst ys by decide)
  obtain ⟨hstack, -, hreply⟩ := hparts _ hfirst
  refine ⟨hfirst, hsecond, hreply fun o ho => ?_, hstack⟩
  exact ofFailure_ne_ok .stackUnderflow o (hsecond.symm.trans ho)

end LineForth
