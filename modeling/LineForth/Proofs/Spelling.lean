import LineForth.Proofs.Alike
import LineForth.Proofs.Respelling

/-!
# Words in another spelling

A line and its respelling do the same.  The words are looked up by their folded names, so each token
does the same in both, or fails in both for the same reason (`execute_same`, `resolve_same`).  What
is different is kept in three places only: the word that a failure quotes, the name that a
definition was given, and the trace.  A failure, a dictionary and a definition in progress are
compared with these names folded.

How a line ends is told together with the number of tokens before the one where it ends
(`Interpreter.upshot`), so that a line and its respelling can be seen to end at the same one.
-/

namespace LineForth

/-- A failure with the word that it quotes folded. -/
def Failure.fold : Failure → Failure
  | .missingWord word => .missingWord (Text.fold word)
  | .compileOnly word => .compileOnly (Text.fold word)
  | f => f

/-- What a name stands for, with the name of a definition folded. -/
def Meaning.fold : Meaning → Meaning
  | .compiled name code => .compiled (Text.fold name) code
  | m => m

def Entry.fold (e : Entry) : Entry := { e with meaning := e.meaning.fold }

def Dictionary.fold (d : Dictionary) : Dictionary := { d with entries := d.entries.map Entry.fold }

def Draft.fold (draft : Draft) : Draft := { draft with name := Text.fold draft.name }

/-- How a line ends; where it does not end well, after how many tokens. -/
inductive Upshot
  | well (response : Text)
  | failed (tokens : Nat) (why : Failure)
  | broke (tokens : Nat) (word : Text) (place : Place)
  | noDraft
deriving DecidableEq

namespace Upshot

def reply : Upshot → Reply
  | .well response => .answer response
  | .failed _ f => .ofFailure f
  | .broke _ word place => .fault (.unbalanced word place)
  | .noDraft => .fault .noDraft

def fold : Upshot → Upshot
  | .failed n f => .failed n f.fold
  | e => e

/-- The end of the tokens, which may be a failure to read one more. -/
def ofCut (n : Nat) (response : Text) : Option Failure → Upshot
  | none => .well response
  | some f => .failed n f

end Upshot

namespace Interpreter

/-- Runs tokens, `n` of which have gone before with the output `out`, and tells how that ends. -/
def course (d : Dictionary) (cut : Option Failure) :
    Nat → Text → List Token → Machine → Machine × Upshot
  | n, out, [], m => (m, .ofCut n (okAnswer out) cut)
  | n, out, t :: ts, m =>
    match execute d t m with
    | (m, .done piece) => course d cut (n + 1) (out ++ piece) ts m
    | (m, .failed _ f) => (m, .failed n f)
    | (m, .broke word place) => (m, .broke n word place)

/-- How it ends to add tokens to a definition, after `n` others. -/
def additions (d : Dictionary) (cut : Option Failure) (response : Text) : Nat → List Token → Upshot
  | n, [] => .ofCut n response cut
  | n, t :: ts =>
    match Draft.rejection d t with
    | some f => .failed n f
    | none => additions d cut response (n + 1) ts

/-- How it ends to add what is left of a line to a definition, after `n` tokens of the line. -/
def bodyUpshot (d : Dictionary) (line : List Glyph) (n : Nat) (body : List Glyph) : Upshot :=
  additions d (Token.scan body).failure
    (if Token.closesDefinition line then Text.ofString "  ok" else []) n (Token.scan body).tokens

/-- The tokens in front of a name that is missing. -/
def beforeName (line : List Glyph) : Nat :=
  match Token.next line with
  | (.ok _, _) => 1
  | (.error _, _) => 0

/-- How a line ends that comes while a definition is open that is not there. -/
def noneUpshot (line : List Glyph) : Upshot :=
  match (Token.scan line).tokens, (Token.scan line).failure with
  | _ :: _, _ => .noDraft
  | [], some f => .failed 0 f
  | [], none => if Token.closesDefinition line then .noDraft else .well []

/-- How a line ends that is read in a given state. -/
def upshot (i : Interpreter) (line : List Glyph) : Upshot :=
  if Token.opensDefinition line then
    match heading line with
    | .error f => .failed (beforeName line) f
    | .ok (_, body) => bodyUpshot i.dict line 2 body
  else if i.inDefinition then
    match i.current with
    | some _ => bodyUpshot i.dict line 0 line
    | none => noneUpshot line
  else (course i.dict (Token.scan line).failure 0 [] (Token.scan line).tokens i.machine).2

end Interpreter

section Upshots

namespace Interpreter

theorem ofCut_reply (n : Nat) (out : Text) (cut : Option Failure) :
    (Upshot.ofCut n (okAnswer out) cut).reply = .ofOutcome (.done out) cut := by
  cases cut <;> rfl

theorem course_eq (d : Dictionary) (cut : Option Failure) :
    ∀ (ts : List Token) (n : Nat) (out : Text) (m : Machine),
      (course d cut n out ts m).1 = (runTokens d ts m).1
        ∧ (course d cut n out ts m).2.reply = .ofOutcome ((runTokens d ts m).2.after out) cut
  | [], n, out, m => by
    rw [runTokens, after_done, List.append_nil]
    exact ⟨rfl, ofCut_reply n out cut⟩
  | t :: ts, n, out, m => by
    rw [course, runTokens]
    rcases execute d t m with ⟨m', piece | ⟨piece, f⟩ | ⟨word, place⟩⟩
    · rw [andThen_done, after_after]
      exact course_eq d cut ts (n + 1) (out ++ piece) m'
    · exact ⟨rfl, rfl⟩
    · exact ⟨rfl, rfl⟩

theorem additions_reply (d : Dictionary) (cut : Option Failure) (response : Text) :
    ∀ (ts : List Token) (n : Nat), (additions d cut response n ts).reply
      = ((ts.findSome? (Draft.rejection d)).or cut).elim (.answer response) .ofFailure
  | [], n => by cases cut <;> rfl
  | t :: ts, n => by
    rw [additions, List.findSome?_cons]
    rcases Draft.rejection d t with _ | f
    · exact additions_reply d cut response ts (n + 1)
    · rfl

theorem define_reply {i : Interpreter} (hmode : i.inDefinition) (draft : Draft)
    (line body : List Glyph) (n : Nat) :
    (i.define draft line body).2 = (bodyUpshot i.dict line n body).reply := by
  rw [bodyUpshot, additions_reply]
  rcases hf : Draft.bodyFailure i.dict body with _ | f
  · obtain ⟨-, -, -, -, -, -, hreply⟩ := define_accepted draft line hmode hf
    rw [Draft.bodyFailure] at hf
    rw [hreply, hf]
    rfl
  · obtain ⟨-, -, -, hreply⟩ := define_rejected draft line hf
    have hrecoverable := fail_recoverable (Draft.bodyFailure_recoverable hf)
    rw [Draft.bodyFailure] at hf
    rw [hreply, hf, ← hrecoverable]
    rfl

theorem defineNone_reply (i : Interpreter) (line : List Glyph) :
    (i.defineNone line line).2 = (noneUpshot line).reply := by
  unfold defineNone noneUpshot
  rcases (Token.scan line).tokens with _ | ⟨t, ts⟩
  · rcases (Token.scan line).failure with _ | f
    · simp only []
      split_ifs <;> rfl
    · exact (fail_effect i.endDefinition f).2.2.2
  · rfl

theorem process_reply (i : Interpreter) (line : List Glyph) :
    (i.process line).2 = (i.upshot line).reply := by
  unfold process upshot enter startDefinition
  split_ifs with ho hin
  · rcases heading line with f | ⟨name, body⟩
    · exact (fail_effect i.endDefinition f).2.2.2
    · exact define_reply rfl { name } line body 2
  · simp only [hin, if_true]
    rcases i.current with _ | draft
    · exact defineNone_reply i line
    · exact define_reply hin draft line line 0
  · simp only [hin, Bool.false_eq_true, if_false]
    obtain ⟨-, -, -, hreply⟩ := immediate_effect i line
    have hcourse :=
      (course_eq i.dict (Token.scan line).failure (Token.scan line).tokens 0 [] i.machine).2
    rw [ofOutcome_after] at hcourse
    exact hreply.trans hcourse.symm

/-- Hearing a line and recording the reply is nothing but a matter of the trace. -/
theorem readLine_alike (i : Interpreter) (line : Text) :
    AlikeReplies (i.readLine line) (i.process (Text.glyphs line)) := by
  obtain ⟨h1, h2, h3, h4⟩ := readLine_process i line
  obtain ⟨halike, hreply⟩ := (alike_event i (.heard line)).process (Text.glyphs line)
  exact ⟨⟨h1.trans halike.stack, h2.trans halike.dict, h3.trans halike.mode⟩, h4.trans hreply⟩

end Interpreter

end Upshots

section Tokens

open Token Interpreter

variable {t t' : Token}

theorem eq_semicolon_congr {w w' : Text} (h : Text.fold w' = Text.fold w) :
    w' = Draft.semicolon ↔ w = Draft.semicolon := by
  have hplain : Draft.semicolon.isPlain := by decide
  constructor
  · rintro rfl
    exact fold_plain hplain h.symm
  · rintro rfl
    exact fold_plain hplain h

/-- A token in another spelling has the same action, or is rejected for the same reason. -/
theorem resolve_same (d : Dictionary) (h : Same t t') :
    Draft.resolve d t' = Draft.resolve d t ∨ ∃ f f' : Failure, f'.fold = f.fold
      ∧ Draft.resolve d t = .error f ∧ Draft.resolve d t' = .error f' := by
  cases h with
  | string => exact .inl rfl
  | @word w w' hw =>
    unfold Draft.resolve
    simp only [word, lookup_congr d hw, ofText?_congr hw, eq_semicolon_congr hw, hw,
      Bool.false_eq_true, if_false]
    rcases d.lookup w with _ | e
    · rcases Cell.ofText? w with _ | c
      · by_cases hsemi : w = Draft.semicolon
        · exact .inl (by simp only [hsemi, if_true])
        · simp only [hsemi, if_false]
          exact .inr ⟨.missingWord w, .missingWord w', congrArg Failure.missingWord hw, rfl, rfl⟩
      · exact .inl rfl
    · exact .inl rfl

/-- A token in another spelling does the same, or fails for the same reason. -/
theorem execute_same (d : Dictionary) (h : Same t t') (m : Machine) :
    execute d t' m = execute d t m ∨ ∃ f f' : Failure, f'.fold = f.fold
      ∧ execute d t m = (m, .failed [] f) ∧ execute d t' m = (m, .failed [] f') := by
  cases h with
  | string => exact .inl rfl
  | @word w w' hw =>
    unfold execute
    simp only [word, lookup_congr d hw, ofText?_congr hw, eq_semicolon_congr hw,
      Bool.false_eq_true, if_false]
    rcases d.lookup w with _ | e
    · rcases Cell.ofText? w with _ | c
      · by_cases hsemi : w = Draft.semicolon
        · exact .inl (by simp only [hsemi, if_true])
        · simp only [hsemi, if_false]
          exact .inr ⟨.missingWord w, .missingWord w', congrArg Failure.missingWord hw, rfl, rfl⟩
      · exact .inl rfl
    · simp only []
      rcases e.meaning.marker? with _ | k
      · exact .inl rfl
      · exact .inr ⟨.compileOnly w, .compileOnly w', congrArg Failure.compileOnly hw, rfl, rfl⟩

/-- Running tokens in another spelling leaves the same and ends in the same way. -/
theorem course_same (d : Dictionary) (cut : Option Failure) {ts ts' : List Token}
    (h : List.Forall₂ Same ts ts') : ∀ (n : Nat) (out : Text) (m : Machine),
      (course d cut n out ts' m).1 = (course d cut n out ts m).1
        ∧ (course d cut n out ts' m).2.fold = (course d cut n out ts m).2.fold := by
  induction h with
  | nil => exact fun _ _ _ => ⟨rfl, rfl⟩
  | cons ht _ ih =>
    intro n out m
    rw [course, course]
    rcases execute_same d ht m with heq | ⟨f, f', hf, he, he'⟩
    · rw [heq]
      split
      · exact ih _ _ _
      · exact ⟨rfl, rfl⟩
      · exact ⟨rfl, rfl⟩
    · rw [he, he']
      exact ⟨rfl, congrArg (Upshot.failed n) hf⟩

theorem rejection_same (d : Dictionary) (h : Same t t') :
    Draft.rejection d t' = Draft.rejection d t ∨ ∃ f f' : Failure, f'.fold = f.fold
      ∧ Draft.rejection d t = some f ∧ Draft.rejection d t' = some f' := by
  unfold Draft.rejection
  rcases resolve_same d h with heq | ⟨f, f', hf, hr, hr'⟩
  · exact .inl (by rw [heq])
  · exact .inr ⟨f, f', hf, by rw [hr], by rw [hr']⟩

theorem additions_same (d : Dictionary) (cut : Option Failure) (response : Text)
    {ts ts' : List Token} (h : List.Forall₂ Same ts ts') : ∀ n : Nat,
      (additions d cut response n ts').fold = (additions d cut response n ts).fold := by
  induction h with
  | nil => exact fun _ => rfl
  | cons ht _ ih =>
    intro n
    rw [additions, additions]
    rcases rejection_same d ht with heq | ⟨f, f', hf, hr, hr'⟩
    · rw [heq]
      split
      · rfl
      · exact ih _
    · rw [hr, hr']
      exact congrArg (Upshot.failed n) hf

/-- Tokens in another spelling are rejected together, and have the same actions. -/
theorem actions_same (d : Dictionary) {ts ts' : List Token} (h : List.Forall₂ Same ts ts') :
    (ts'.findSome? (Draft.rejection d)).isSome = (ts.findSome? (Draft.rejection d)).isSome
      ∧ Draft.actionsOf d ts' = Draft.actionsOf d ts := by
  induction h with
  | nil => exact ⟨rfl, rfl⟩
  | @cons t t' ts ts' ht _ ih =>
    have haction : Draft.actionOf d t' = Draft.actionOf d t := by
      unfold Draft.actionOf
      rcases resolve_same d ht with heq | ⟨f, f', -, hr, hr'⟩
      · rw [heq]
      · rw [hr, hr']
    refine ⟨?_, ?_⟩
    · rw [List.findSome?_cons, List.findSome?_cons]
      rcases rejection_same d ht with heq | ⟨f, f', -, hr, hr'⟩
      · rw [heq]
        split
        · rfl
        · exact ih.1
      · rw [hr, hr']
        rfl
    · have hrest := ih.2
      unfold Draft.actionsOf at hrest ⊢
      rw [List.filterMap_cons, List.filterMap_cons, haction, hrest]

end Tokens

section Definitions

open Token Interpreter

theorem symbol_congr (d : Dictionary) {name name' : Text} (h : Text.fold name' = Text.fold name) :
    d.symbol name' = d.symbol name := by
  simp only [Dictionary.symbol, h]

theorem draft_fold_eq {draft draft' : Draft} : draft'.fold = draft.fold ↔
    Text.fold draft'.name = Text.fold draft.name ∧ draft'.code = draft.code := by
  rw [Draft.fold, Draft.fold, Draft.mk.injEq]

/-- A definition is compiled to the same entry whatever the spelling of its name. -/
theorem compile_fold (d : Dictionary) {draft draft' : Draft} (h : draft'.fold = draft.fold) :
    (draft'.compile d).fold = (draft.compile d).fold := by
  obtain ⟨hname, hcode⟩ := draft_fold_eq.1 h
  have hintern : d.intern draft'.name = d.intern draft.name := by
    rw [Dictionary.intern, Dictionary.intern, symbol_congr d hname, hname]
  simp only [Draft.compile, Dictionary.add, Dictionary.fold, hintern, symbol_congr _ hname,
    List.map_cons, Entry.fold, Meaning.fold, hname, hcode]

namespace Interpreter

/-- The same up to the spelling of names. -/
structure SameBut (i j : Interpreter) : Prop where
  stack : i.stack = j.stack
  dict : i.dict.fold = j.dict.fold
  inDefinition : i.inDefinition = j.inDefinition
  current : i.current.map Draft.fold = j.current.map Draft.fold

variable {i : Interpreter} {line line' body body' : Text}

theorem Alike.sameBut {j i' j' : Interpreter} (hi : i.Alike i') (hj : j.Alike j')
    (h : SameBut i' j') : SameBut i j := by
  refine ⟨?_, ?_, ?_, ?_⟩
  · rw [hi.stack, h.stack, hj.stack]
  · rw [hi.dict, h.dict, hj.dict]
  · rw [hi.inDefinition, h.inDefinition, hj.inDefinition]
  · rw [hi.current, h.current, hj.current]

/-- What a definition becomes by a line, and by its respelling, is the same in interpreters that
have the same stack and the same words. -/
theorem define_same {i' : Interpreter} (hstack : i'.stack = i.stack) (hdict : i'.dict = i.dict)
    (hmode : i.inDefinition) (hmode' : i'.inDefinition) {draft draft' : Draft}
    (hdraft : draft'.fold = draft.fold) (hline : Respelled line line')
    (hbody : Respelled body body') :
    SameBut (i'.define draft' (Text.glyphs line') (Text.glyphs body')).1
      (i.define draft (Text.glyphs line) (Text.glyphs body)).1 := by
  obtain ⟨htokens, hcut⟩ := hbody.scan
  obtain ⟨hrejected, hactions⟩ := actions_same i.dict htokens
  have hsome : (Draft.bodyFailure i'.dict (Text.glyphs body')).isSome
      = (Draft.bodyFailure i.dict (Text.glyphs body)).isSome := by
    rw [hdict, Draft.bodyFailure, Draft.bodyFailure, Option.isSome_or, Option.isSome_or, hrejected,
      hcut]
  rcases hf : Draft.bodyFailure i.dict (Text.glyphs body) with _ | f <;> rw [hf] at hsome
  · obtain ⟨a, hname, hcode, h1, h2, h3, -⟩ := define_accepted draft (Text.glyphs line) hmode hf
    have hf' := Option.isSome_eq_false_iff.1 hsome
    obtain ⟨a', hname', hcode', h1', h2', h3', -⟩ :=
      define_accepted draft' (Text.glyphs line') hmode' (Option.isNone_iff_eq_none.1 hf')
    have ha : a'.fold = a.fold := by
      obtain ⟨hnames, hcodes⟩ := draft_fold_eq.1 hdraft
      rw [hdict, hactions, hcodes, ← hcode, Array.toList_inj] at hcode'
      exact draft_fold_eq.2 ⟨by rw [hname, hname', hnames], hcode'⟩
    rw [hline.closes] at h2' h3'
    refine ⟨by rw [h1, h1', hstack], ?_, ?_, ?_⟩
    · rw [h2, h2', hdict]
      split_ifs
      · exact compile_fold i.dict ha
      · rfl
    · rw [h3, h3']
      split_ifs <;> rfl
    · rw [h3, h3']
      split_ifs
      · rfl
      · exact congrArg some ha
  · obtain ⟨f', hf'⟩ := Option.isSome_iff_exists.1 hsome
    obtain ⟨h1, h2, h3, -⟩ := define_rejected draft (Text.glyphs line) hf
    obtain ⟨h1', h2', h3', -⟩ := define_rejected draft' (Text.glyphs line') hf'
    exact ⟨by rw [h1, h1', hstack], by rw [h2, h2', hdict], by rw [h3, h3'], by rw [h3, h3']⟩

theorem immediate_same (i : Interpreter) (h : Respelled line line') :
    SameBut (i.immediate (Text.glyphs line')).1 (i.immediate (Text.glyphs line)).1 := by
  obtain ⟨htokens, -⟩ := h.scan
  obtain ⟨h1, h2, h3, -⟩ := immediate_effect i (Text.glyphs line)
  obtain ⟨h1', h2', h3', -⟩ := immediate_effect i (Text.glyphs line')
  refine ⟨?_, by rw [h2, h2'], by rw [h3, h3'], by rw [h3, h3']⟩
  rw [h1, h1', ← (course_eq i.dict none _ 0 [] i.machine).1,
    (course_same i.dict none htokens 0 [] i.machine).1, (course_eq i.dict none _ 0 [] i.machine).1]

theorem defineNone_same (i : Interpreter) (h : Respelled line line') :
    SameBut (i.defineNone (Text.glyphs line') (Text.glyphs line')).1
      (i.defineNone (Text.glyphs line) (Text.glyphs line)).1 := by
  obtain ⟨htokens, hcut⟩ := h.scan
  unfold defineNone
  rw [hcut, h.closes]
  generalize (scan (Text.glyphs line)).tokens = ts at htokens ⊢
  generalize (scan (Text.glyphs line')).tokens = ts' at htokens ⊢
  cases htokens with
  | cons => exact ⟨rfl, rfl, rfl, rfl⟩
  | nil =>
    rcases (scan (Text.glyphs line)).failure with _ | f
    · simp only []
      split_ifs <;> exact ⟨rfl, rfl, rfl, rfl⟩
    · exact ⟨rfl, rfl, rfl, rfl⟩

/-- A line that opens a definition with a name goes on as a line of that definition. -/
theorem process_opened (i : Interpreter) {line body : List Glyph} {name : Text}
    (ho : opensDefinition line) (hh : heading line = .ok (name, body)) :
    ∃ j : Interpreter, j.stack = i.stack ∧ j.dict = i.dict ∧ j.inDefinition
      ∧ i.process line = j.define { name } line body := by
  unfold process enter startDefinition
  rw [if_pos ho, hh]
  exact ⟨{ i.endDefinition.event (.opened name) with
    inDefinition := true, current := some { name } }, rfl, rfl, rfl, rfl⟩

/-- A line and its respelling leave the same, up to the spelling of names. -/
theorem process_same (i : Interpreter) (h : Respelled line line') :
    SameBut (i.process (Text.glyphs line')).1 (i.process (Text.glyphs line)).1 := by
  by_cases ho : opensDefinition (Text.glyphs line)
  · have ho' : opensDefinition (Text.glyphs line') := h.opens.trans ho
    cases h.headings with
    | @failed f hh hh' =>
      unfold process enter startDefinition
      rw [if_pos ho, if_pos ho', hh, hh']
      exact ⟨rfl, rfl, rfl, rfl⟩
    | @named name name' body body' hh hh' hname hbody =>
      obtain ⟨j, hstack, hdict, hmode, hj⟩ := process_opened i ho hh
      obtain ⟨j', hstack', hdict', hmode', hj'⟩ := process_opened i ho' hh'
      have hdraft : ({ name := name' } : Draft).fold = ({ name := name } : Draft).fold :=
        draft_fold_eq.2 ⟨hname, rfl⟩
      rw [hj, hj']
      exact define_same (hstack'.trans hstack.symm) (hdict'.trans hdict.symm) hmode hmode' hdraft h
        hbody
  · have ho' : ¬ opensDefinition (Text.glyphs line') := h.opens ▸ ho
    unfold process enter
    rw [if_neg ho, if_neg ho']
    simp only []
    by_cases hin : i.inDefinition
    · rw [if_pos hin, if_pos hin]
      rcases i.current with _ | draft
      · exact defineNone_same i h
      · exact define_same rfl rfl hin hin rfl h h
    · rw [if_neg hin, if_neg hin]
      exact immediate_same i h

theorem bodyUpshot_same (d : Dictionary) (hline : Respelled line line') (n : Nat)
    (hbody : Respelled body body') :
    (bodyUpshot d (Text.glyphs line') n (Text.glyphs body')).fold
      = (bodyUpshot d (Text.glyphs line) n (Text.glyphs body)).fold := by
  obtain ⟨htokens, hcut⟩ := hbody.scan
  rw [bodyUpshot, bodyUpshot, hline.closes, hcut]
  exact additions_same d _ _ htokens n

theorem noneUpshot_same (h : Respelled line line') :
    noneUpshot (Text.glyphs line') = noneUpshot (Text.glyphs line) := by
  obtain ⟨htokens, hcut⟩ := h.scan
  unfold noneUpshot
  rw [hcut, h.closes]
  generalize (scan (Text.glyphs line)).tokens = ts at htokens ⊢
  generalize (scan (Text.glyphs line')).tokens = ts' at htokens ⊢
  cases htokens <;> rfl

/-- A line and its respelling end in the same way, after as many tokens. -/
theorem upshot_same (i : Interpreter) (h : Respelled line line') :
    (i.upshot (Text.glyphs line')).fold = (i.upshot (Text.glyphs line)).fold := by
  unfold upshot
  rw [h.opens]
  split_ifs
  · cases h.headings with
    | failed hh hh' =>
      rw [hh, hh']
      have hbefore : beforeName (Text.glyphs line') = beforeName (Text.glyphs line) := by
        unfold beforeName
        cases h.inStep with
        | failed hn hn' => rw [hn, hn']
        | token hn hn' => rw [hn, hn']
      simp only [hbefore]
    | named hh hh' _ hbody =>
      rw [hh, hh']
      exact bodyUpshot_same i.dict h 2 hbody
  · rcases i.current with _ | draft
    · exact congrArg Upshot.fold (noneUpshot_same h)
    · exact bodyUpshot_same i.dict h 0 h
  · obtain ⟨htokens, hcut⟩ := h.scan
    rw [hcut]
    exact (course_same i.dict _ htokens 0 [] i.machine).2

end Interpreter

end Definitions

section Lines

open Token Interpreter

/-- Reading a line in another spelling leaves the same stack, the same words and the same definition
in progress, if any, and the two lines end in the same way: with the same response, or at the same
token with the same failure but for the word that it quotes, or in the same fault. -/
theorem spelling_immaterial (i : Interpreter) {line line' : Text} (h : Respelled line line') :
    let r := i.readLine line
    let r' := i.readLine line'
    r'.1.stack = r.1.stack ∧ r'.1.inDefinition = r.1.inDefinition ∧ r'.1.dict.fold = r.1.dict.fold
      ∧ r'.1.current.map Draft.fold = r.1.current.map Draft.fold
      ∧ r.2 = (i.upshot (Text.glyphs line)).reply ∧ r'.2 = (i.upshot (Text.glyphs line')).reply
      ∧ (i.upshot (Text.glyphs line')).fold = (i.upshot (Text.glyphs line)).fold := by
  intro r r'
  have hr := readLine_alike i line
  have hr' := readLine_alike i line'
  have hsame : SameBut r'.1 r.1 := hr'.1.sameBut hr.1 (process_same i h)
  exact ⟨hsame.stack, hsame.inDefinition, hsame.dict, hsame.current,
    hr.2.trans (process_reply i _), hr'.2.trans (process_reply i _), upshot_same i h⟩

/-- The sign for kelvin is another spelling of a letter, and so is a capital letter with a dot. -/
theorem spelling_immaterial_kelvin :
    let i := (Session.new []).core.readLines [Text.ofString ": skip 5 ;"]
    let line := Text.ofString "SKIP .\" SKIP\" Ki"
    let line' := Text.ofString "s\u212aip .\" SKIP\" \u212a\u0130"
    Respelled line line'
      ∧ i.upshot (Text.glyphs line) = .failed 2 (.missingWord (Text.ofString "Ki"))
      ∧ (i.readLine line').1.stack = (i.readLine line).1.stack
      ∧ (i.upshot (Text.glyphs line')).fold = .failed 2 (.missingWord (Text.ofString "ki")) := by
  intro i line line'
  have hspelled : Respelled line line' := by
    refine @Respelled.word [] (Text.ofString "SKIP") (Text.ofString "s\u212aip") _ _
      (reads_iff.2 (by decide +kernel)) (by decide +kernel) ?_
    refine @Respelled.other (Text.ofString " .\" SKIP\"") _ _ (.ok (.string (Text.ofString "SKIP")))
      (reads_iff.2 (by decide +kernel)) (by simp [Token.word, Token.string]) ?_
    exact @Respelled.word (Text.ofString " ") (Text.ofString "Ki") (Text.ofString "\u212a\u0130")
      [] [] (reads_iff.2 (by decide +kernel)) (by decide +kernel) (.same [])
  have hends : i.upshot (Text.glyphs line) = .failed 2 (.missingWord (Text.ofString "Ki")) := by
    decide +kernel
  obtain ⟨hstack, -, -, -, -, -, hupshot⟩ := spelling_immaterial i hspelled
  refine ⟨hspelled, hends, hstack, ?_⟩
  rw [hupshot, hends]
  decide +kernel

end Lines

end LineForth
