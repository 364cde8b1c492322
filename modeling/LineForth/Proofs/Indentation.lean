import LineForth.Proofs.Notes
import LineForth.Proofs.Tracing

/-!
# Indentation

The lines that a trace gets from one line of input are those of notes: events outside of every
word, none of them a step of one, and between them what the words that are run note
(`Interpreter.Notes`).  Whether the line is answered or ends with a fault, the lead is afterwards
the one before (`readLine_notes`).

In a session the lead is empty between lines and marks are not padded (`Trace.Plain`), so the line
of a note is its event behind two spaces for each word that is running (`trace_indented`).
-/

namespace LineForth

namespace Note

/-- The line of a note in a trace without a lead of its own. -/
def line (listing : Stack → Text) (n : Note) : Text :=
  n.lead ++ (n.event.mark ++ Text.space :: n.event.message listing)

end Note

section Tokens

variable (d : Dictionary)

/-- What running a token notes. -/
def tokenNotes (t : Token) (s : Stack) : List Note :=
  if t.quoted then []
  else match d.lookup t.text with
    | some e =>
      match e.meaning.marker? with
      | some _ => []
      | none => d.notes e.address s
    | none => []

/-- What running tokens notes, up to the first that does not end well. -/
def tokensNotes : List Token → Stack → List Note
  | [], _ => []
  | t :: ts, s =>
    tokenNotes d t s ++
      match Interpreter.execute d t { stack := s } with
      | (m, .done _) => tokensNotes ts m.stack
      | _ => []

theorem execute_trace (t : Token) (m : Machine) :
    (Interpreter.execute d t m).1.trace = m.trace.noteAll (tokenNotes d t m.stack) := by
  unfold Interpreter.execute tokenNotes
  rcases t.quoted
  · simp only [Bool.false_eq_true, if_false]
    rcases d.lookup t.text with _ | e
    · rcases Cell.ofText? t.text with _ | c
      · simp only []
        split_ifs <;> rfl
      · rfl
    · rcases hmark : e.meaning.marker? with _ | k
      · simp only [hmark]
        exact runAt_trace d.entries e.address m
      · simp only [hmark]
        rfl
  · rfl

theorem runTokens_trace : ∀ (ts : List Token) (m : Machine),
    (Interpreter.runTokens d ts m).1.trace = m.trace.noteAll (tokensNotes d ts m.stack)
  | [], _ => rfl
  | t :: ts, m => by
    have htrace := execute_trace d t m
    have hsame := Interpreter.execute_sameStack d t
      (show SameStack m { stack := m.stack } from rfl)
    rw [Interpreter.runTokens, tokensNotes, Trace.noteAll_append, ← htrace]
    rcases hr : Interpreter.execute d t m with ⟨n, o⟩
    rcases hr' : Interpreter.execute d t { stack := m.stack } with ⟨n', o'⟩
    rw [hr, hr'] at hsame
    obtain ⟨hstack, rfl⟩ := hsame
    cases o with
    | done out =>
      have hstack : n.stack = n'.stack := hstack
      simp only [andThen_done, ← hstack]
      exact runTokens_trace ts n
    | failed out f => rfl
    | broke word place => rfl

end Tokens

section Outside

/-- A step of a word. -/
def Event.isStep : Event → Bool
  | .stepped _ _ => true
  | _ => false

/-- Notes of events outside of every word. -/
def outside (es : List Event) : List Note := es.map fun e => { event := e }

theorem outside_append (es es' : List Event) :
    outside (es ++ es') = outside es ++ outside es' := List.map_append

/-- From `t` to `t'` there is nothing but events outside of every word. -/
def Trace.Aside (t t' : Trace) : Prop :=
  ∃ es : List Event, (∀ e ∈ es, e.isStep = false) ∧ t' = t.noteAll (outside es)

namespace Trace.Aside

variable {t t' t'' : Trace}

theorem refl (t : Trace) : Aside t t := ⟨[], by simp, rfl⟩

theorem trans (h : Aside t t') (h' : Aside t' t'') : Aside t t'' := by
  obtain ⟨es, hes, rfl⟩ := h
  obtain ⟨es', hes', rfl⟩ := h'
  refine ⟨es ++ es', List.forall_mem_append.2 ⟨hes, hes'⟩, ?_⟩
  rw [outside_append, noteAll_append]

theorem event (t : Trace) {e : Event} (he : e.isStep = false) : Aside t (t.event e) :=
  ⟨[e], by simpa using he, (t.noteAt_outside e).symm⟩

end Trace.Aside

theorem Draft.addAll_aside (d : Dictionary) : ∀ (ts : List Token) (draft : Draft) (t : Trace),
    t.Aside (Draft.addAll d ts draft t).2.1
  | [], _, t => .refl t
  | x :: ts, draft, t => by
    rw [addAll, add]
    rcases resolve d x with f | _ | a
    · exact .refl t
    · exact addAll_aside d ts draft t
    · exact (Trace.Aside.event t rfl).trans (addAll_aside d ts _ _)

namespace Interpreter

variable (i : Interpreter)

theorem fail_aside (f : Failure) : i.trace.Aside (i.fail f).1.trace := by
  unfold fail
  split_ifs
  · exact .event i.trace rfl
  · exact .refl i.trace

theorem define_aside (draft : Draft) (line body : List Glyph) :
    i.trace.Aside (i.define draft line body).1.trace := by
  have hadd := Draft.addAll_aside i.dict (Token.scan body).tokens draft i.trace
  unfold define
  rcases hall : Draft.addAll i.dict (Token.scan body).tokens draft i.trace
    with ⟨draft', t, _ | f⟩ <;> rw [hall] at hadd
  · rcases hscan : (Token.scan body).failure with _ | f
    · simp only [hall, hscan]
      split_ifs
      · exact hadd.trans (.event t rfl)
      · exact hadd
    · simp only [hall, hscan]
      exact hadd.trans (fail_aside (i.withTrace t).endDefinition f)
  · simp only [hall]
    exact hadd.trans (fail_aside (i.withTrace t).endDefinition f)

theorem defineNone_aside (line body : List Glyph) :
    i.trace.Aside (i.defineNone line body).1.trace := by
  unfold defineNone
  split
  · exact .refl i.trace
  · exact fail_aside i.endDefinition _
  · split_ifs <;> exact .refl i.trace

/-- Running a line records what its tokens note, and perhaps a failure. -/
theorem immediate_aside (line : List Glyph) :
    (i.trace.noteAll (tokensNotes i.dict (Token.scan line).tokens i.stack)).Aside
      (i.immediate line).1.trace := by
  have htrace := runTokens_trace i.dict (Token.scan line).tokens i.machine
  rw [← (executeAll_eq i.dict (Token.scan line).tokens [] i.machine).1] at htrace
  rw [trace, stack, ← htrace]
  unfold immediate
  rcases hall : executeAll i.dict [] (Token.scan line).tokens i.machine
    with ⟨m, out | ⟨out, f⟩ | ⟨word, place⟩⟩
  · rcases hscan : (Token.scan line).failure with _ | f
    · simp only [hall, hscan]
      exact .refl m.trace
    · simp only [hall, hscan]
      exact fail_aside { i with machine := m } f
  · simp only [hall]
    exact fail_aside { i with machine := m } f
  · simp only [hall]
    exact .refl m.trace

/-- What the words that a line runs note; a line of a definition runs none. -/
def wordNotes (line : List Glyph) : List Note :=
  if Token.opensDefinition line || i.inDefinition then []
  else tokensNotes i.dict (Token.scan line).tokens i.stack

theorem process_aside (line : List Glyph) :
    ∃ t, i.trace.Aside t ∧ (t.noteAll (i.wordNotes line)).Aside (i.process line).1.trace := by
  unfold process enter startDefinition wordNotes
  rcases Token.opensDefinition line
  · rcases hin : i.inDefinition
    · simp only [Bool.false_eq_true, if_false, hin, Bool.or_false]
      exact ⟨i.trace, .refl _, immediate_aside i line⟩
    · simp only [Bool.false_eq_true, if_false, hin, if_true, Bool.or_true]
      refine ⟨_, ?_, .refl _⟩
      rcases i.current with _ | draft
      · exact defineNone_aside i line line
      · exact define_aside i draft line line
  · refine ⟨_, ?_, .refl _⟩
    simp only [if_true]
    rcases heading line with f | ⟨name, body⟩
    · exact fail_aside i.endDefinition f
    · exact (Trace.Aside.event i.trace rfl).trans (define_aside _ _ _ _)

/-- The notes of a line: what the words that it runs note, between events outside of every word. -/
def Notes (line : Text) (ns : List Note) : Prop :=
  ∃ before after : List Event, (∀ e ∈ before ++ after, e.isStep = false)
    ∧ ns = outside before ++ i.wordNotes (Text.glyphs line) ++ outside after

/-- A line records its notes, and after it the lead is the same as before. -/
theorem readLine_notes (line : Text) :
    ∃ ns, i.Notes line ns ∧ (i.readLine line).1.trace = i.trace.noteAll ns := by
  obtain ⟨t, hbefore, hafter⟩ := process_aside (i.event (.heard line)) (Text.glyphs line)
  have hall : (((i.event (.heard line)).process (Text.glyphs line)).1.trace).Aside
      (i.readLine line).1.trace := by
    unfold readLine
    rcases (i.event (.heard line)).process (Text.glyphs line) with ⟨j, response | why⟩
    · exact .event j.trace rfl
    · exact .refl j.trace
  obtain ⟨before, hb, rfl⟩ := (Trace.Aside.event i.trace (e := .heard line) rfl).trans hbefore
  obtain ⟨after, ha, heq⟩ := hafter.trans hall
  refine ⟨_, ⟨before, after, List.forall_mem_append.2 ⟨hb, ha⟩, rfl⟩, ?_⟩
  rw [heq, Trace.noteAll_append, Trace.noteAll_append]
  rfl

end Interpreter

end Outside

section Lines

namespace Format

/-- Spaces of a format stand for themselves. -/
theorem pieces_spaces (args : List Arg) (gs : List Glyph) (fuel : Nat) :
    ∀ (n : Nat) (acc : List Text),
      pieces args (n + fuel) acc { rest := List.replicate n (.char ' ') ++ gs }
        = pieces args fuel (List.replicate n [Text.space] ++ acc) { rest := gs }
  | 0, acc => by
    rw [Nat.zero_add]
    rfl
  | n + 1, acc => by
    have hspace : pieces args (n + 1 + fuel) acc
        { rest := List.replicate (n + 1) (.char ' ') ++ gs }
          = pieces args (n + fuel) ([Text.space] :: acc)
            { rest := List.replicate n (.char ' ') ++ gs } := by
      rw [Nat.add_right_comm]
      rfl
    rw [hspace, pieces_spaces args gs fuel n, List.replicate_succ', List.append_assoc]
    rfl

theorem glyphs_spaces (t : Text) : ∀ n : Nat,
    Text.glyphs (List.replicate n Text.space ++ t)
      = List.replicate n (.char ' ') ++ Text.glyphs t
  | 0 => rfl
  | n + 1 => by
    rw [List.replicate_succ, List.cons_append, Text.glyphs_cons (by decide), glyphs_spaces t n]
    rfl

/-- The format of a trace line whose lead is of spaces only. -/
theorem render_spaces (n : Nat) (mark message : Text) :
    render (List.replicate n Text.space ++ Text.ofString "%v %v") [.text mark, .text message]
      = List.replicate n Text.space ++ (mark ++ Text.space :: message) := by
  have hverbs : pieces [.text mark, .text message] 5 (List.replicate n [Text.space] ++ [])
      { rest := Text.glyphs (Text.ofString "%v %v") }
      = (message :: [] :: [Text.space] :: mark :: [] :: (List.replicate n [Text.space] ++ []),
        { rest := [], place := 2 }) := rfl
  have hlength : (List.replicate n (Glyph.char ' ')
      ++ Text.glyphs (Text.ofString "%v %v")).length = n + 5 := by
    rw [List.length_append, List.length_replicate]
    rfl
  rw [render, glyphs_spaces, hlength, pieces_spaces, hverbs]
  simp

end Format

/-- A mark is one byte, and no space. -/
theorem Event.mark_eq (e : Event) : ∃ b : UInt8, e.mark = [b] ∧ b ≠ Text.space := by
  cases e <;> exact ⟨_, rfl, by decide⟩

/-- The spaces in front of the mark are all those of the lead. -/
theorem Note.line_spaces (listing : Stack → Text) (n : Note) :
    (n.line listing).takeWhile (· = Text.space) = n.lead := by
  obtain ⟨b, hmark, hb⟩ := n.event.mark_eq
  rw [line, hmark, List.takeWhile_append_of_pos (by simp [lead]), List.singleton_append,
    List.takeWhile_cons_of_neg (by simpa using hb), List.append_nil]

namespace Trace

/-- A trace between two lines: no lead, and marks that are not padded. -/
structure Plain (t : Trace) : Prop where
  lead : t.lead = []
  width : t.width ≤ 1

variable {t : Trace}

theorem Plain.noteAt (h : t.Plain) (n : Note) : (t.noteAt n).Plain := by
  refine ⟨(noteAt_same t n).2.2.trans h.lead, ?_⟩
  rcases hon : t.on
  · rw [noteAt_off t n hon]
    exact h.width
  · obtain ⟨b, hmark, -⟩ := n.event.mark_eq
    rw [noteAt_on t n hon, hmark]
    exact max_le h.width le_rfl

theorem Plain.lines_noteAt (h : t.Plain) (hon : t.on) (n : Note) :
    (t.noteAt n).lines = t.lines ++ [n.line t.listing] := by
  obtain ⟨b, hmark, -⟩ := n.event.mark_eq
  have hpadded : padded t.width [b] = [b] := by
    have hzero : t.width - 1 = 0 := Nat.sub_eq_zero_of_le h.width
    unfold padded
    split <;> simp [hzero]
  rw [noteAt_on t n hon, lines, lines, List.reverse_cons, line, withLead, h.lead, List.nil_append,
    hmark, hpadded, Note.lead, Format.render_spaces, Note.line, hmark]
  rfl

theorem Plain.noteAll (ns : List Note) (h : t.Plain) : (t.noteAll ns).Plain :=
  List.foldlRecOn ns Trace.noteAt h fun _ h n _ => h.noteAt n

theorem Plain.lines_noteAll (h : t.Plain) (hon : t.on) (ns : List Note) :
    (t.noteAll ns).lines = t.lines ++ ns.map (Note.line t.listing) := by
  induction ns generalizing t with
  | nil => simp
  | cons n ns ih =>
    have hrest := ih (h.noteAt n) ((on_noteAt t n).trans hon)
    rw [h.lines_noteAt hon, (noteAt_same t n).2.1, List.append_assoc] at hrest
    exact hrest

end Trace

end Lines

section Sessions

/-- What holds of the interpreter of a session between two operations. -/
structure Interpreter.Settled (i : Interpreter) : Prop where
  trace : i.trace.Plain
  dict : i.dict.WellFormed

theorem Interpreter.Effect.wellFormed {i : Interpreter} {line : List Glyph} {s : Stack}
    {d : Dictionary} {mode : Mode} {reply : Reply} (he : i.Effect line s d mode reply)
    (h : i.dict.WellFormed) : d.WellFormed := by
  cases he with
  | compiled => exact h.add _ _
  | nameless | rejected | continued | ran | noDraft | noDraftFailed => exact h

namespace Interpreter.Settled

variable {i : Interpreter}

theorem event (h : i.Settled) (e : Event) : (i.event e).Settled where
  trace := by
    have hplain := h.trace.noteAt { event := e }
    rw [Trace.noteAt_outside] at hplain
    exact hplain
  dict := h.dict

theorem install (h : i.Settled) (name : Text) (meaning : Meaning) :
    (i.install name meaning).Settled := ⟨h.trace, h.dict.add name meaning⟩

theorem readLine (h : i.Settled) (line : Text) : (i.readLine line).1.Settled where
  trace := by
    obtain ⟨ns, -, htrace⟩ := readLine_notes i line
    rw [htrace]
    exact h.trace.noteAll ns
  dict := (readLine_effect i line).wellFormed h.dict

theorem boot (h : i.Settled) : i.boot.Settled := by
  have hnative := List.foldlRecOn (motive := Settled) primitives
    (fun i w => i.install (Text.ofString w.1) (.native w.2)) h fun _ h w _ => h.install _ _
  have hmarker := List.foldlRecOn (motive := Settled) markers
    (fun i w => i.install (Text.ofString w.1) (.marker w.2)) hnative fun _ h w _ => h.install _ _
  have hsource := List.foldlRecOn (motive := Settled) sources
    (fun i s => (i.readLine (Text.ofString s)).1) hmarker fun _ h s _ => h.readLine _
  exact hsource.install _ _

end Interpreter.Settled

namespace Session

variable {s : Session}

theorem apply_settled (h : s.core.Settled) (setting : Setting) :
    (s.apply setting).core.Settled := by
  cases setting with
  | lines source =>
    unfold apply addSource
    simp only []
    split_ifs <;> exact h
  | trace => exact ⟨⟨h.trace.lead, h.trace.width⟩, h.dict⟩
  | input | output | tee | echo | stack => exact ⟨h.trace, h.dict⟩

theorem new_settled (trees : List SettingTree) (listing : Stack → Text) :
    (Session.new trees listing).core.Settled := by
  have hempty : (blank listing).core.Settled :=
    ⟨⟨rfl, Nat.zero_le 1⟩, ⟨List.nodup_nil, fun _ he => absurd he List.not_mem_nil, trivial⟩⟩
  rw [new_eq]
  exact (List.foldlRecOn (motive := fun s : Session => s.core.Settled) (SettingTree.leavesOf trees)
    apply hempty fun _ h setting _ => apply_settled h setting).boot

theorem fetch_settled (h : s.core.Settled) : s.fetch.1.core.Settled := by
  unfold fetch
  rcases s.source with _ | source
  · rcases s.input.readLine with ⟨input, p | l⟩
    · exact h
    · exact h.event _
  · exact h

theorem exchange_settled (h : s.core.Settled) : s.exchange.1.core.Settled := by
  have hfetch := fetch_settled h
  unfold exchange
  rcases hf : s.fetch with ⟨t, p | line⟩ <;> rw [hf] at hfetch
  · exact hfetch
  · have hline : (t.readLine line).1.core.Settled := hfetch.readLine line
    rcases hr : t.readLine line with ⟨u, response | f⟩ <;> rw [hr] at hline
    · simp only [hr]
      exact hline
    · simp only [hr]
      exact hline

theorem respond_core (s : Session) (line response : Text) :
    (s.respond line response).1.core = s.core := by
  unfold respond
  rcases record s.echo line response with _ | t
  · rfl
  · simp only []
    rcases Ansi.write s.out s.outlets t with ⟨os, n, _ | p⟩ <;> rfl

theorem run_settled (halt : Option Problem) : ∀ (fuel : Nat) {s : Session}, s.core.Settled →
    (s.run halt fuel).1.core.Settled
  | 0, _, h => h
  | fuel + 1, s, h => by
    unfold run
    rcases halt with _ | p
    · have hexchange := exchange_settled h
      rcases he : s.exchange with ⟨t, stop | ⟨line, response⟩⟩ <;> rw [he] at hexchange
      · exact hexchange
      · have hrespond := respond_core t line response
        rcases hr : t.respond line response with ⟨u, _ | p⟩ <;> rw [hr] at hrespond <;>
          simp only [hr]
        · exact run_settled none fuel (hrespond ▸ hexchange)
        · exact hrespond ▸ hexchange
    · exact h

theorem operate_settled (h : s.core.Settled) (op : Operation) : (s.operate op).1.core.Settled := by
  cases op with
  | line text => exact h.readLine text
  | interpret halt => exact run_settled halt (s.remaining + 1) h
  | next => exact fetch_settled h
  | respond line response => exact (respond_core s line response).symm ▸ h
  | close | dump => exact h
  | install name w => exact h.install name _

/-- The session after all of the operations. -/
def operateAll (s : Session) (ops : List Operation) : Session :=
  ops.foldl (fun s op => (s.operate op).1) s

theorem operateAll_settled (trees : List SettingTree) (listing : Stack → Text)
    (ops : List Operation) : ((Session.new trees listing).operateAll ops).core.Settled :=
  List.foldlRecOn (motive := fun s : Session => s.core.Settled) ops _ (new_settled trees listing)
    fun _ h op _ => operate_settled h op

end Session

end Sessions

/-- In every state of a session a line leaves the trace with the listener and the lead that it had
before, however it ends.  If the session is traced, the lines that it adds to the trace are those of
its notes, each behind two spaces for each compiled word that is running and no more.  A compiled
word notes the actions of it that are executed, in order and each followed by what the word that it
calls notes; so these actions are all that it notes itself. -/
theorem trace_indented (trees : List SettingTree) (listing : Stack → Text)
    (ops : List Session.Operation) (line : Text) :
    let i := ((Session.new trees listing).operateAll ops).core
    let j := (i.readLine line).1
    (j.trace.listener = i.trace.listener ∧ j.trace.listing = i.trace.listing
        ∧ j.trace.lead = i.trace.lead)
      ∧ (i.trace.on → ∃ ns, i.Notes line ns
        ∧ j.trace.lines = i.trace.lines ++ ns.map (Note.line i.trace.listing)
        ∧ ∀ n ∈ ns, (n.line i.trace.listing).takeWhile (· = Text.space)
          = List.replicate (2 * n.running.length) Text.space)
      ∧ ∀ newer e older, i.dict.entries = newer ++ e :: older →
        ∀ name code, e.meaning = .compiled name code → ∀ s,
          let steps := executed (runAt older) name code s
          i.dict.notes e.address s
              = (activity name (notesAt older) steps).map (Note.within name)
            ∧ ((i.dict.notes e.address s).filter (·.running.length = 1)).map Note.event
              = steps.map fun x => .stepped name x.1 := by
  intro i j
  have hi : i.Settled := Session.operateAll_settled trees listing ops
  obtain ⟨ns, hns, htrace⟩ := Interpreter.readLine_notes i line
  have htrace : j.trace = i.trace.noteAll ns := htrace
  rw [htrace]
  refine ⟨i.trace.noteAll_same ns, fun hon => ⟨ns, hns, hi.trace.lines_noteAll hon ns,
    fun n _ => n.line_spaces _⟩, fun newer e older hentries name code hcode s => ?_⟩
  have hnotes := notesAt_entry (hentries ▸ hi.dict.numbered) s
  rw [hcode] at hnotes
  rw [Dictionary.notes, hentries, hnotes]
  exact ⟨rfl, activity_own name _⟩

/-- A fault inside a word that another word calls. -/
theorem trace_indented_nested :
    let lines := [": one 1 if ;", ": two 2 one ;"].map Text.ofString
    let i := ((Session.new [.one (.trace (some 3))]).operateAll (lines.map .line)).core
    let j := (i.readLine (Text.ofString "two")).1
    i.trace.on ∧ j.trace.lead = i.trace.lead
      ∧ ∃ ns, i.Notes (Text.ofString "two") ns ∧ ns.map (Note.line i.trace.listing)
        = ["> \"two\"", "  @ two 2", "  @ two one", "    @ one 1"].map Text.ofString := by
  intro lines i j
  obtain ⟨⟨-, -, hlead⟩, hnotes, -⟩ :=
    trace_indented [.one (.trace (some 3))] Stack.listing (lines.map .line) (Text.ofString "two")
  have hon : i.trace.on := by decide +kernel
  obtain ⟨ns, hns, hlines, -⟩ := hnotes hon
  have hj : j.trace.lines = i.trace.lines
      ++ ["> \"two\"", "  @ two 2", "  @ two one", "    @ one 1"].map Text.ofString := by
    decide +kernel
  exact ⟨hon, hlead, ns, hns, List.append_cancel_left (hlines.symm.trans hj)⟩

end LineForth
