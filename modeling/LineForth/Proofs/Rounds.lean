import Mathlib.Data.List.Basic
import LineForth.Proofs.Alike
import LineForth.Proofs.Streams

/-!
# Rounds of a session

A session reads a line, runs it and writes the answer, round after round, until something ends it: a
line cannot be read, a line breaks off, or an answer cannot be written.  `Session.Runs` describes
such a run without counting rounds, with the lines that it hands to the interpreter, and every call
of `Session.interpret` that has time is one (`interpret_runs`).

What a session can still read are its deliveries.  Fetching takes the first of them (`fetch_takes`),
and nothing else touches them.  So the lines that a run hands over are the next ones, each of them
once, and a run that was ended by a line leaves off right behind it (`Runs.deliveries`).
-/

namespace LineForth

namespace LineSource

def deliveries (s : LineSource) : List (Except Problem Text) :=
  s.lines.map .ok ++ s.later.map (Sum.elim .error .ok)

/-- What is read when nothing is left. -/
def final (s : LineSource) : Problem := s.trouble.getD .endOfFile

theorem read_takes (s : LineSource) : s.deliveries = s.read.2 :: s.read.1.deliveries
    ∨ s.deliveries = [] ∧ s.read = (s, .error s.final) := by
  rcases hl : s.lines with _ | ⟨l, ls⟩
  · rcases hr : s.later with _ | ⟨r, rs⟩
    · right
      simp [deliveries, read, final, hl, hr]
    · left
      simp [deliveries, read, hl, hr]
  · left
    simp [deliveries, read, hl]

theorem read_trouble (s : LineSource) : s.read.1.trouble = s.trouble := by
  unfold read
  split <;> rfl

end LineSource

namespace Session

section Fetching

/-- All that a session can still read. -/
def deliveries (s : Session) : List (Except Problem Text) :=
  match s.source with
  | some source => source.deliveries
  | none => s.input.deliveries

def final (s : Session) : Problem :=
  match s.source with
  | some source => source.final
  | none => .endOfFile

def linesOf (ds : List (Except Problem Text)) : List Text := ds.filterMap Except.toOption

def upcoming (s : Session) : List Text := linesOf s.deliveries

theorem linesOf_append (ds ds' : List (Except Problem Text)) :
    linesOf (ds ++ ds') = linesOf ds ++ linesOf ds' := List.filterMap_append

theorem linesOf_ok (lines : List Text) : linesOf (lines.map .ok) = lines := by
  simp [linesOf, List.filterMap_map, Function.comp_def, Except.toOption]

variable {s s' : Session}

/-- Fetching takes the first delivery; with none left it gives the final problem. -/
theorem fetch_takes (s : Session) : s.deliveries = s.fetch.2 :: s.fetch.1.deliveries
    ∨ s.deliveries = [] ∧ s.fetch.1.deliveries = [] ∧ s.fetch.2 = .error s.final := by
  unfold fetch deliveries final
  rcases hs : s.source with _ | source
  · have htakes := s.input.readLine_reads.takes
    rcases hr : s.input.readLine with ⟨input, p | l⟩ <;> rw [hr] at htakes
    · rcases htakes with h | ⟨h, hp, hnil⟩
      · left
        simpa [hr, hs] using h
      · right
        exact ⟨h, by simp [Input.deliveries, hnil], hp⟩
    · rcases htakes with h | ⟨-, hp, -⟩
      · left
        simpa [hr, hs] using h
      · cases hp
  · rcases source.read_takes with h | ⟨h, hread⟩
    · left
      simpa using h
    · right
      simp [hread, h]

theorem fetch_keeps (s : Session) : s.fetch.1.core.Alike s.core ∧ s.fetch.1.out = s.out
    ∧ s.fetch.1.outlets = s.outlets ∧ s.fetch.1.echo = s.echo ∧ s.fetch.1.final = s.final := by
  unfold fetch
  rcases hs : s.source with _ | source
  · rcases hr : s.input.readLine with ⟨input, p | l⟩
    · exact ⟨.refl _, rfl, rfl, rfl, by simp [final, hs]⟩
    · exact ⟨Interpreter.alike_event _ _, rfl, rfl, rfl, by simp [final, hs]⟩
  · exact ⟨.refl _, rfl, rfl, rfl, by simp [final, hs, LineSource.final, LineSource.read_trouble]⟩

theorem respond_eq {line response : Text} {p : Option Problem}
    (h : s.respond line response = (s', p)) : s' = { s with outlets := s'.outlets } := by
  obtain rfl := congrArg Prod.fst h
  unfold respond
  split
  · rfl
  · split <;> rfl

theorem fetch_deliveries {r : Except Problem Text} (h : s.fetch = (s', r)) :
    s.deliveries = r :: s'.deliveries
      ∨ s.deliveries = [] ∧ s'.deliveries = [] ∧ r = .error s.final := by
  have := s.fetch_takes
  rwa [h] at this

theorem fetch_line {line : Text} (h : s.fetch = (s', .ok line)) :
    s.deliveries = .ok line :: s'.deliveries := by
  rcases fetch_deliveries h with h | ⟨-, -, h⟩
  · exact h
  · cases h

theorem readLine_deliveries {line : Text} {r : Reply} (h : s.readLine line = (s', r)) :
    s'.deliveries = s.deliveries := by
  obtain rfl := congrArg Prod.fst h
  rfl

theorem respond_deliveries {line response : Text} {p : Option Problem}
    (h : s.respond line response = (s', p)) : s'.deliveries = s.deliveries := by
  rw [respond_eq h]
  rfl

theorem upcoming_length_le (s : Session) : s.upcoming.length ≤ s.remaining := by
  unfold upcoming deliveries remaining
  rcases s.source with _ | source
  · refine Nat.le_of_eq (congrArg List.length ?_)
    unfold Input.deliveries linesOf
    rw [List.filterMap_flatMap]
    refine List.flatMap_congr fun t _ => ?_
    rcases h : t.ending with _ | p <;>
      simp [Stream.deliveries, h, List.filterMap_map, Function.comp_def, Except.toOption]
  · have hlater := List.length_filterMap_le Except.toOption
      (source.later.map (Sum.elim Except.error Except.ok))
    rw [List.length_map] at hlater
    simp only [LineSource.deliveries, linesOf_append, linesOf_ok, List.length_append]
    exact Nat.add_le_add_left hlater _

end Fetching

section Running

/-- How a run ends: nothing more can be read, a line breaks off, or an answer cannot be written. -/
inductive Ending
  | unread (p : Problem)
  | broken (f : Fault)
  | unwritten (p : Problem)
deriving DecidableEq

def Ending.stop : Ending → Stop
  | .unread p => .problem p
  | .broken f => .fault f
  | .unwritten p => .problem p

/-- A line is read and run; the answer is still to be written. -/
def Hears (s : Session) (line : Text) (s' : Session) (r : Reply) : Prop :=
  ∃ s₁, s.fetch = (s₁, .ok line) ∧ s₁.readLine line = (s', r)

/-- A run of rounds, with the lines that it hands to the interpreter. -/
inductive Runs : Session → List Text → Session → Ending → Prop
  | unread {s s' : Session} {p : Problem} : s.fetch = (s', .error p) → Runs s [] s' (.unread p)
  | broken {s s' : Session} {line : Text} {f : Fault} : s.Hears line s' (.fault f) →
      Runs s [line] s' (.broken f)
  | unwritten {s s₁ s' : Session} {line response : Text} {p : Problem} :
      s.Hears line s₁ (.answer response) → s₁.respond line response = (s', some p) →
      Runs s [line] s' (.unwritten p)
  | answered {s s₁ s₂ s' : Session} {line response : Text} {lines : List Text} {e : Ending} :
      s.Hears line s₁ (.answer response) → s₁.respond line response = (s₂, none) →
      Runs s₂ lines s' e → Runs s (line :: lines) s' e

variable {s s₁ s₂ s' : Session} {line response : Text} {lines : List Text} {r : Reply} {e : Ending}

theorem exchange_cases (s : Session) :
    (∃ s' p, s.fetch = (s', .error p) ∧ s.exchange = (s', .error (.problem p)))
      ∨ (∃ line s' f, s.Hears line s' (.fault f) ∧ s.exchange = (s', .error (.fault f)))
      ∨ ∃ line s' response, s.Hears line s' (.answer response)
        ∧ s.exchange = (s', .ok (line, response)) := by
  unfold exchange
  rcases hf : s.fetch with ⟨s₁, p | line⟩
  · exact .inl ⟨s₁, p, rfl, rfl⟩
  · simp only []
    rcases hr : s₁.readLine line with ⟨s', response | f⟩
    · exact .inr (.inr ⟨line, s', response, ⟨s₁, hf, hr⟩, rfl⟩)
    · exact .inr (.inl ⟨line, s', f, ⟨s₁, hf, hr⟩, rfl⟩)

theorem Hears.core (h : s.Hears line s' r) :
    s'.core.Alike (s.core.readLine line).1 ∧ (s.core.readLine line).2 = r := by
  obtain ⟨s₁, hf, hr⟩ := h
  have halike := s.fetch_keeps.1
  rw [hf] at halike
  obtain ⟨hcore, hreply⟩ := halike.readLine line
  obtain ⟨rfl, rfl⟩ := Prod.mk.inj hr
  exact ⟨hcore, hreply.symm⟩

theorem Hears.keeps (h : s.Hears line s' r) :
    s'.out = s.out ∧ s'.outlets = s.outlets ∧ s'.echo = s.echo := by
  obtain ⟨s₁, hf, hr⟩ := h
  obtain ⟨-, hkeeps⟩ := s.fetch_keeps
  rw [hf] at hkeeps
  obtain rfl := congrArg Prod.fst hr
  exact ⟨hkeeps.1, hkeeps.2.1, hkeeps.2.2.1⟩

theorem Hears.final (h : s.Hears line s' r) : s'.final = s.final := by
  obtain ⟨s₁, hf, hr⟩ := h
  obtain ⟨-, hkeeps⟩ := s.fetch_keeps
  rw [hf] at hkeeps
  obtain rfl := congrArg Prod.fst hr
  exact hkeeps.2.2.2

theorem Hears.deliveries (h : s.Hears line s' r) : s.deliveries = .ok line :: s'.deliveries := by
  obtain ⟨s₁, hf, hr⟩ := h
  rw [fetch_line hf, readLine_deliveries hr]

/-- With a round for each line that can be read and one more, running comes to an end of its own. -/
theorem run_runs : ∀ (fuel : Nat) (s : Session), s.upcoming.length < fuel →
    ∃ lines s' e, Runs s lines s' e ∧ s.run none fuel = (s', e.stop)
  | 0, _, hfuel => absurd hfuel (Nat.not_lt_zero _)
  | fuel + 1, s, hfuel => by
    rw [run]
    rcases s.exchange_cases with
      ⟨s', p, hf, hx⟩ | ⟨line, s', f, hh, hx⟩ | ⟨line, s₁, response, hh, hx⟩
    · exact ⟨[], s', .unread p, .unread hf, by simp only [hx]; rfl⟩
    · exact ⟨[line], s', .broken f, .broken hh, by simp only [hx]; rfl⟩
    · simp only [hx]
      rcases hr : s₁.respond line response with ⟨s₂, _ | p⟩
      · have hlt : s₂.upcoming.length < fuel := by
          have hup : s.upcoming = line :: s₂.upcoming := by
            simp [upcoming, linesOf, hh.deliveries, respond_deliveries hr, Except.toOption]
          rw [hup, List.length_cons] at hfuel
          omega
        obtain ⟨lines, s', e, hruns, hrun⟩ := run_runs fuel s₂ hlt
        exact ⟨line :: lines, s', e, .answered hh hr hruns, hrun⟩
      · exact ⟨[line], s₂, .unwritten p, .unwritten hh hr, rfl⟩

/-- A call is a run, after which the output is flushed once more. -/
theorem interpret_runs (s : Session) : ∃ lines s' e, Runs s lines s' e
    ∧ s.interpret none = (s'.flush.1, report s'.input.last e.stop.toProblem) := by
  obtain ⟨lines, s', e, hruns, hrun⟩ :=
    run_runs (s.remaining + 1) s (Nat.lt_succ_of_le s.upcoming_length_le)
  refine ⟨lines, s', e, hruns, ?_⟩
  simp only [interpret, hrun]
  rfl

/-- A run hands over the next lines.  If it did not end for want of a line, the last of them is the
one that ended it, and the next delivery is the one behind it. -/
theorem Runs.deliveries (h : Runs s lines s' e) :
    (∃ p, e = .unread p ∧ (s.deliveries = lines.map .ok ++ .error p :: s'.deliveries
        ∨ s.deliveries = lines.map .ok ∧ s'.deliveries = [] ∧ p = s.final))
      ∨ (∀ p, e ≠ .unread p) ∧ lines ≠ [] ∧ s.deliveries = lines.map .ok ++ s'.deliveries := by
  induction h with
  | unread hf =>
    refine .inl ⟨_, rfl, ?_⟩
    rcases fetch_deliveries hf with h | ⟨h, h', hp⟩
    · exact .inl h
    · cases hp
      exact .inr ⟨h, h', rfl⟩
  | broken hh => exact .inr ⟨by simp, by simp, hh.deliveries⟩
  | unwritten hh hr =>
    refine .inr ⟨by simp, by simp, ?_⟩
    rw [hh.deliveries, respond_deliveries hr]
    rfl
  | @answered s s₁ s₂ s' line response lines e hh hr _ ih =>
    have hd : s.deliveries = .ok line :: s₂.deliveries := by
      rw [hh.deliveries, respond_deliveries hr]
    have hfinal : s₂.final = s.final := by
      rw [← hh.final, respond_eq hr]
      rfl
    rw [hd]
    rcases ih with ⟨p, rfl, h | ⟨h, h', hp⟩⟩ | ⟨hne, -, h⟩
    · exact .inl ⟨p, rfl, .inl (by simp [h])⟩
    · exact .inl ⟨p, rfl, .inr ⟨by simp [h], h', hp.trans hfinal⟩⟩
    · exact .inr ⟨hne, by simp, by simp [h]⟩

theorem Runs.upcoming (h : Runs s lines s' e) : s.upcoming = lines ++ s'.upcoming := by
  unfold Session.upcoming
  rcases h.deliveries with ⟨p, -, h | ⟨h, h', -⟩⟩ | ⟨-, -, h⟩
  · rw [h, linesOf_append, linesOf_ok]
    rfl
  · rw [h, h', linesOf_ok]
    simp [linesOf]
  · rw [h, linesOf_append, linesOf_ok]

theorem Runs.core (h : Runs s lines s' e) : s'.core.Alike (s.core.readLines lines) := by
  induction h with
  | @unread s s' p hf =>
    have := s.fetch_keeps.1
    rwa [hf] at this
  | broken hh => exact hh.core.1
  | unwritten hh hr =>
    rw [respond_eq hr]
    exact hh.core.1
  | @answered s s₁ s₂ s' line response lines e hh hr _ ih =>
    have hcore : s₂.core.Alike (s.core.readLine line).1 := by
      rw [respond_eq hr]
      exact hh.core.1
    exact ih.trans (hcore.readLines lines)

/-- A run starts with the next delivery, if that is a line. -/
theorem Runs.starts (h : Runs s lines s' e) (hnext : s.deliveries.head? = some (.ok line)) :
    lines.head? = some line := by
  rcases lines with _ | ⟨l, ls⟩
  · rcases h.deliveries with ⟨p, -, h | ⟨h, -⟩⟩ | ⟨-, hne, -⟩
    · simp [h] at hnext
    · simp [h] at hnext
    · exact absurd rfl hne
  · rcases h.deliveries with ⟨p, -, h | ⟨h, -⟩⟩ | ⟨-, -, h⟩ <;> simpa [h] using hnext

theorem Hears.unique {line' : Text} {t : Session} {r' : Reply} (h : s.Hears line s' r)
    (h' : s.Hears line' t r') : line' = line ∧ t = s' ∧ r' = r := by
  obtain ⟨s₁, hf, hr⟩ := h
  obtain ⟨t₁, hf', hr'⟩ := h'
  rw [hf] at hf'
  cases hf'
  rw [hr] at hr'
  cases hr'
  exact ⟨rfl, rfl, rfl⟩

theorem Hears.not_unread {p : Problem} {t : Session} (h : s.Hears line s' r) :
    s.fetch ≠ (t, .error p) := by
  obtain ⟨s₁, hf, -⟩ := h
  simp [hf]

/-- A session runs in one way only. -/
theorem Runs.unique {lines' : List Text} {t : Session} {e' : Ending} (h : Runs s lines s' e)
    (h' : Runs s lines' t e') : lines' = lines ∧ t = s' ∧ e' = e := by
  induction h generalizing lines' t e' with
  | unread hf =>
    cases h' with
    | unread hf' => simp_all
    | broken hh => exact absurd hf hh.not_unread
    | unwritten hh => exact absurd hf hh.not_unread
    | answered hh => exact absurd hf hh.not_unread
  | broken hh =>
    cases h' with
    | unread hf' => exact absurd hf' hh.not_unread
    | broken hh' => simpa using hh.unique hh'
    | unwritten hh' => simpa using hh.unique hh'
    | answered hh' => simpa using hh.unique hh'
  | unwritten hh hr =>
    cases h' with
    | unread hf' => exact absurd hf' hh.not_unread
    | broken hh' => simpa using hh.unique hh'
    | unwritten hh' hr' =>
      obtain ⟨rfl, rfl, ⟨⟩⟩ := hh.unique hh'
      simp_all
    | answered hh' hr' =>
      obtain ⟨rfl, rfl, ⟨⟩⟩ := hh.unique hh'
      simp [hr] at hr'
  | answered hh hr _ ih =>
    cases h' with
    | unread hf' => exact absurd hf' hh.not_unread
    | broken hh' => simpa using hh.unique hh'
    | unwritten hh' hr' =>
      obtain ⟨rfl, rfl, ⟨⟩⟩ := hh.unique hh'
      simp [hr] at hr'
    | answered hh' hr' h' =>
      obtain ⟨rfl, rfl, ⟨⟩⟩ := hh.unique hh'
      rw [hr] at hr'
      cases hr'
      obtain ⟨rfl, rfl, rfl⟩ := ih h'
      exact ⟨rfl, rfl, rfl⟩

theorem Runs.interpret (h : Runs s lines s' e) :
    s.interpret none = (s'.flush.1, report s'.input.last e.stop.toProblem) := by
  obtain ⟨lines', t, e', h', heq⟩ := s.interpret_runs
  obtain ⟨rfl, rfl, rfl⟩ := h.unique h'
  exact heq

end Running

section Calling

/-- The session after some calls, each with or without time for it. -/
def called (s : Session) (halts : List (Option Problem)) : Session :=
  halts.foldl (fun s halt => (s.interpret halt).1) s

/-- The calls of a session, with the lines that each of them hands to the interpreter. -/
inductive Calls : Session → List (Option Problem) → List (List Text) → Session → Prop
  | none {s : Session} : Calls s [] [] s
  | halted {s s' : Session} {p : Problem} {halts : List (Option Problem)}
      {heard : List (List Text)} : Calls (s.interpret (some p)).1 halts heard s' →
      Calls s (some p :: halts) ([] :: heard) s'
  | ran {s s₁ s' : Session} {lines : List Text} {e : Ending} {halts : List (Option Problem)}
      {heard : List (List Text)} : Runs s lines s₁ e →
      Calls (s.interpret .none).1 halts heard s' → Calls s (.none :: halts) (lines :: heard) s'

theorem calls_exist : ∀ (halts : List (Option Problem)) (s : Session),
    ∃ heard, Calls s halts heard (s.called halts)
  | [], _ => ⟨[], .none⟩
  | some p :: halts, s => by
    obtain ⟨heard, h⟩ := calls_exist halts (s.interpret (some p)).1
    exact ⟨[] :: heard, .halted h⟩
  | none :: halts, s => by
    obtain ⟨lines, s₁, e, hruns, -⟩ := s.interpret_runs
    obtain ⟨heard, h⟩ := calls_exist halts (s.interpret none).1
    exact ⟨lines :: heard, .ran hruns h⟩

variable {s s' : Session} {halts : List (Option Problem)} {heard : List (List Text)}

theorem Calls.upcoming (h : Calls s halts heard s') :
    s.upcoming = heard.flatten ++ s'.upcoming := by
  induction h with
  | none => rfl
  | halted _ ih => exact ih
  | ran hruns _ ih =>
    rw [hruns.upcoming, List.flatten_cons, List.append_assoc, ← ih, hruns.interpret]
    rfl

theorem Calls.core (h : Calls s halts heard s') :
    s'.core.Alike (s.core.readLines heard.flatten) := by
  induction h with
  | none => exact .refl _
  | halted _ ih => exact ih
  | ran hruns _ ih =>
    rw [hruns.interpret] at ih
    rw [List.flatten_cons, Interpreter.readLines_append]
    exact ih.trans (hruns.core.readLines _)

end Calling

/-- Over any calls, the lines handed to the interpreter are the first ones that can be read, each of
them once.  A call without time takes none.  A call that a line has ended leaves off behind that
line, and the next call starts there. -/
theorem lines_once (s : Session) (halts : List (Option Problem)) :
    (∃ heard, Calls s halts heard (s.called halts))
      ∧ ∀ heard t, Calls s halts heard t →
        s.upcoming = heard.flatten ++ t.upcoming
          ∧ t.core.Alike (s.core.readLines heard.flatten)
          ∧ (∀ p, (t.interpret (some p)).1 = { t with outlets := t.flush.1.outlets })
          ∧ ∀ lines t₁ e, Runs t lines t₁ e → (∀ p, e ≠ .unread p) →
            lines ≠ [] ∧ t.deliveries = lines.map .ok ++ (t.interpret none).1.deliveries
              ∧ ∀ line lines' t₂ e', (t.interpret none).1.deliveries.head? = some (.ok line) →
                Runs (t.interpret none).1 lines' t₂ e' → lines'.head? = some line := by
  refine ⟨calls_exist halts s, fun heard t h => ⟨h.upcoming, h.core, fun p => rfl, ?_⟩⟩
  intro lines t₁ e hruns he
  obtain ⟨-, hne, hd⟩ := hruns.deliveries.resolve_left fun ⟨p, hp, _⟩ => he p hp
  rw [hruns.interpret]
  exact ⟨hne, hd, fun line lines' t₂ e' hnext hruns' => hruns'.starts hnext⟩

end Session

end LineForth
