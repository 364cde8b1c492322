import Mathlib.Data.List.Basic
import LineForth.Log.LineLog

/-!
# Lines and chunks

What a line log gives out does not depend on how the bytes were cut up when they were written.  A
text has one way to be read as lines with a newline behind each and a rest without one (`Lines`),
and the log takes out these lines and keeps that rest (`takeLines_of_lines`).  The rest of one write
goes in front of the next one (`Lines.append`), so at any time the lines since the log was last
closed are those of all the bytes since then (`Span.ofCalls_faithful`).
-/

namespace LineForth.LineLog

/-- The text `t` is the lines `ls`, each with its newline, and then `rest`; it has no other
newlines. -/
structure Lines (t : Text) (ls : List Text) (rest : Text) : Prop where
  text : t = ls.flatMap (· ++ [Text.newline]) ++ rest
  lines : ∀ l ∈ ls, Text.newline ∉ l
  rest : Text.newline ∉ rest

namespace Lines

variable {t l rest : Text} {ls : List Text}

theorem none (h : Text.newline ∉ t) : Lines t [] t := ⟨rfl, by simp, h⟩

theorem cons (hl : Text.newline ∉ l) (h : Lines t ls rest) :
    Lines (l ++ Text.newline :: t) (l :: ls) rest where
  text := by simp [h.text]
  lines := List.forall_mem_cons.2 ⟨hl, h.lines⟩
  rest := h.rest

theorem append {p rest' : Text} {ls' : List Text} (h : Lines t ls rest)
    (h' : Lines (rest ++ p) ls' rest') : Lines (t ++ p) (ls ++ ls') rest' where
  text := by rw [h.text, List.append_assoc, h'.text, List.flatMap_append, List.append_assoc]
  lines := List.forall_mem_append.2 ⟨h.lines, h'.lines⟩
  rest := h'.rest

theorem exist (t : Text) : ∃ ls rest, Lines t ls rest := by
  by_cases h : Text.newline ∈ t
  · obtain ⟨l, t', ht, hl⟩ := List.eq_append_cons_of_mem h
    obtain ⟨ls, rest, hlines⟩ := exist t'
    exact ⟨l :: ls, rest, ht ▸ hlines.cons hl⟩
  · exact ⟨[], t, none h⟩
termination_by t.length
decreasing_by
  rw [ht, List.length_append, List.length_cons]
  omega

end Lines

section Loop

variable (all : Bool) {t l rest : Text} {ls : List Text}

/-- What closing a log makes of the bytes that are left. -/
def lastLine (rest : Text) : List Text := if rest = [] then [] else [rest]

/-- A round that finds no newline is the last one. -/
theorem takeLines_none (h : Text.newline ∉ t) :
    takeLines all t = if all then (lastLine t, []) else ([], t) := by
  rw [takeLines, List.idxOf?_eq_none_iff.2 h]
  unfold lastLine
  cases t <;> simp

/-- A round that finds a newline takes out the line before it. -/
theorem takeLines_line (hl : Text.newline ∉ l) :
    takeLines all (l ++ Text.newline :: t)
      = (l :: (takeLines all t).1, (takeLines all t).2) := by
  have hfirst : (l ++ Text.newline :: t).idxOf? Text.newline = some l.length := by
    rw [List.idxOf?_eq_some_iff]
    refine ⟨by simp, by simp, fun j hj => ?_⟩
    rw [List.getElem_append_left hj]
    exact fun heq => hl (heq ▸ List.getElem_mem hj)
  rw [takeLines, hfirst]
  simp [List.drop_length_add_append]

/-- The loop takes out the lines of a text; what is left stays, or goes out as the last line. -/
theorem takeLines_of_lines (h : Lines t ls rest) :
    takeLines all t = if all then (ls ++ lastLine rest, []) else (ls, rest) := by
  obtain ⟨rfl, hlines, hrest⟩ := h
  induction ls with
  | nil => exact takeLines_none all hrest
  | cons l ls ih =>
    obtain ⟨hl, hls⟩ := List.forall_mem_cons.1 hlines
    rw [List.flatMap_cons, List.append_assoc, List.append_assoc, List.singleton_append,
      takeLines_line all hl, ih hls]
    cases all <;> rfl

theorem Lines.unique {ls' : List Text} {rest' : Text} (h : Lines t ls rest)
    (h' : Lines t ls' rest') : ls = ls' ∧ rest = rest' := by
  have htake := takeLines_of_lines false h
  rw [takeLines_of_lines false h'] at htake
  exact ⟨(congrArg Prod.fst htake).symm, (congrArg Prod.snd htake).symm⟩

theorem write_of_lines {log : LineLog} {p : Text} (h : Lines (log.pending ++ p) ls rest) :
    log.write p = ({ pending := rest }, ls, ⟨p.length, none⟩) := by
  unfold write
  rw [takeLines_of_lines false h]
  rfl

theorem close_of_lines {log : LineLog} (h : Lines log.pending ls rest) :
    log.close = ({}, ls ++ lastLine rest, none) := by
  unfold close
  rw [takeLines_of_lines true h]
  rfl

end Loop

section Joining

theorem join_cons {sep u : Text} {ts : List Text} (h : ts ≠ []) :
    Text.join sep (u :: ts) = u ++ sep ++ Text.join sep ts := by
  obtain ⟨v, vs, rfl⟩ := List.exists_cons_of_ne_nil h
  simp [Text.join]

theorem join_concat (sep rest : Text) : ∀ ls : List Text,
    Text.join sep (ls ++ [rest]) = ls.flatMap (· ++ sep) ++ rest
  | [] => by simp [Text.join]
  | l :: ls => by
    rw [List.cons_append, join_cons (by simp), join_concat sep rest ls, List.flatMap_cons,
      List.append_assoc, List.append_assoc, List.append_assoc]

/-- The lines of a text and its last line, joined, are the text up to a final newline. -/
theorem Lines.join {t rest : Text} {ls : List Text} (h : Lines t ls rest) :
    Text.join [Text.newline] (ls ++ lastLine rest)
      ++ (if t.getLast? = some Text.newline then [Text.newline] else []) = t := by
  obtain ⟨rfl, -, hrest⟩ := h
  rcases rest.eq_nil_or_concat with rfl | ⟨rest, b, rfl⟩
  · rcases ls.eq_nil_or_concat with rfl | ⟨ls, l, rfl⟩
    · rfl
    · simp [lastLine, join_concat]
  · have hb : b ≠ Text.newline := by
      rintro rfl
      simp at hrest
    simp [lastLine, join_concat, hb]

end Joining

/-- What can be done with a log. -/
inductive Call
  | write (p : Text)
  | close
deriving DecidableEq

/-- A log, and what was written to it and came out of it since it was last closed. -/
structure Span where
  log : LineLog := {}
  bytes : Text := []
  lines : List Text := []

namespace Span

def step (s : Span) : Call → Span
  | .write p =>
    let (log, lines, _) := s.log.write p
    { log, bytes := s.bytes ++ p, lines := s.lines ++ lines }
  | .close => { log := s.log.close.1 }

def ofCalls (calls : List Call) : Span := calls.foldl step {}

/-- The lines that came out are those of the bytes that were written, and the log keeps the rest. -/
def Faithful (s : Span) : Prop := Lines s.bytes s.lines s.log.pending

theorem step_faithful {s : Span} (h : s.Faithful) : ∀ c : Call, (s.step c).Faithful
  | .write p => by
    obtain ⟨ls, rest, hlines⟩ := Lines.exist (s.log.pending ++ p)
    unfold Faithful
    rw [step, write_of_lines hlines]
    exact Lines.append h hlines
  | .close => by
    unfold Faithful
    rw [step, close_of_lines (Lines.none h.rest)]
    exact Lines.none List.not_mem_nil

theorem ofCalls_faithful (calls : List Call) : (ofCalls calls).Faithful :=
  List.foldlRecOn calls step (Lines.none List.not_mem_nil) fun _ h c _ => step_faithful h c

end Span

/-- The lines that come out of a log when texts are written to it and then it is closed. -/
def linesOf (l : LineLog) : List Text → List Text
  | [] => l.close.2.1
  | p :: ps => (l.write p).2.1 ++ (l.write p).1.linesOf ps

theorem linesOf_of_lines : ∀ (ps : List Text) {l : LineLog} {ls : List Text} {rest : Text},
    Lines (l.pending ++ ps.flatten) ls rest → l.linesOf ps = ls ++ lastLine rest
  | [], l, ls, rest, h => by
    rw [List.flatten_nil, List.append_nil] at h
    rw [linesOf, close_of_lines h]
  | p :: ps, l, ls, rest, h => by
    obtain ⟨ls₁, rest₁, h₁⟩ := Lines.exist (l.pending ++ p)
    obtain ⟨ls₂, rest₂, h₂⟩ := Lines.exist (rest₁ ++ ps.flatten)
    have hboth := h₁.append h₂
    rw [List.append_assoc, ← List.flatten_cons] at hboth
    obtain ⟨rfl, rfl⟩ := h.unique hboth
    rw [linesOf, write_of_lines h₁, linesOf_of_lines ps h₂, List.append_assoc]

/-- Whatever was written to a log and however often it was closed, the lines since then are those of
the bytes since then, and the log keeps what follows the last newline.  A write reports that all was
taken, and closing the log gives what it keeps as a line, if it keeps anything.  So the lines do not
depend on how the bytes are cut up, and joined they give the bytes back, up to a final newline. -/
theorem chunks_immaterial (calls : List Call) :
    let s := Span.ofCalls calls
    Lines s.bytes s.lines s.log.pending
      ∧ (∀ p, (s.log.write p).2.2 = ⟨p.length, none⟩)
      ∧ s.log.close = ({}, if s.log.pending = [] then [] else [s.log.pending], none)
      ∧ (∀ ps ps' : List Text, ps.flatten = ps'.flatten → s.log.linesOf ps = s.log.linesOf ps')
      ∧ ∀ ps : List Text, Text.join [Text.newline] (s.log.close.1.linesOf ps)
        ++ (if ps.flatten.getLast? = some Text.newline then [Text.newline] else []) = ps.flatten := by
  intro s
  have hs : Lines s.bytes s.lines s.log.pending := Span.ofCalls_faithful calls
  have hclose := close_of_lines (Lines.none hs.rest)
  refine ⟨hs, fun p => rfl, hclose, fun ps ps' heq => ?_, fun ps => ?_⟩
  · obtain ⟨ls, rest, h⟩ := Lines.exist (s.log.pending ++ ps.flatten)
    rw [linesOf_of_lines ps h, linesOf_of_lines ps' (heq ▸ h)]
  · obtain ⟨ls, rest, h⟩ := Lines.exist ps.flatten
    have hlines : linesOf {} ps = ls ++ lastLine rest := linesOf_of_lines ps h
    rw [hclose, hlines]
    exact h.join

/-- Three lines in two chunks each, after a line that was cut off. -/
theorem chunks_immaterial_three :
    let l := (Span.ofCalls [.write (Text.ofString "zero"), .close]).log
    let ps := [Text.ofString "one\ntw", Text.ofString "o\nthree"]
    let ps' := [Text.ofString "one\n", Text.ofString "two\nthree"]
    ps.flatten = ps'.flatten ∧ l.linesOf ps = l.linesOf ps' := by
  intro l ps ps'
  have heq : ps.flatten = ps'.flatten := by decide
  obtain ⟨-, -, -, hchunks, -⟩ := chunks_immaterial [.write (Text.ofString "zero"), .close]
  exact ⟨heq, hchunks ps ps' heq⟩

end LineForth.LineLog
