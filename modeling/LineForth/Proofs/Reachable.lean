import LineForth.Proofs.Reading
import LineForth.Session

/-!
# The states of an interpreter

A new session starts with the builtin words, whatever its settings are; settings only reach the
stack and the trace.  From there an interpreter reads lines.  What holds of an empty dictionary and
is kept by adding a builtin word and by reading a line holds of every state that it comes to
(`reachable_induction`).

One such thing is that there is a definition whenever one is open, and only then
(`Mode.Coherent`): every way in which a line can end sets both or neither (`Effect.coherent`).
-/

namespace LineForth

namespace Mode

/-- There is a definition exactly if one is open. -/
def Coherent (m : Mode) : Prop := m.inDefinition = m.current.isSome

variable {m : Mode}

theorem coherent_closed : Coherent {} := rfl

theorem Coherent.iff (h : m.Coherent) : m.inDefinition ↔ ∃ draft, m.current = some draft := by
  rw [h, Option.isSome_iff_exists]

theorem Coherent.closed (h : m.Coherent) (hout : m.inDefinition = false) : m = {} := by
  have hnone : m.current = none := by
    rw [← Option.isSome_eq_false_iff.trans Option.isNone_iff_eq_none, ← h, hout]
  obtain ⟨inDefinition, current⟩ := m
  obtain rfl : inDefinition = false := hout
  obtain rfl : current = none := hnone
  rfl

theorem Coherent.not_missing (h : m.Coherent) (hin : m.inDefinition) : m.current ≠ none := by
  intro hnone
  rw [h, hnone] at hin
  cases hin

end Mode

namespace Interpreter

def readLines (i : Interpreter) (lines : List Text) : Interpreter :=
  lines.foldl (fun i line => (i.readLine line).1) i

/-- A state to which the interpreter of a new session comes by reading lines. -/
def Reachable (i : Interpreter) : Prop :=
  ∃ (trees : List SettingTree) (listing : Stack → Text) (lines : List Text),
    i = (Session.new trees listing).core.readLines lines

@[simp]
theorem install_mode (i : Interpreter) (name : Text) (meaning : Meaning) :
    (i.install name meaning).toMode = i.toMode := rfl

theorem readLines_append (i : Interpreter) (lines lines' : List Text) :
    i.readLines (lines ++ lines') = (i.readLines lines).readLines lines' := List.foldl_append

theorem readLines_concat (i : Interpreter) (lines : List Text) (line : Text) :
    i.readLines (lines ++ [line]) = ((i.readLines lines).readLine line).1 :=
  readLines_append i lines [line]

section Modes

variable {i : Interpreter} {line : List Glyph} {s : Stack} {d : Dictionary} {mode : Mode}
  {reply : Reply}

/-- However a line ends, a definition is there afterwards exactly if one is open. -/
theorem Effect.coherent (hi : i.toMode.Coherent) (h : i.Effect line s d mode reply) :
    mode.Coherent := by
  cases h with
  | nameless | rejected | compiled | noDraftFailed => exact Mode.coherent_closed
  | continued => rfl
  | ran | noDraft => exact hi

/-- A line that closes definitions leaves none open, whatever else it does. -/
theorem Effect.closed_of_closes (hi : i.toMode.Coherent) (h : i.Effect line s d mode reply)
    (hc : Token.closesDefinition line) : mode = {} := by
  cases h with
  | nameless | rejected | compiled | noDraftFailed => rfl
  | continued _ _ hn =>
    rw [hc] at hn
    cases hn
  | ran _ hout => exact hi.closed hout
  | noDraft _ hin hnone => exact absurd hnone (hi.not_missing hin)

end Modes

end Interpreter

section Settings

/-- An interpreter without words that is not in a definition. -/
def Interpreter.Blank (i : Interpreter) : Prop := i.dict = {} ∧ i.toMode = {}

theorem Session.apply_blank {s : Session} (h : s.core.Blank) (setting : Setting) :
    (s.apply setting).core.Blank := by
  cases setting with
  | lines source =>
    unfold Session.apply Session.addSource
    simp only []
    split_ifs <;> exact h
  | input => exact h
  | output => exact h
  | tee => exact h
  | echo => exact h
  | trace => exact h
  | stack => exact h

theorem Session.new_core (trees : List SettingTree) (listing : Stack → Text) :
    ∃ i : Interpreter, i.Blank ∧ (Session.new trees listing).core = i.boot := by
  refine ⟨_, ?_, rfl⟩
  refine List.foldlRecOn (motive := fun s : Session => s.core.Blank) _ Session.apply ⟨rfl, rfl⟩ ?_
  exact fun s hs setting _ => Session.apply_blank hs setting

end Settings

namespace Interpreter

variable {P : Interpreter → Prop}
  (blank : ∀ i : Interpreter, i.Blank → P i)
  (native : ∀ (i : Interpreter) (name : Text) (p : Primitive), i.toMode = {} → P i →
    P (i.install name (.native p)))
  (marker : ∀ (i : Interpreter) (name : Text) (k : Marker), i.toMode = {} →
    Text.fold name = k.text → P i → P (i.install name (.marker k)))
  (line : ∀ (i : Interpreter) (text : Text), P i → P (i.readLine text).1)

include blank native marker line

theorem boot_induction {i : Interpreter} (hi : i.Blank) : P i.boot ∧ i.boot.toMode = {} := by
  unfold boot
  have h0 : P i ∧ i.toMode = {} := ⟨blank i hi, hi.2⟩
  have hnative := List.foldlRecOn (motive := fun i : Interpreter => P i ∧ i.toMode = {}) primitives
    (fun i w => i.install (Text.ofString w.1) (.native w.2)) h0
    fun i hi w _ => ⟨native i _ _ hi.2 hi.1, hi.2⟩
  have hmarker := List.foldlRecOn (motive := fun i : Interpreter => P i ∧ i.toMode = {}) markers
    (fun i w => i.install (Text.ofString w.1) (.marker w.2)) hnative
    fun i hi w hw => by
      have hname : Text.fold (Text.ofString w.1) = w.2.text := by
        revert w
        decide
      exact ⟨marker i _ _ hi.2 hname hi.1, hi.2⟩
  have hsource := List.foldlRecOn (motive := fun i : Interpreter => P i ∧ i.toMode = {}) sources
    (fun i s => (i.readLine (Text.ofString s)).1) hmarker
    fun i hi s hs => by
      have hclose : Token.closesDefinition (Text.glyphs (Text.ofString s)) := by
        revert s
        decide
      have hmode : i.toMode.Coherent := hi.2 ▸ Mode.coherent_closed
      exact ⟨line i _ hi.1, (readLine_effect i _).closed_of_closes hmode hclose⟩
  exact ⟨native _ _ _ hsource.2 hsource.1, (install_mode _ _ _).trans hsource.2⟩

omit blank native marker in
theorem readLines_induction {i : Interpreter} (hi : P i) (lines : List Text) :
    P (i.readLines lines) :=
  List.foldlRecOn (motive := P) lines _ hi fun i hi text _ => line i text hi

theorem reachable_induction {i : Interpreter} (hi : i.Reachable) : P i := by
  obtain ⟨trees, listing, lines, rfl⟩ := hi
  obtain ⟨i₀, hblank, hcore⟩ := Session.new_core trees listing
  rw [hcore]
  exact readLines_induction line (boot_induction blank native marker line hblank).1 lines

omit blank native marker line in
theorem new_mode (trees : List SettingTree) (listing : Stack → Text) :
    (Session.new trees listing).core.toMode = {} := by
  obtain ⟨i₀, hblank, hcore⟩ := Session.new_core trees listing
  rw [hcore]
  exact (boot_induction (P := fun _ => True) (fun _ _ => trivial) (fun _ _ _ _ _ => trivial)
    (fun _ _ _ _ _ _ => trivial) (fun _ _ _ => trivial) hblank).2

omit blank native marker line in
/-- In every state there is a definition exactly if one is open. -/
theorem Reachable.coherent {i : Interpreter} (h : i.Reachable) : i.toMode.Coherent :=
  reachable_induction (P := fun i => i.toMode.Coherent)
    (fun _ hi => hi.2 ▸ Mode.coherent_closed) (fun _ _ _ _ hi => hi) (fun _ _ _ _ _ hi => hi)
    (fun i text hi => (readLine_effect i text).coherent hi) h

end Interpreter

end LineForth
