import LineForth.Proofs.Letters
import LineForth.Proofs.Numbers
import LineForth.Proofs.Operands
import LineForth.Proofs.Parts

/-!
# The display of a stack

What a stack is displayed as is a line of numbers, and reading the line puts the cells back on an
empty stack, in the same order (`readLine_numbers`).  A number could also be the name of a word, and
the word would be run then, so no word may have such a name.  An interpreter without words can read
every display; hence two stacks with the same display have the same cells (`display_inj`).
-/

namespace LineForth

section Numbers

theorem Cell.isWord_text (c : Cell) : Token.IsWord c.text :=
  Cell.isWord_of_ofText? (Cell.ofText?_text c)

theorem Cell.text_noColon (c : Cell) : ¬ StartsWithColon c.text := by
  have hbytes := (Decimal.toInt?_bytes c.text_spells.toInt?).2
  have hcolon : (0x3A : UInt8) ∉ c.text := by
    intro hmem
    have := hbytes _ hmem
    revert this
    decide
  intro h
  exact Text.char_not_mem (c := ':') (by decide) hcolon (List.mem_of_head? h)

/-- No word has the text of a cell for its name. -/
def Dictionary.Numberless (d : Dictionary) : Prop :=
  ∀ e ∈ d.entries, ∀ c : Cell, d.nameOf e ≠ c.text

theorem Dictionary.Numberless.lookup {d : Dictionary} (hd : d.Numberless) (c : Cell) :
    d.lookup c.text = none := by
  rcases he : d.lookup c.text with _ | e
  · rfl
  · obtain ⟨hmem, hname⟩ := nameOf_of_lookup he
    have hfold : Text.fold c.text = c.text :=
      eq_of_number (Text.fold_fold c.text) (Cell.ofText?_text c)
    exact absurd (hname.trans hfold) (hd e hmem c)

end Numbers

namespace Interpreter

/-- The tokens of a line of numbers. -/
def numbers (cs : List Cell) : List Token := cs.map fun c => .word c.text

theorem line_numbers (cs : List Cell) :
    Token.line (numbers cs) = Text.join [Text.space] (cs.map Cell.text) := by
  rw [Token.line, numbers, List.map_map]
  rfl

theorem runTokens_numbers {d : Dictionary} (hd : d.Numberless) : ∀ (cs : List Cell) (m : Machine),
    runTokens d (numbers cs) m = ({ m with stack := m.stack.pushAll cs }, .done [])
  | [], m => rfl
  | c :: cs, m => by
    have hstep : execute d (.word c.text) m = (m.push c, .done []) := by
      simp [execute, Token.word, hd.lookup c]
    rw [numbers, List.map_cons, runTokens, hstep, andThen_done, ← numbers,
      runTokens_numbers hd cs]
    rfl

/-- A line of numbers puts them on the stack, the last on top. -/
theorem readLine_numbers {i : Interpreter} (hmode : i.inDefinition = false)
    (hd : i.dict.Numberless) (cs : List Cell) :
    (i.readLine (Text.join [Text.space] (cs.map Cell.text))).2 = .answer (Text.ofString "  ok")
      ∧ (i.readLine (Text.join [Text.space] (cs.map Cell.text))).1.stack.values
        = i.stack.values ++ cs := by
  have hwritable : ∀ t ∈ numbers cs, t.Writable := by
    intro t ht
    obtain ⟨c, -, rfl⟩ := List.mem_map.1 ht
    exact c.isWord_text
  have hfirst : Token.NoColonFirst (numbers cs) := by
    intro t ht _
    obtain ⟨c, -, rfl⟩ := List.mem_map.1 (List.mem_of_head? ht)
    exact c.text_noColon
  obtain ⟨hstack, -, -, hreply⟩ := readLine_line hmode hwritable hfirst
  rw [line_numbers, runTokens_numbers hd] at hstack hreply
  have hok : okAnswer [] = Text.ofString "  ok" := by decide
  refine ⟨?_, ?_⟩
  · rw [hreply, Reply.ofOutcome, hok]
  · rw [hstack]
    exact Stack.values_pushAll cs i.stack

end Interpreter

theorem Stack.display_inj {s s' : Stack} : s'.display = s.display ↔ s'.values = s.values := by
  constructor
  · intro h
    have hnames : ({} : Dictionary).Numberless := by simp [Dictionary.Numberless]
    have hread := fun t : Stack => (Interpreter.readLine_numbers (i := {}) rfl hnames t.values).2
    rw [display, display, List.append_cancel_right_eq] at h
    have := hread s'
    rw [h, hread s] at this
    exact (List.append_cancel_left this).symm
  · intro h
    rw [display, display, h]

/-- The display of a stack can be read back by every interpreter that is not in a definition, has an
empty stack and no word with the name of a number.  So the display tells what the cells are, and so
does the output of the word that displays the stack. -/
theorem display_read_back :
    (∀ (i : Interpreter) (s : Stack) (line : Text), i.inDefinition = false → i.stack.values = [] →
        (∀ e ∈ i.dict.entries, ∀ c : Cell, i.dict.nameOf e ≠ c.text) →
        s.display = line ++ Text.ofString " <- Top " →
        (i.readLine line).2 = .answer (Text.ofString "  ok")
          ∧ (i.readLine line).1.stack.values = s.values)
      ∧ ∀ s s' : Stack, (s'.display = s.display ↔ s'.values = s.values)
        ∧ ((Primitive.run .dotS s').2 = (Primitive.run .dotS s).2 ↔ s'.values = s.values) := by
  refine ⟨fun i s line hmode hempty hnames hline => ?_, fun s s' => ⟨Stack.display_inj, ?_⟩⟩
  · obtain rfl := List.append_cancel_right hline
    have hread := Interpreter.readLine_numbers hmode hnames s.values
    rwa [hempty, List.nil_append] at hread
  · rw [← Stack.display_inj]
    simp [Primitive.run]

/-- The extreme cells and zero, read back in a session that has words of its own. -/
theorem display_read_back_extremes :
    let i := (Session.new []).core.readLines [Text.ofString ": half 2 / ;"]
    let s : Stack := { cells := [Int64.maxValue, 0, Int64.minValue] }
    let line := Text.ofString "-9223372036854775808 0 9223372036854775807"
    (i.readLine line).2 = .answer (Text.ofString "  ok")
      ∧ (i.readLine line).1.stack.values = s.values := by
  intro i s line
  refine display_read_back.1 i s line (by decide +kernel) (by decide +kernel) ?_ (by decide +kernel)
  intro e he c hname
  have hnone : ∀ e ∈ i.dict.entries, Cell.ofText? (i.dict.nameOf e) = none := by decide +kernel
  have := hnone e he
  rw [hname, Cell.ofText?_text] at this
  cases this

end LineForth
