import LineForth.Proofs.Wrappers

/-!
# Generated files

The generator goes through its source line by line and writes what belongs to each of them
(`Builder.Written`): for the heading of a builder method its wrapper, for any other line nothing.
The header comes out with the first line, so there is none without a line.

A blank parameter has no name to pass on, and the generator breaks off at one; before it gets there,
it may stop at a line that is too long.  In all other cases it comes to its end
(`Generator.generate_ends`), and what it has written is the header and what belongs to the lines
(`Generator.generate_faithful`).
-/

namespace LineForth

namespace Builder

/-- What belongs to a line in the output. -/
inductive Written (line : Text) : Text → Prop
  | wrapper {b : Builder} {arguments : List Text} (heads : b.Heads line)
      (passed : List.Forall₂ (fun param argument => argument? param = some argument)
        (Text.splitOn 0x2C b.params) arguments) : Written line (b.text arguments)
  | nothing (h : ∀ b : Builder, ¬ b.Matches line) : Written line []

/-- The line is the heading of a builder method with a blank parameter. -/
def BlankParameter (line : Text) : Prop :=
  ∃ b : Builder, b.Heads line ∧ ∃ param ∈ Text.splitOn 0x2C b.params, param.isBlank

section Lines

variable {line out : Text} {b : Builder} {lines : List Text}

theorem argument?_eq_none {param : Text} : argument? param = none ↔ param.isBlank := by
  rw [← Text.fields_eq_nil, argument?]
  rcases Text.fields param with _ | ⟨name, _ | ⟨type, more⟩⟩ <;> simp

theorem wrapper?_eq_none :
    b.wrapper? = none ↔ ∃ param ∈ Text.splitOn 0x2C b.params, param.isBlank := by
  rw [wrapper?, Option.map_eq_none_iff, arguments?, mapM_eq_none]
  simp only [argument?_eq_none]

theorem wrapper?_eq_some : b.wrapper? = some out ↔ ∃ arguments,
    List.Forall₂ (fun param argument => argument? param = some argument)
      (Text.splitOn 0x2C b.params) arguments ∧ b.text arguments = out := by
  rw [wrapper?, Option.map_eq_some_iff]
  simp only [arguments?, mapM_eq_some]

theorem written_nothing (h : ∀ b : Builder, ¬ b.Matches line) : Written line out ↔ out = [] := by
  constructor
  · rintro (⟨hb, -⟩ | -)
    · exact absurd hb.1 (h _)
    · rfl
  · rintro rfl
    exact .nothing h

/-- What belongs to the heading of a method is the method's wrapper. -/
theorem Heads.written (h : b.Heads line) : Written line out ↔ b.wrapper? = some out := by
  rw [wrapper?_eq_some]
  constructor
  · rintro (⟨hb, hpassed⟩ | hnone)
    · obtain rfl := hb.unique h
      exact ⟨_, hpassed, rfl⟩
    · exact absurd h.1 (hnone b)
  · rintro ⟨arguments, hpassed, rfl⟩
    exact .wrapper h hpassed

/-- A method with proper parameters is called with their names in order. -/
theorem written_parameters {base what after : Text} {ps : List Parameter} (hbase : base ∈ bases)
    (hwhat : what ≠ []) (hname : 0x28 ∉ what) (hne : ps ≠ []) (hps : ∀ p ∈ ps, p.WellFormed)
    (hspaced : ∀ p ∈ ps, p.Spaced) :
    Written ((⟨base, what, Parameter.list ps⟩ : Builder).heading ++ after) out
      ↔ out = (⟨base, what, Parameter.list ps⟩ : Builder).text (ps.map Parameter.argument) := by
  have hheads := heads_of_parts hbase hwhat hname (Parameter.list_ne hne hps)
    (Parameter.list_end hps) after
  rw [hheads.written, wrapper?, Parameter.arguments?_list hne hps hspaced, Option.map_some,
    Option.some_inj, eq_comm]

end Lines

end Builder

namespace Generator

section Wrappers

variable {lines : List Text}

theorem wrappers?_eq_none :
    wrappers? lines = none ↔ ∃ line ∈ lines, Builder.BlankParameter line := by
  simp only [wrappers?, mapM_eq_none, List.mem_filterMap, Builder.ofLine?_eq_some,
    Builder.wrapper?_eq_none]
  constructor
  · rintro ⟨b, ⟨line, hline, hb⟩, hblank⟩
    exact ⟨line, hline, b, hb, hblank⟩
  · rintro ⟨line, hline, b, hb, hblank⟩
    exact ⟨b, ⟨line, hline, hb⟩, hblank⟩

theorem wrappers?_eq_some : ∀ {lines ws : List Text}, wrappers? lines = some ws →
    ∃ written, List.Forall₂ Builder.Written lines written ∧ written.flatten = ws.flatten
  | [], _, h => by
    cases h
    exact ⟨[], .nil, rfl⟩
  | line :: lines, ws, h => by
    rcases hline : Builder.ofLine? line with _ | b
    · rw [wrappers?, List.filterMap_cons_none hline] at h
      obtain ⟨written, hwritten, hflat⟩ := wrappers?_eq_some h
      exact ⟨[] :: written, .cons (.nothing (Builder.ofLine?_eq_none.1 hline)) hwritten, hflat⟩
    · rw [wrappers?, List.filterMap_cons_some hline, mapM_eq_some,
        List.forall₂_cons_left_iff] at h
      obtain ⟨w, ws, hw, hws, rfl⟩ := h
      obtain ⟨written, hwritten, hflat⟩ := wrappers?_eq_some (mapM_eq_some.2 hws)
      refine ⟨w :: written, .cons ?_ hwritten, by rw [List.flatten_cons, List.flatten_cons, hflat]⟩
      exact (Builder.ofLine?_eq_some.1 hline).written.2 hw

end Wrappers

/-- A line with a blank parameter comes before any line that is too long. -/
def Breaks (lines : List Text) : Prop :=
  ∃ l ∈ lines.takeWhile (·.length < Lines.limit),
    Builder.BlankParameter (Lines.withoutReturn l)

section Ends

variable (name : Text) (args : List Text) {source : Text} {lines : List Text}

theorem wrappers?_read : wrappers? (Lines.read lines).lines = none ↔ Breaks lines := by
  simp only [wrappers?_eq_none, Lines.read, List.mem_map, exists_exists_and_eq_and, Breaks]

theorem generate_blank (h : Lines.Of source lines) (hbreaks : Breaks lines) :
    generate name args source = .error .blankParameter := by
  rw [generate, Lines.ofText_eq h, wrappers?_read.2 hbreaks]

theorem generate_overlong (h : Lines.Of source lines) (hbreaks : ¬ Breaks lines)
    (hlong : ∃ l ∈ lines, Lines.limit ≤ l.length) :
    generate name args source = .error (.fatal Problem.lineTooLong.message) := by
  have hoverlong : (Lines.read lines).overlong = true := by simpa [Lines.read] using hlong
  obtain ⟨ws, hws⟩ := Option.ne_none_iff_exists'.1 (wrappers?_read.not.2 hbreaks)
  rw [generate, Lines.ofText_eq h]
  simp only [hws, hoverlong, if_true]

theorem generate_whole (h : Lines.Of source lines) (hbreaks : ¬ Breaks lines)
    (hshort : ∀ l ∈ lines, l.length < Lines.limit) :
    ∃ written : List Text,
      List.Forall₂ (fun l out => Builder.Written (Lines.withoutReturn l) out) lines written
        ∧ generate name args source
          = .ok (if lines = [] then [] else header name args ++ written.flatten) := by
  obtain ⟨ws, hws⟩ := Option.ne_none_iff_exists'.1 (wrappers?_read.not.2 hbreaks)
  rw [generate, Lines.ofText_eq h]
  simp only [hws]
  rw [Lines.read_of_short hshort] at hws ⊢
  obtain ⟨written, hwritten, hflat⟩ := wrappers?_eq_some hws
  refine ⟨written, List.forall₂_map_left_iff.1 hwritten, ?_⟩
  simp [hflat]

end Ends

/-- The generator breaks off at a blank parameter, unless a line that is too long comes first, and
stops at such a line; otherwise it comes to its end.  What it has written then begins with the
package clause and the name of the source, except that nothing is written for an empty source. -/
theorem generate_ends (name : Text) (args : List Text) {source : Text} {lines : List Text}
    (hlines : Lines.Of source lines) :
    (generate name args source = .error .blankParameter ↔ Breaks lines)
      ∧ (generate name args source = .error (.fatal Problem.lineTooLong.message)
        ↔ ¬ Breaks lines ∧ ∃ l ∈ lines, Lines.limit ≤ l.length)
      ∧ ((∃ out, generate name args source = .ok out)
        ↔ ¬ Breaks lines ∧ ∀ l ∈ lines, l.length < Lines.limit)
      ∧ ∀ out, generate name args source = .ok out →
        if source = [] then out = []
        else Text.ofString "package main\n\n// @generated from " ++ name
          ++ Text.ofString "\n\n" <+: out := by
  by_cases hbreaks : Breaks lines
  · rw [generate_blank name args hlines hbreaks]
    simp [hbreaks]
  by_cases hlong : ∃ l ∈ lines, Lines.limit ≤ l.length
  · rw [generate_overlong name args hlines hbreaks hlong]
    have hnot : ¬ ∀ l ∈ lines, l.length < Lines.limit := by simpa using hlong
    simp [hbreaks, hlong, hnot]
  have hshort : ∀ l ∈ lines, l.length < Lines.limit := by simpa using hlong
  obtain ⟨written, -, hgenerate⟩ := generate_whole name args hlines hbreaks hshort
  rw [hgenerate]
  refine ⟨by simp [hbreaks], by simp [hlong], by simpa [hbreaks] using hshort, fun out hout => ?_⟩
  obtain rfl := Except.ok.inj hout
  by_cases hsource : source = []
  · rw [if_pos hsource, if_pos (hlines.eq_nil.2 hsource)]
  · rw [if_neg hsource, if_neg (hlines.eq_nil.not.2 hsource), header]
    exact (List.prefix_append _ _).trans (List.prefix_append _ _)

/-- A blank parameter behind a proper one. -/
theorem generate_ends_blank :
    let line := Text.ofString "func (ft forthTestCase) withX(a int, ) forthTestCase \x7b"
    Lines.Of line [line] ∧ generate standardInput [] line = .error .blankParameter := by
  intro line
  have hlines : Lines.Of line [line] := ⟨[], line, .none (by decide), by decide⟩
  have hbreaks : Breaks [line] := by
    refine wrappers?_read.1 ?_
    decide +kernel
  exact ⟨hlines, (generate_ends standardInput [] hlines).1.2 hbreaks⟩

/-- A comma behind the last parameter is a fault, and without a line there is no header. -/
theorem source_not_answered :
    generate standardInput []
        (Text.ofString "func (ft forthTestCase) withX(a int,) forthTestCase \x7b\n")
      = .error .blankParameter
      ∧ generate standardInput [] [] = .ok [] := by
  decide +kernel

/-- Of a source with at least one line, none too long and none with a blank parameter, the output is
the header and then, line by line, a wrapper for each heading of a builder method.  The wrapper of
a method whose parameters are told from their types by white space takes the same parameters and
calls the method with their names in order, the variadic ones spread. -/
theorem generate_faithful (name : Text) (args : List Text) {source : Text} {lines : List Text}
    (hlines : Lines.Of source lines) (hne : lines ≠ [])
    (hshort : ∀ l ∈ lines, l.length < Lines.limit)
    (hblank : ∀ l ∈ lines, ¬ Builder.BlankParameter (Lines.withoutReturn l)) :
    (∃ written : List Text,
      List.Forall₂ (fun l out => Builder.Written (Lines.withoutReturn l) out) lines written
        ∧ generate name args source = .ok (header name args ++ written.flatten))
      ∧ ∀ base ∈ Builder.bases, ∀ what : Text, what ≠ [] → 0x28 ∉ what →
        ∀ ps : List Builder.Parameter, ps ≠ [] → (∀ p ∈ ps, p.WellFormed) → (∀ p ∈ ps, p.Spaced) →
        let b : Builder := ⟨base, what, Builder.Parameter.list ps⟩
        ∀ after out, Builder.Written (b.heading ++ after) out
          ↔ out = b.text (ps.map Builder.Parameter.argument) := by
  constructor
  · have hbreaks : ¬ Breaks lines := by
      rintro ⟨l, hl, hparam⟩
      exact hblank l ((List.takeWhile_sublist _).subset hl) hparam
    obtain ⟨written, hwritten, hgenerate⟩ := generate_whole name args hlines hbreaks hshort
    rw [if_neg hne] at hgenerate
    exact ⟨written, hwritten, hgenerate⟩
  · intro base hbase what hwhat hname ps hps hwell hspaced b after out
    exact Builder.written_parameters hbase hwhat hname hps hwell hspaced

/-- Three parameters, the first without a type and the last one variadic, on the second of two
lines. -/
theorem generate_faithful_variadic :
    let ps : List Builder.Parameter :=
      [⟨[], Text.ofString "a", [], []⟩,
        ⟨[Text.space], Text.ofString "b", [Text.space], Text.ofString "func(int) bool"⟩,
        ⟨[Text.space], Text.ofString "more", [Text.space], Text.ofString "...int"⟩]
    let b : Builder := ⟨Text.ofString "expect", Text.ofString "Stack", Builder.Parameter.list ps⟩
    let lines := [Text.ofString "package main\r", b.heading ++ Text.ofString " \x7b"]
    let source := Text.join [Text.newline] lines
    Lines.Of source lines ∧ (∀ l ∈ lines, ¬ Builder.BlankParameter (Lines.withoutReturn l))
      ∧ (∀ p ∈ ps, p.WellFormed) ∧ (∀ p ∈ ps, p.Spaced)
      ∧ generate standardInput [] source = .ok (header standardInput [] ++
        b.text [Text.ofString "a", Text.ofString "b", Text.ofString "more..."]) := by
  intro ps b lines source
  have hlines : Lines.Of source lines :=
    ⟨[Text.ofString "package main\r"], b.heading ++ Text.ofString " \x7b",
      ⟨by decide, by decide, by decide +kernel⟩, by decide⟩
  have hblank : ∀ l ∈ lines, ¬ Builder.BlankParameter (Lines.withoutReturn l) := by
    have hsome : wrappers? (lines.map Lines.withoutReturn) ≠ none := by decide +kernel
    intro l hl hparam
    exact hsome (wrappers?_eq_none.2 ⟨_, List.mem_map_of_mem hl, hparam⟩)
  have hwell : ∀ p ∈ ps, p.WellFormed := by decide +kernel
  have hspaced : ∀ p ∈ ps, p.Spaced := by decide
  obtain ⟨⟨written, hwritten, hgenerate⟩, hparams⟩ := generate_faithful standardInput [] hlines
    (by simp [lines]) (by decide +kernel) hblank
  obtain ⟨_, _, hfirst, hrest, rfl⟩ := List.forall₂_cons_left_iff.1 hwritten
  obtain ⟨_, _, hsecond, hnil, rfl⟩ := List.forall₂_cons_left_iff.1 hrest
  obtain rfl := List.forall₂_nil_left_iff.1 hnil
  obtain rfl := (Builder.written_nothing (Builder.ofLine?_eq_none.1 (by decide))).1 hfirst
  obtain rfl := (hparams (Text.ofString "expect") (by decide) (Text.ofString "Stack") (by decide)
    (by decide) ps (by simp [ps]) hwell hspaced _ _).1 hsecond
  have hcalled : ps.map Builder.Parameter.argument
      = [Text.ofString "a", Text.ofString "b", Text.ofString "more..."] := by decide
  rw [hcalled] at hgenerate
  refine ⟨hlines, hblank, hwell, hspaced, ?_⟩
  rw [hgenerate, List.flatten_cons, List.flatten_cons, List.flatten_nil, List.nil_append,
    List.append_nil]

/-- Without white space in front of it, a type goes into the call with the name. -/
theorem unspaced_type_called :
    let values : Builder.Parameter := ⟨[], Text.ofString "values", [], Text.ofString "...int"⟩
    let b : Builder := ⟨Text.ofString "expect", Text.ofString "Stack", values.text⟩
    let line := b.heading ++ Text.ofString " \x7b"
    values.WellFormed ∧ values.argument = Text.ofString "values..." ∧ Lines.Of line [line]
      ∧ generate standardInput [] line
        = .ok (header standardInput [] ++ b.text [Text.ofString "values...int"])
      ∧ generate standardInput [] line
        ≠ .ok (header standardInput [] ++ b.text [values.argument]) := by
  intro values b line
  exact ⟨by decide, by decide, ⟨[], line, .none (by decide), by decide⟩, by decide +kernel,
    by decide +kernel⟩

end Generator

end LineForth
