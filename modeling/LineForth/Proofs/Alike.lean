import LineForth.Proofs.Reachable

/-!
# The trace decides nothing

Interpreters that differ in their traces only are alike: they have the same stack, the same words
and the same mode.  A line has the same reply in both, and leaves them alike
(`Alike.readLine`), so what an interpreter comes to by reading lines does not depend on what was
recorded in between.
-/

namespace LineForth

theorem Interpreter.execute_sameStack (d : Dictionary) (t : Token) {m m' : Machine}
    (h : SameStack m m') : Matching SameStack (execute d t m) (execute d t m') := by
  unfold execute
  split
  · exact ⟨h, rfl⟩
  · split
    · split
      · exact ⟨h, rfl⟩
      · exact runAt_sameStack d.entries _ h
    · split
      · exact ⟨simulation_sameStack.push _ h, rfl⟩
      · split <;> exact ⟨h, rfl⟩

theorem Interpreter.runTokens_sameStack (d : Dictionary) : ∀ (ts : List Token) {m m' : Machine},
    SameStack m m' → Matching SameStack (runTokens d ts m) (runTokens d ts m')
  | [], _, _, h => ⟨h, rfl⟩
  | t :: ts, _, _, h =>
    (execute_sameStack d t h).andThen fun _ _ h' => runTokens_sameStack d ts h'

namespace Interpreter

structure Alike (i j : Interpreter) : Prop where
  stack : i.stack = j.stack
  dict : i.dict = j.dict
  mode : i.toMode = j.toMode

/-- Two readings with the same reply that leave alike interpreters. -/
def AlikeReplies (r r' : Interpreter × Reply) : Prop := r.1.Alike r'.1 ∧ r.2 = r'.2

theorem Alike.refl (i : Interpreter) : i.Alike i := ⟨rfl, rfl, rfl⟩

theorem alike_event (i : Interpreter) (e : Event) : (i.event e).Alike i := ⟨rfl, rfl, rfl⟩

variable {i j k : Interpreter}

theorem Alike.symm (h : i.Alike j) : j.Alike i := ⟨h.stack.symm, h.dict.symm, h.mode.symm⟩

theorem Alike.trans (h : i.Alike j) (h' : j.Alike k) : i.Alike k :=
  ⟨h.stack.trans h'.stack, h.dict.trans h'.dict, h.mode.trans h'.mode⟩

theorem Alike.current (h : i.Alike j) : i.current = j.current := congrArg Mode.current h.mode

theorem Alike.inDefinition (h : i.Alike j) : i.inDefinition = j.inDefinition :=
  congrArg Mode.inDefinition h.mode

theorem Alike.define (h : i.Alike j) (hmode : i.inDefinition) (draft : Draft)
    (line body : List Glyph) :
    AlikeReplies (i.define draft line body) (j.define draft line body) := by
  rcases hf : Draft.bodyFailure i.dict body with _ | f
  · obtain ⟨a, hname, hcode, h1, h2, h3, h4⟩ := define_accepted draft line hmode hf
    rw [h.dict] at hf
    obtain ⟨b, hname', hcode', h1', h2', h3', h4'⟩ :=
      define_accepted draft line (h.inDefinition ▸ hmode) hf
    obtain rfl : a = b := by
      obtain ⟨name, code⟩ := a
      obtain ⟨name', code'⟩ := b
      simp only at hname hname' hcode hcode'
      rw [h.dict, ← hcode'] at hcode
      rw [hname, hname', Array.toList_inj.1 hcode]
    refine ⟨⟨?_, ?_, h3.trans h3'.symm⟩, h4.trans h4'.symm⟩
    · rw [h1, h1', h.stack]
    · rw [h2, h2', h.dict]
  · obtain ⟨h1, h2, h3, h4⟩ := define_rejected draft line hf
    rw [h.dict] at hf
    obtain ⟨h1', h2', h3', h4'⟩ := define_rejected draft line hf
    refine ⟨⟨?_, ?_, h3.trans h3'.symm⟩, h4.trans h4'.symm⟩
    · rw [h1, h1', h.stack]
    · rw [h2, h2', h.dict]

theorem Alike.immediate (h : i.Alike j) (line : List Glyph) :
    AlikeReplies (i.immediate line) (j.immediate line) := by
  obtain ⟨h1, h2, h3, h4⟩ := immediate_effect i line
  obtain ⟨h1', h2', h3', h4'⟩ := immediate_effect j line
  obtain ⟨hstack, hout⟩ :=
    runTokens_sameStack i.dict (Token.scan line).tokens (show SameStack _ _ from h.stack)
  refine ⟨⟨?_, ?_, ?_⟩, ?_⟩
  · rw [h1, h1', ← h.dict]
    exact hstack
  · rw [h2, h2', h.dict]
  · rw [h3, h3', h.mode]
  · rw [h4, h4', ← h.dict, hout]

theorem Alike.fail (h : i.Alike j) (f : Failure) : AlikeReplies (i.fail f) (j.fail f) := by
  obtain ⟨h1, h2, h3, h4⟩ := fail_effect i f
  obtain ⟨h1', h2', h3', h4'⟩ := fail_effect j f
  exact ⟨⟨by rw [h1, h1', h.stack], by rw [h2, h2', h.dict], by rw [h3, h3', h.mode]⟩,
    by rw [h4, h4']⟩

theorem Alike.endDefinition (h : i.Alike j) : i.endDefinition.Alike j.endDefinition :=
  ⟨h.stack, h.dict, rfl⟩

theorem Alike.defineNone (h : i.Alike j) (line body : List Glyph) :
    AlikeReplies (i.defineNone line body) (j.defineNone line body) := by
  unfold Interpreter.defineNone
  split
  · exact ⟨h, rfl⟩
  · exact h.endDefinition.fail _
  · split_ifs <;> exact ⟨h, rfl⟩

theorem Alike.enter (h : i.Alike j) (line : List Glyph) :
    (i.enter line).1.Alike (j.enter line).1 ∧ (i.enter line).2 = (j.enter line).2 := by
  unfold Interpreter.enter Interpreter.startDefinition
  split_ifs
  · rcases heading line with f | ⟨name, body⟩
    · exact ⟨h.endDefinition, rfl⟩
    · exact ⟨⟨h.stack, h.dict, rfl⟩, rfl⟩
  · exact ⟨h, rfl⟩

theorem Alike.process (h : i.Alike j) (line : List Glyph) :
    AlikeReplies (i.process line) (j.process line) := by
  unfold Interpreter.process
  obtain ⟨halike, hrest⟩ := h.enter line
  rcases hi : i.enter line with ⟨i', f | body⟩ <;> rcases hj : j.enter line with ⟨j', r⟩ <;>
    rw [hi, hj] at halike hrest <;> obtain rfl := hrest
  · exact halike.fail f
  · have hin : i'.inDefinition = j'.inDefinition := halike.inDefinition
    have hcurrent : i'.current = j'.current := halike.current
    simp only [← hin, ← hcurrent]
    split_ifs with hopen
    · rcases i'.current with _ | draft
      · exact halike.defineNone line body
      · exact halike.define hopen draft line body
    · exact halike.immediate body

/-- A line has the same reply in interpreters that are alike, and leaves them alike. -/
theorem Alike.readLine (h : i.Alike j) (line : Text) :
    AlikeReplies (i.readLine line) (j.readLine line) := by
  obtain ⟨h1, h2, h3, h4⟩ := readLine_process i line
  obtain ⟨h1', h2', h3', h4'⟩ := readLine_process j line
  obtain ⟨halike, hreply⟩ :=
    (((alike_event i (.heard line)).trans h).trans (alike_event j (.heard line)).symm).process
      (Text.glyphs line)
  refine ⟨⟨?_, ?_, ?_⟩, ?_⟩
  · rw [h1, h1', halike.stack]
  · rw [h2, h2', halike.dict]
  · rw [h3, h3', halike.mode]
  · rw [h4, h4', hreply]

theorem Alike.readLines (h : i.Alike j) (lines : List Text) :
    (i.readLines lines).Alike (j.readLines lines) := by
  induction lines generalizing i j with
  | nil => exact h
  | cons line lines ih => exact ih (h.readLine line).1

end Interpreter

end LineForth
