import Mathlib.Data.List.Basic
import LineForth.Input.Lines
import LineForth.Proofs.LineLog
import LineForth.Proofs.Writing

/-!
# Pieces of a text

A text is cut at a byte (`Text.splitOn`), into fields (`Text.fields`) and into lines
(`Lines.ofText`), each time in one pass that keeps what it has read of the current piece.  Here the
passes are told by what they give: the first two by the library's functions for cutting a list, the
last by the lines that make up the text, of which those are given that come before the first one
that is too long (`Lines.ofText_eq`).
-/

namespace LineForth

namespace Text

section Leading

theorem after?_eq_some {t rest : Text} : ∀ {lead : Text},
    after? lead t = some rest ↔ t = lead ++ rest := by
  intro lead
  induction lead generalizing t with
  | nil => simp [after?]
  | cons a lead ih =>
    rcases t with _ | ⟨b, t⟩
    · simp [after?]
    · by_cases h : a = b
      · rw [after?, if_pos h, ih, h]
        simp
      · rw [after?, if_neg h]
        simp [Ne.symm h]

theorem after?_isSome {lead t : Text} : (after? lead t).isSome ↔ lead <+: t := by
  rw [Option.isSome_iff_exists]
  exact exists_congr fun rest => after?_eq_some.trans eq_comm

end Leading

section Splitting

variable {sep : UInt8}

/-- Cutting in one pass, with the pieces so far and the start of the next one both backwards, is
cutting. -/
theorem splitOn_eq (sep : UInt8) (t : Text) : splitOn sep t = List.splitOn sep t := by
  have hpass : ∀ (t : Text) (done : List Text) (piece : Text),
      let acc := t.foldl (fun (acc : List Text × Text) b =>
        if b = sep then (acc.2.reverse :: acc.1, []) else (acc.1, b :: acc.2)) (done, piece)
      (acc.2.reverse :: acc.1).reverse
        = done.reverse ++ List.splitOnPPrepend (· == sep) t piece := by
    intro t
    induction t with
    | nil => simp
    | cons b t ih =>
      intro done piece
      rw [List.foldl_cons, List.splitOnPPrepend_cons_eq_if]
      by_cases hb : b = sep
      · simp only [hb, if_true, beq_self_eq_true]
        rw [ih (piece.reverse :: done) [], List.reverse_cons, List.append_assoc]
        rfl
      · simp only [hb, if_false, beq_eq_false_iff_ne.2 hb, Bool.false_eq_true]
        exact ih done (b :: piece)
  exact hpass t [] []

theorem join_eq_intercalate (sep : Text) : ∀ ts : List Text, join sep ts = sep.intercalate ts
  | [] => rfl
  | [t] => by simp [join]
  | t :: u :: ts => by
    rw [LineLog.join_cons (by simp), join_eq_intercalate sep (u :: ts), List.intercalate_cons_cons]

theorem splitOn_join {ts : List Text} (hts : ts ≠ []) (h : ∀ t ∈ ts, sep ∉ t) :
    splitOn sep (join [sep] ts) = ts := by
  rw [splitOn_eq, join_eq_intercalate, List.splitOn_intercalate sep h hts]

/-- What has no separator in it and stands in joined pieces stands in one of them. -/
theorem infix_of_join {x : Text} (hne : x ≠ []) (hsep : sep ∉ x) : ∀ {ts : List Text},
    x <:+: join [sep] ts → ∃ t ∈ ts, x <:+: t
  | [], h => absurd (List.infix_nil.1 h) hne
  | [t], h => ⟨t, by simp, by simpa [join] using h⟩
  | t :: u :: ts, h => by
    rw [LineLog.join_cons (by simp), List.append_assoc, List.singleton_append,
      List.infix_append_iff] at h
    rcases h with h | h | ⟨x₁, x₂, rfl, h₁, h₂⟩
    · exact ⟨t, by simp, h⟩
    · rcases List.infix_cons_iff.1 h with h | h
      · rcases x with _ | ⟨b, x⟩
        · exact absurd rfl hne
        · exact absurd (List.cons_prefix_cons.1 h).1.symm fun heq => hsep (by simp [heq])
      · obtain ⟨t', ht', hx⟩ := infix_of_join hne hsep h
        exact ⟨t', List.mem_cons_of_mem _ ht', hx⟩
    · rcases x₂ with _ | ⟨b, x₂⟩
      · rw [List.append_nil]
        exact ⟨t, by simp, h₁.isInfix⟩
      · exact absurd (List.cons_prefix_cons.1 h₂).1.symm fun heq => hsep (by simp [heq])

end Splitting

section Fields

/-- The maximal runs without white space, as glyphs. -/
def runs (gs : List Glyph) : List (List Glyph) := (gs.splitOnP Glyph.isSpace).filter (· ≠ [])

theorem fields_eq (t : Text) : fields t = (runs (glyphs t)).map bytes := by
  have hpass : ∀ (gs : List Glyph) (done : List Text) (run : List Glyph),
      let acc := gs.foldl (fun (acc : List Text × List Glyph) g =>
        if g.isSpace then (if acc.2.isEmpty then acc else (bytes acc.2.reverse :: acc.1, []))
        else (acc.1, g :: acc.2)) (done, run)
      (if acc.2.isEmpty then acc.1 else bytes acc.2.reverse :: acc.1).reverse
        = done.reverse
          ++ ((List.splitOnPPrepend Glyph.isSpace gs run).filter (· ≠ [])).map bytes := by
    intro gs
    induction gs with
    | nil =>
      intro done run
      cases run <;> simp
    | cons g gs ih =>
      intro done run
      rw [List.foldl_cons, List.splitOnPPrepend_cons_eq_if]
      rcases hg : g.isSpace
      · simp only [Bool.false_eq_true, if_false]
        exact ih done (g :: run)
      · simp only [if_true]
        rcases run with _ | ⟨g', run⟩
        · exact ih done []
        · simp only [List.isEmpty_cons, Bool.false_eq_true, if_false]
          rw [ih (bytes (g' :: run).reverse :: done) [], List.reverse_cons, List.append_assoc,
            List.filter_cons_of_pos (by simp), List.map_cons]
          rfl
  exact hpass (glyphs t) [] []

theorem runs_space {g : Glyph} (hg : g.isSpace) (gs : List Glyph) : runs (g :: gs) = runs gs := by
  unfold runs
  rw [List.splitOnP_cons_eq_if_modifyHead, if_pos hg]
  simp

theorem runs_spaces : ∀ {gs : List Glyph} (_ : ∀ g ∈ gs, g.isSpace) (rest : List Glyph),
    runs (gs ++ rest) = runs rest
  | [], _, _ => rfl
  | g :: gs, h, rest => by
    rw [List.cons_append, runs_space (h g List.mem_cons_self),
      runs_spaces (fun g' hg' => h g' (List.mem_cons_of_mem _ hg')) rest]

/-- A run ends at white space or at the end. -/
theorem runs_append {gs rest : List Glyph} (hne : gs ≠ []) (hrun : ∀ g ∈ gs, g.isSpace = false)
    (hrest : ∀ g, rest.head? = some g → g.isSpace) : runs (gs ++ rest) = gs :: runs rest := by
  rcases rest with _ | ⟨g, rest⟩
  · unfold runs
    rw [List.append_nil, List.splitOnP_eq_singleton hrun]
    simp [hne]
  · have hg : g.isSpace := hrest g rfl
    rw [runs_space hg, runs, List.splitOnP_append_cons_of_forall_mem hrun g hg]
    simp [runs, hne]

/-- Glyphs that start with no white space are a run and what follows it. -/
theorem run_append_rest {gs : List Glyph} (hne : gs ≠ [])
    (hhead : ∀ g, gs.head? = some g → g.isSpace = false) :
    ∃ run rest : List Glyph, gs = run ++ rest ∧ run ≠ [] ∧ (∀ g ∈ run, g.isSpace = false)
      ∧ ∀ g, rest.head? = some g → g.isSpace := by
  obtain ⟨g, gs, rfl⟩ := List.exists_cons_of_ne_nil hne
  refine ⟨(g :: gs).takeWhile (!·.isSpace), (g :: gs).dropWhile (!·.isSpace),
    List.takeWhile_append_dropWhile.symm, ?_, fun g' hg' => ?_, fun g' hg' => ?_⟩
  · simp [hhead g rfl]
  · simpa using List.mem_takeWhile_imp hg'
  · have hnot := List.head?_dropWhile_not (fun g : Glyph => !g.isSpace) (g :: gs)
    rw [hg'] at hnot
    simpa using hnot

theorem fields_eq_nil {t : Text} : fields t = [] ↔ t.isBlank := by
  rw [fields_eq, List.map_eq_nil_iff, isBlank_iff]
  refine ⟨fun h => ?_, fun h => ?_⟩
  · by_contra hnot
    have hne : (glyphs t).dropWhile Glyph.isSpace ≠ [] :=
      fun hnil => hnot (List.dropWhile_eq_nil_iff.1 hnil)
    obtain ⟨run, rest, hrest, hrun, hspace, hstop⟩ := run_append_rest hne fun g hg => by
      have hhead := List.head?_dropWhile_not Glyph.isSpace (glyphs t)
      rw [hg] at hhead
      simpa using hhead
    rw [← List.takeWhile_append_dropWhile (p := Glyph.isSpace) (l := glyphs t),
      runs_spaces (fun g hg => List.mem_takeWhile_imp hg), hrest,
      runs_append hrun hspace hstop] at h
    cases h
  · have hspaces := runs_spaces h []
    rw [List.append_nil] at hspaces
    rw [hspaces]
    rfl

/-- A byte below `0x80` that is no white space. -/
def Solid (b : UInt8) : Prop := b.toNat < 0x80 ∧ isSpaceCode b.toNat = false

instance (b : UInt8) : Decidable (Solid b) := inferInstanceAs (Decidable (_ ∧ _))

theorem Solid.not_mem_bytes {b : UInt8} (hb : Solid b) {t : Text} {g : Glyph} (hg : g ∈ glyphs t)
    (hspace : g.isSpace) : b ∉ g.bytes := by
  intro hmem
  rw [eq_char_of_mem_bytes hg hb.1 hmem, Glyph.isSpace,
    toNat_ofNat (isScalar_of_lt (by have := hb.1; omega)), hb.2] at hspace
  cases hspace

theorem Solid.not_mem_blank {b : UInt8} (hb : Solid b) {t : Text} (h : t.isBlank) : b ∉ t := by
  intro hmem
  rw [← bytes_glyphs t] at hmem
  obtain ⟨g, hg, hbg⟩ := List.mem_flatMap.1 hmem
  exact hb.not_mem_bytes hg (isBlank_iff.1 h g hg) hbg

/-- What is solid and starts a text starts its first field, if there is no white space before. -/
theorem solid_prefix {x t : Text} {run rest : List Glyph} (hx : ∀ b ∈ x, Solid b)
    (ht : glyphs t = run ++ rest) (hrest : ∀ g, rest.head? = some g → g.isSpace) :
    x <+: bytes run ↔ x <+: t := by
  have htext : t = bytes run ++ bytes rest := by rw [← bytes_append, ← ht, bytes_glyphs]
  refine ⟨fun h => htext ▸ h.trans (List.prefix_append _ _), fun h => ?_⟩
  by_cases hlen : x.length ≤ (bytes run).length
  · exact List.prefix_of_prefix_length_le h (htext ▸ List.prefix_append _ _) hlen
  · obtain ⟨x', rfl⟩ := List.prefix_of_prefix_length_le (htext ▸ List.prefix_append _ _) h
      (Nat.le_of_not_le hlen)
    rcases x' with _ | ⟨b, x'⟩
    · simp at hlen
    · rw [htext, List.prefix_append_right_inj] at h
      rcases rest with _ | ⟨g, rest⟩
      · cases List.prefix_nil.1 h
      · have hb : b ∈ g.bytes := by
          obtain ⟨c, cs, hc⟩ := List.exists_cons_of_ne_nil (bytes_ne_nil (List.cons_ne_nil g []))
          rw [bytes_cons, bytes, List.flatMap_nil, List.append_nil] at hc
          rw [bytes_cons, hc, List.cons_append] at h
          rw [hc, (List.cons_prefix_cons.1 h).1]
          exact List.mem_cons_self
        exact absurd hb ((hx b (by simp)).not_mem_bytes (t := t) (by simp [ht]) (hrest g rfl))

end Fields

end Text

namespace Lines

theorem limit_pos : 0 < limit := by decide

/-- A line without the carriage return that may stand at its end. -/
def withoutReturn (l : Text) : Text := if l.getLast? = some 0x0D then l.dropLast else l

theorem ofReversed_reverse (l : Text) : ofReversed l.reverse = withoutReturn l := by
  rcases l.eq_nil_or_concat with rfl | ⟨l, b, rfl⟩
  · rfl
  · simp [ofReversed, withoutReturn]

section Cutting

variable {l t : Text}

/-- What has no newline in it goes into the current line, as long as that is short enough. -/
theorem cutOnto_pass (acc : List Text) (t : Text) : ∀ {l : Text} (piece : Text),
    Text.newline ∉ l → piece.length + l.length < limit →
    cutOnto acc piece piece.length (l ++ t)
      = cutOnto acc (l.reverse ++ piece) (l.reverse ++ piece).length t
  | [], _, _, _ => rfl
  | b :: l, piece, hl, hlimit => by
    obtain ⟨hb, hl⟩ := List.ne_and_not_mem_of_not_mem_cons hl
    rw [List.length_cons] at hlimit
    rw [List.cons_append, cutOnto, if_neg (Ne.symm hb), if_neg (by omega)]
    have hrest := cutOnto_pass acc t (b :: piece) hl (by rw [List.length_cons]; omega)
    rw [List.length_cons] at hrest
    rw [hrest]
    simp

theorem cutOnto_line (acc : List Text) (hl : Text.newline ∉ l) (hlimit : l.length < limit) :
    cutOnto acc [] 0 (l ++ Text.newline :: t) = cutOnto (withoutReturn l :: acc) [] 0 t := by
  have hpass := cutOnto_pass acc (Text.newline :: t) [] hl (by simpa using hlimit)
  rw [List.length_nil] at hpass
  rw [hpass, List.append_nil, cutOnto, if_pos rfl, ofReversed_reverse]

theorem cutOnto_rest (acc : List Text) (hl : Text.newline ∉ l) (hlimit : l.length < limit) :
    cutOnto acc [] 0 l = ⟨acc.reverse ++ (LineLog.lastLine l).map withoutReturn, false⟩ := by
  have hpass := cutOnto_pass acc [] [] hl (by simpa using hlimit)
  rw [List.append_nil, List.length_nil] at hpass
  rw [hpass, List.append_nil, cutOnto, ofReversed_reverse]
  rcases l with _ | ⟨b, l⟩ <;> simp [LineLog.lastLine]

/-- A line that is too long ends the cutting. -/
theorem cutOnto_overlong (acc : List Text) (hl : Text.newline ∉ l) (hlimit : limit ≤ l.length) :
    cutOnto acc [] 0 (l ++ t) = ⟨acc.reverse, true⟩ := by
  obtain ⟨front, b, back, rfl, hfront⟩ :
      ∃ front b back, l = front ++ b :: back ∧ front.length + 1 = limit := by
    have hpos := limit_pos
    have hlt : limit - 1 < l.length := by omega
    refine ⟨l.take (limit - 1), l[limit - 1], l.drop (limit - 1 + 1), ?_, ?_⟩
    · rw [← List.drop_eq_getElem_cons, List.take_append_drop]
    · rw [List.length_take]
      omega
  rw [List.mem_append, List.mem_cons] at hl
  push Not at hl
  have hpass := cutOnto_pass acc (b :: (back ++ t)) [] hl.1
    (by rw [List.length_nil]; omega)
  rw [List.length_nil] at hpass
  rw [List.append_assoc, List.cons_append, hpass, cutOnto, if_neg (Ne.symm hl.2.1),
    if_pos (by simpa using hfront)]

end Cutting

section Reading

variable {l : Text}

theorem lastLine_short (hlimit : l.length < limit) :
    ∀ l' ∈ LineLog.lastLine l, l'.length < limit := by
  unfold LineLog.lastLine
  split_ifs
  · simp
  · simpa using hlimit

/-- What becomes of lines that are read one after the other up to the first that is too long. -/
def read (ls : List Text) : Lines :=
  ⟨(ls.takeWhile (·.length < limit)).map withoutReturn, ls.any (limit ≤ ·.length)⟩

theorem read_short (hlimit : l.length < limit) (ls : List Text) :
    read (l :: ls) = ⟨withoutReturn l :: (read ls).lines, (read ls).overlong⟩ := by
  simp [read, hlimit, Nat.not_le.2 hlimit]

theorem read_overlong (hlimit : limit ≤ l.length) (ls : List Text) :
    read (l :: ls) = ⟨[], true⟩ := by
  simp [read, hlimit]

theorem read_of_short {ls : List Text} (h : ∀ l ∈ ls, l.length < limit) :
    read ls = ⟨ls.map withoutReturn, false⟩ := by
  induction ls with
  | nil => rfl
  | cons l ls ih =>
    obtain ⟨hl, hls⟩ := List.forall_mem_cons.1 h
    rw [read_short hl, ih hls, List.map_cons]

/-- The lines of a text: there is a newline behind each, except perhaps the last one. -/
def Of (t : Text) (lines : List Text) : Prop :=
  ∃ ls rest, LineLog.Lines t ls rest ∧ lines = ls ++ LineLog.lastLine rest

/-- The lines of a text are read one after the other. -/
theorem ofText_eq {t : Text} {lines : List Text} (h : Of t lines) : ofText t = read lines := by
  obtain ⟨ls, rest, ⟨rfl, hlines, hrest⟩, rfl⟩ := h
  have hcut : ∀ (ls acc : List Text), (∀ l ∈ ls, Text.newline ∉ l) →
      cutOnto acc [] 0 (ls.flatMap (· ++ [Text.newline]) ++ rest)
        = ⟨acc.reverse ++ (read (ls ++ LineLog.lastLine rest)).lines,
          (read (ls ++ LineLog.lastLine rest)).overlong⟩ := by
    intro ls
    induction ls with
    | nil =>
      intro acc _
      rw [List.flatMap_nil, List.nil_append, List.nil_append]
      by_cases hshort : rest.length < limit
      · rw [cutOnto_rest acc hrest hshort, read_of_short (lastLine_short hshort)]
      · have hover := cutOnto_overlong (t := []) acc hrest (Nat.le_of_not_lt hshort)
        have hne : rest ≠ [] := fun hnil => hshort (hnil ▸ limit_pos)
        rw [List.append_nil] at hover
        rw [hover, LineLog.lastLine, if_neg hne, read_overlong (Nat.le_of_not_lt hshort),
          List.append_nil]
    | cons l ls ih =>
      intro acc hall
      obtain ⟨hl, hls⟩ := List.forall_mem_cons.1 hall
      rw [List.flatMap_cons, List.append_assoc, List.append_assoc, List.singleton_append,
        List.cons_append]
      by_cases hshort : l.length < limit
      · rw [cutOnto_line acc hl hshort, ih _ hls, read_short hshort, List.reverse_cons,
          List.append_assoc, List.singleton_append]
      · rw [cutOnto_overlong acc hl (Nat.le_of_not_lt hshort),
          read_overlong (Nat.le_of_not_lt hshort), List.append_nil]
  exact hcut ls [] hlines

/-- Only the empty text has no lines. -/
theorem Of.eq_nil {t : Text} {lines : List Text} (h : Of t lines) : lines = [] ↔ t = [] := by
  obtain ⟨ls, rest, ⟨rfl, -, -⟩, rfl⟩ := h
  unfold LineLog.lastLine
  rcases ls with _ | ⟨l, ls⟩ <;> split_ifs with hrest <;> simp [hrest]

end Reading

end Lines

end LineForth
