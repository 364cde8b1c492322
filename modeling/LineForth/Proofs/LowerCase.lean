import LineForth.Text.LowerCase
import LineForth.Proofs.Glyphs

/-!
# Names in lower case

Lower case has no upper case in it: a character that was put in lower case is not in the table any
more (`lowerCode_lowerCode`).  Of two ranges of the table, one moves its codes past the other or
between its codes (`CaseRange.clears`), and that is checked for all of them at once.

A name in lower case is made of characters only, which are read as they were written, so that
folding it again changes nothing (`fold_fold`).  This is what names are told apart by.
-/

namespace LineForth

section Codes

/-- The first code of a range after it is moved. -/
def CaseRange.lowest (r : CaseRange) : Nat := (r.first + r.shift).toNat

/-- The last code of a range after it is moved. -/
def CaseRange.highest (r : CaseRange) : Nat := (r.last + r.shift).toNat

/-- No code of `r`, once moved, is a code of `r'`: it lies before or after all of them, or on the
codes between them. -/
def CaseRange.clears (r r' : CaseRange) : Bool :=
  r.highest.blt r'.first || r'.last.blt r.lowest
    || ((r.step == 2 || r.first == r.last) && r'.step == 2 && (r.lowest + r'.first) % 2 == 1)

/-- A range moves its codes to scalar values. -/
def CaseRange.scalar (r : CaseRange) : Bool :=
  decide (0 ≤ r.first + r.shift)
    && (r.highest.blt 0xD800 || (Nat.ble 0xE000 r.lowest && r.highest.blt 0x110000))

theorem lowerRanges_clear : (lowerRanges.all fun r => lowerRanges.all r.clears) = true := by
  decide +kernel

theorem lowerRanges_scalar : (lowerRanges.all CaseRange.scalar) = true := by decide +kernel

theorem CaseRange.covers_iff {r : CaseRange} {n : Nat} :
    r.covers n ↔ r.first ≤ n ∧ n ≤ r.last ∧ (n - r.first) % r.step = 0 := by
  simp [CaseRange.covers, and_assoc]

theorem covers_moved {r r' : CaseRange} (hs : r.scalar) (h : r.clears r') {n : Nat}
    (hn : r.covers n) : r'.covers (n + r.shift).toNat = false := by
  rw [← Bool.not_eq_true, CaseRange.covers_iff]
  rw [CaseRange.covers_iff] at hn
  simp only [CaseRange.scalar, CaseRange.clears, CaseRange.lowest, CaseRange.highest,
    Bool.and_eq_true, Bool.or_eq_true, decide_eq_true_eq, Nat.blt_eq, beq_iff_eq] at hs h
  obtain ⟨hfirst, hlast, hstep⟩ := hn
  rintro ⟨hfirst', hlast', hstep'⟩
  rcases h with (h | h) | ⟨⟨h | h, h'⟩, hparity⟩
  · omega
  · omega
  · rw [h] at hstep
    rw [h'] at hstep'
    omega
  · rw [h'] at hstep'
    omega

theorem isScalar_moved {r : CaseRange} (hs : r.scalar) {n : Nat} (hn : r.covers n) :
    isScalar (n + r.shift).toNat := by
  rw [CaseRange.covers_iff] at hn
  simp only [CaseRange.scalar, CaseRange.lowest, CaseRange.highest, Bool.and_eq_true,
    Bool.or_eq_true, decide_eq_true_eq, Nat.blt_eq, Nat.ble_eq] at hs
  simp only [isScalar, Bool.or_eq_true, Bool.and_eq_true, decide_eq_true_eq]
  omega

theorem lowerRanges_tail : ∀ r ∈ lowerRanges.tail, 0x80 ≤ r.first := by decide +kernel

/-- The letters of the first range need no table, but are in it all the same. -/
theorem lowerCode_eq (n : Nat) :
    lowerCode n
      = ((lowerRanges.find? (·.covers n)).map fun r => ((n : Int) + r.shift).toNat).getD n := by
  have hletters : lowerRanges = ⟨0x41, 0x5a, 1, 32⟩ :: lowerRanges.tail := rfl
  have hcovers : CaseRange.covers ⟨0x41, 0x5a, 1, 32⟩ n ↔ 0x41 ≤ n ∧ n ≤ 0x5A := by
    simp [CaseRange.covers, Nat.mod_one]
  unfold lowerCode
  split_ifs with h h'
  · rw [hletters, List.find?_cons_of_pos (p := fun r => CaseRange.covers r n) (hcovers.2 h')]
    simp only [Option.map_some, Option.getD_some]
    omega
  · have hnone : lowerRanges.find? (·.covers n) = none := by
      rw [List.find?_eq_none, hletters]
      intro r hr
      rcases List.mem_cons.1 hr with rfl | hr
      · exact fun hc => h' (hcovers.1 hc)
      · have := lowerRanges_tail r hr
        rw [CaseRange.covers_iff]
        omega
    rw [hnone, Option.map_none, Option.getD_none]
  · split <;> rename_i hr <;> rw [hr] <;> rfl

theorem lowerCode_of_not_covered {n : Nat} (h : ∀ r ∈ lowerRanges, r.covers n = false) :
    lowerCode n = n := by
  have hnone : lowerRanges.find? (·.covers n) = none := by
    rw [List.find?_eq_none]
    intro r hr
    simp [h r hr]
  rw [lowerCode_eq, hnone, Option.map_none, Option.getD_none]

/-- A code stays, or it is moved by a range of the table that covers it. -/
theorem lowerCode_cases (n : Nat) : lowerCode n = n
    ∨ ∃ r ∈ lowerRanges, r.covers n ∧ r.scalar ∧ lowerCode n = (n + r.shift).toNat := by
  rcases hr : lowerRanges.find? (·.covers n) with _ | r
  · left
    rw [lowerCode_eq, hr, Option.map_none, Option.getD_none]
  · right
    have hmem := List.mem_of_find?_eq_some hr
    have hcovers : r.covers n := by
      have := List.find?_some hr
      exact this
    refine ⟨r, hmem, hcovers, List.all_eq_true.1 lowerRanges_scalar r hmem, ?_⟩
    rw [lowerCode_eq, hr, Option.map_some, Option.getD_some]

theorem lowerCode_lowerCode (n : Nat) : lowerCode (lowerCode n) = lowerCode n := by
  rcases lowerCode_cases n with h | ⟨r, hmem, hcovers, hscalar, h⟩
  · rw [h, h]
  · have hclear := List.all_eq_true.1 lowerRanges_clear r hmem
    rw [h]
    refine lowerCode_of_not_covered fun r' hr' => ?_
    exact covers_moved hscalar (List.all_eq_true.1 hclear r' hr') hcovers

theorem isScalar_lowerCode {n : Nat} (hn : isScalar n) : isScalar (lowerCode n) := by
  rcases lowerCode_cases n with h | ⟨r, -, hcovers, hscalar, h⟩
  · rw [h]
    exact hn
  · rw [h]
    exact isScalar_moved hscalar hcovers

end Codes

namespace Text

section Names

theorem lower_char (g : Glyph) : ∃ c, g.lower = .char c := by
  cases g with
  | char c => exact ⟨_, rfl⟩
  | stray b => exact ⟨_, rfl⟩

theorem lower_lower (g : Glyph) : g.lower.lower = g.lower := by
  cases g with
  | char c =>
    have hcode := toNat_ofNat (isScalar_lowerCode (isScalar_toNat c))
    simp only [Glyph.lower, hcode, lowerCode_lowerCode]
  | stray b =>
    have hcode : lowerCode replacement.toNat = replacement.toNat := by decide +kernel
    simp only [Glyph.lower, hcode, Char.ofNat_toNat]

/-- The glyphs of a name in lower case are those of the name, each in lower case. -/
theorem glyphs_fold (t : Text) : glyphs (fold t) = (glyphs t).map Glyph.lower := by
  have h := glyphs_bytes ((glyphs t).map Glyph.lower) (fun g hg => ?_) []
  · simpa [fold, glyphs, glyphsOnto] using h
  · obtain ⟨g', -, rfl⟩ := List.mem_map.1 hg
    exact lower_char g'

/-- Folding a name twice is folding it once. -/
@[simp]
theorem fold_fold (t : Text) : fold (fold t) = fold t := by
  have hlower : ∀ gs : List Glyph, (gs.map Glyph.lower).map Glyph.lower = gs.map Glyph.lower := by
    intro gs
    simp [lower_lower]
  rw [fold, glyphs_fold, hlower]
  rfl

end Names

end Text

end LineForth
