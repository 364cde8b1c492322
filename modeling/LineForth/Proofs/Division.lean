import Mathlib.Data.Rat.Floor
import LineForth.Proofs.Operands

/-!
# Division

Cells are divided towards zero, and the result is corrected where that is not rounding down
(`Corrected`).  The quotient and the remainder are corrected by different tests, one on the sign of
the dividend and one on the sign of the remainder.  They come to the same, since a remainder that is
not zero has the sign of the dividend.  So `Cell.fdiv` and `Cell.fmod` are the quotient rounded down
and the remainder that belongs to it; only the least cell divided by `-1` has a quotient that is no
cell (`Cell.Floored`).

The words that divide look at the divisor first.  A machine on which a division by zero breaks off
never comes to break off in them (`Primitive.divide?`).
-/

namespace LineForth

section Integers

variable {a b q m : Int}

/-- `m` lies between zero and `b`, and is not `b`. -/
def Remainder (m b : Int) : Prop := (0 ≤ m ∧ m < b) ∨ (b < m ∧ m ≤ 0)

theorem Remainder.floor_div (hm : Remainder m b) (h : b * q + m = a) : ⌊(a : ℚ) / b⌋ = q := by
  have hb : (b : ℚ) ≠ 0 := by
    intro hb
    obtain rfl : b = 0 := by exact_mod_cast hb
    rcases hm with hm | hm <;> omega
  have hsplit : (a : ℚ) / b = q + m / b := by
    rw [← h]
    push_cast
    rw [add_div, mul_div_cancel_left₀ _ hb]
  have hpart : 0 ≤ (m : ℚ) / b ∧ (m : ℚ) / b < 1 := by
    rcases hm with ⟨hm, hlt⟩ | ⟨hlt, hm⟩
    · have hpos : (0 : ℚ) < b := by exact_mod_cast (by omega : 0 < b)
      exact ⟨div_nonneg (by exact_mod_cast hm) hpos.le,
        (div_lt_one hpos).2 (by exact_mod_cast hlt)⟩
    · have hneg : (b : ℚ) < 0 := by exact_mod_cast (by omega : b < 0)
      exact ⟨div_nonneg_of_nonpos (by exact_mod_cast hm) hneg.le,
        (div_lt_one_of_neg hneg).2 (by exact_mod_cast hlt)⟩
  rw [hsplit, Int.floor_intCast_add, Int.floor_eq_zero_iff.2 hpart, add_zero]

theorem tmod_natAbs_lt (a : Int) (hb : b ≠ 0) : (a.tmod b).natAbs < b.natAbs := by
  rw [Int.natAbs_tmod]
  exact Nat.mod_lt _ (by omega)

/-- A remainder has the sign of the dividend. -/
theorem tmod_neg_iff (b : Int) (hm : a.tmod b ≠ 0) : a.tmod b < 0 ↔ a < 0 := by
  rcases Int.le_total 0 a with ha | ha
  · have := Int.tmod_nonneg b ha
    omega
  · have := Int.tmod_nonneg b (Int.neg_nonneg_of_nonpos ha)
    rw [Int.neg_tmod] at this
    have hne : a ≠ 0 := by
      rintro rfl
      exact hm (Int.zero_tmod b)
    omega

/-- Whether dividing towards zero is not rounding down. -/
def Corrected (a b : Int) : Prop := a.tmod b ≠ 0 ∧ ¬ (a.tmod b < 0 ↔ b < 0)

instance (a b : Int) : Decidable (Corrected a b) :=
  inferInstanceAs (Decidable (a.tmod b ≠ 0 ∧ ¬ (a.tmod b < 0 ↔ b < 0)))

theorem corrected_remainder (a : Int) (hb : b ≠ 0) :
    Remainder (a.tmod b + if Corrected a b then b else 0) b := by
  have hlt := tmod_natAbs_lt a hb
  unfold Remainder Corrected
  split_ifs <;> omega

/-- What the quotient loses the remainder wins. -/
theorem corrected_whole (a b : Int) : b * (a.tdiv b - if Corrected a b then 1 else 0)
    + (a.tmod b + if Corrected a b then b else 0) = a := by
  have := Int.mul_tdiv_add_tmod a b
  rw [Int.mul_sub]
  split_ifs <;> omega

theorem floor_corrected (a : Int) (hb : b ≠ 0) :
    ⌊(a : ℚ) / b⌋ = a.tdiv b - if Corrected a b then 1 else 0 :=
  (corrected_remainder a hb).floor_div (corrected_whole a b)

end Integers

namespace Cell

variable {a b : Cell}

section Bounds

theorem toInt_eq_zero {c : Cell} : c.toInt = 0 ↔ c = 0 := by
  rw [← Int64.toInt_zero, Int64.toInt_inj]

theorem toInt_ne_zero (hb : b ≠ 0) : b.toInt ≠ 0 := mt toInt_eq_zero.1 hb

theorem neg_iff {c : Cell} : c < 0 ↔ c.toInt < 0 := by
  rw [Int64.lt_iff_toInt_lt, Int64.toInt_zero]

theorem signs_iff {c d : Cell} :
    decide (c < 0) ≠ decide (d < 0) ↔ ¬ (c.toInt < 0 ↔ d.toInt < 0) := by
  rw [ne_eq, decide_eq_decide, neg_iff, neg_iff]

/-- Cells of different signs have a sum. -/
theorem addition_exact (h : decide (a < 0) ≠ decide (b < 0)) :
    (a + b).toInt = a.toInt + b.toInt := by
  rw [signs_iff] at h
  have ha := Int64.le_toInt a
  have ha' := Int64.toInt_lt a
  have hb := Int64.le_toInt b
  have hb' := Int64.toInt_lt b
  rw [Int64.toInt_add, Int.bmod_eq_of_le] <;> omega

theorem toInt_div (h : ¬ (a = Int64.minValue ∧ b = -1)) :
    (a / b).toInt = a.toInt.tdiv b.toInt := by
  by_cases ha : a = Int64.minValue
  · exact Int64.toInt_div_of_ne_right _ _ fun hb => h ⟨ha, hb⟩
  · exact Int64.toInt_div_of_ne_left _ _ ha

/-- With a remainder the divisor is at least two, and the quotient is far from the least cell. -/
theorem decrement_exact (hb : b ≠ 0) (hm : a % b ≠ 0) :
    (a / b - 1).toInt = (a / b).toInt - 1 := by
  have hwrap : ¬ (a = Int64.minValue ∧ b = -1) := by
    rintro ⟨rfl, rfl⟩
    exact hm (by decide)
  have hm' : a.toInt.tmod b.toInt ≠ 0 := by
    rwa [← Int64.toInt_mod, ne_eq, toInt_eq_zero]
  have htwo : 2 ≤ b.toInt.natAbs := by
    have := tmod_natAbs_lt a.toInt (toInt_ne_zero hb)
    omega
  have hq : (a / b).toInt.natAbs ≤ a.toInt.natAbs / 2 := by
    rw [toInt_div hwrap, Int.natAbs_tdiv]
    exact Nat.div_le_div_left htwo (by decide)
  have ha := Int64.le_toInt a
  have ha' := Int64.toInt_lt a
  rw [Int64.toInt_sub, Int64.toInt_one, Int.bmod_eq_of_le] <;> omega

end Bounds

section Results

theorem fmod_test : a % b ≠ 0 ∧ decide (a % b < 0) ≠ decide (b < 0)
    ↔ Corrected a.toInt b.toInt := by
  rw [signs_iff, ne_eq, ← toInt_eq_zero, Int64.toInt_mod]
  rfl

/-- The sign of the dividend is tested, and the remainder has the same. -/
theorem fdiv_test : a % b ≠ 0 ∧ decide (a < 0) ≠ decide (b < 0)
    ↔ Corrected a.toInt b.toInt := by
  rw [signs_iff, ne_eq, ← toInt_eq_zero, Int64.toInt_mod]
  exact and_congr_right fun hm => by rw [tmod_neg_iff _ hm]

theorem toInt_fmod (a b : Cell) : (a.fmod b).toInt
    = a.toInt.tmod b.toInt + if Corrected a.toInt b.toInt then b.toInt else 0 := by
  unfold fmod
  simp only [fmod_test]
  split_ifs with h
  · rw [addition_exact (fmod_test.2 h).2, Int64.toInt_mod]
  · rw [Int64.toInt_mod, Int.add_zero]

theorem toInt_fdiv (hb : b ≠ 0) (hwrap : ¬ (a = Int64.minValue ∧ b = -1)) : (a.fdiv b).toInt
    = a.toInt.tdiv b.toInt - if Corrected a.toInt b.toInt then 1 else 0 := by
  unfold fdiv
  simp only [fdiv_test]
  split_ifs with h
  · rw [decrement_exact hb (fdiv_test.2 h).1, toInt_div hwrap]
  · rw [toInt_div hwrap, Int.sub_zero]

/-- In wrapping arithmetic the quotient and the remainder always make up the dividend. -/
theorem fdiv_fmod_whole (hb : b ≠ 0) : b * a.fdiv b + a.fmod b = a := by
  by_cases hwrap : a = Int64.minValue ∧ b = -1
  · obtain ⟨rfl, rfl⟩ := hwrap
    decide
  · calc b * a.fdiv b + a.fmod b
        = Int64.ofInt (b.toInt * (a.fdiv b).toInt + (a.fmod b).toInt) := by
          rw [Int64.ofInt_add, Int64.ofInt_mul]
          simp only [Int64.ofInt_toInt]
      _ = a := by
          rw [toInt_fdiv hb hwrap, toInt_fmod, corrected_whole, Int64.ofInt_toInt]

/-- `fdiv` and `fmod` give the quotient rounded down and its remainder, and no step in them
overflows but the one division whose quotient is no cell. -/
structure Floored (a b : Cell) : Prop where
  quotient : ¬ (a = Int64.minValue ∧ b = -1) → (a.fdiv b).toInt = ⌊(a.toInt : ℚ) / b.toInt⌋
  wrapped : a = Int64.minValue → b = -1 → a.fdiv b = Int64.minValue
  remainder : (a.fmod b).toInt = a.toInt - b.toInt * ⌊(a.toInt : ℚ) / b.toInt⌋
  sign : a.fmod b = 0 ∨ (a.fmod b < 0 ↔ b < 0)
  smaller : (a.fmod b).toInt.natAbs < b.toInt.natAbs
  whole : b * a.fdiv b + a.fmod b = a
  decrement : a % b ≠ 0 → decide (a < 0) ≠ decide (b < 0) →
    (a / b - 1).toInt = (a / b).toInt - 1
  addition : a % b ≠ 0 → decide (a % b < 0) ≠ decide (b < 0) →
    (a % b + b).toInt = (a % b).toInt + b.toInt

theorem floored (a : Cell) (hb : b ≠ 0) : Floored a b := by
  have hfloor := floor_corrected a.toInt (toInt_ne_zero hb)
  have hremainder := corrected_remainder a.toInt (toInt_ne_zero hb)
  rw [← toInt_fmod] at hremainder
  refine ⟨fun hwrap => ?_, ?_, ?_, ?_, ?_, fdiv_fmod_whole hb, fun hm _ => decrement_exact hb hm,
    fun _ hsigns => addition_exact hsigns⟩
  · rw [hfloor, toInt_fdiv hb hwrap]
  · rintro rfl rfl
    decide
  · have hwhole := corrected_whole a.toInt b.toInt
    rw [hfloor, toInt_fmod]
    omega
  · rw [← toInt_eq_zero, neg_iff, neg_iff]
    rcases hremainder with h | h <;> omega
  · rcases hremainder with h | h <;> omega

end Results

/-- The quotient where there is one; division by zero breaks off. -/
def fdiv? (a b : Cell) : Option Cell := if b = 0 then none else some (a.fdiv b)

/-- The remainder where there is one; division by zero breaks off. -/
def fmod? (a b : Cell) : Option Cell := if b = 0 then none else some (a.fmod b)

end Cell

namespace Primitive

section Words

/-- A word that divides, on a machine that breaks off where `op` gives no result. -/
def divide? (op : Cell → Cell → Option (List Cell)) (s : Stack) : Option Effect :=
  match s.pop? with
  | none => some (s, .error .stackUnderflow)
  | some (b, s) =>
    match s.pop? with
    | none => some (s, .error .stackUnderflow)
    | some (a, s) =>
      if b = 0 then some (s, .error .divisionByZero)
      else (op a b).map fun cs => (s.pushAll cs, .ok [])

/-- Only what `op` gives for other divisors than zero makes a difference. -/
theorem divide?_eq {op? : Cell → Cell → Option (List Cell)} {op : Cell → Cell → List Cell}
    (hop : ∀ a b, b ≠ 0 → op? a b = some (op a b)) (s : Stack) :
    divide? op? s = some (divide op s) := by
  unfold divide? divide binary
  rcases s.pop? with _ | ⟨b, t⟩
  · rfl
  simp only []
  rcases t.pop? with _ | ⟨a, u⟩
  · rfl
  by_cases hb : b = 0
  · simp [hb]
  · simp [hb, hop a b hb]

variable {s : Stack} {below : List Cell} {a b : Cell}

theorem divide_effect (op : Cell → Cell → List Cell) (hs : s.values = below ++ [a, b]) :
    (divide op s).2 = (if b = 0 then .error .divisionByZero else .ok [])
      ∧ (divide op s).1.values = below ++ if b = 0 then [] else op a b := by
  have hcells : s.cells = b :: a :: below.reverse := by
    have := congrArg List.reverse hs
    simpa [Stack.values] using this
  have hrest : ({ s with cells := below.reverse } : Stack).values = below := List.reverse_reverse _
  by_cases hb : b = 0
  · simp [divide, binary, Stack.pop?, hcells, hb, hrest]
  · simp [divide, binary, Stack.pop?, hcells, hb, hrest]

end Words

/-- Cells are divided with rounding down, by every divisor but zero.  On a stack that ends in `a`
and `b` the words leave the remainder, the quotient or both, remainder first; if `b` is zero they
report it and leave what was below.  No machine breaks off in them. -/
theorem division_floored (a b : Cell) :
    (b ≠ 0 → Cell.Floored a b)
      ∧ (∀ (s : Stack) (below : List Cell), s.values = below ++ [a, b] →
        (b ≠ 0 →
          ((run .mod s).2 = .ok [] ∧ (run .mod s).1.values = below ++ [a.fmod b])
            ∧ ((run .div s).2 = .ok [] ∧ (run .div s).1.values = below ++ [a.fdiv b])
            ∧ ((run .divMod s).2 = .ok []
              ∧ (run .divMod s).1.values = below ++ [a.fmod b, a.fdiv b]))
          ∧ (b = 0 → ∀ p ∈ [div, divMod, mod],
            (run p s).2 = .error .divisionByZero ∧ (run p s).1.values = below))
      ∧ ∀ s : Stack,
        divide? (fun a b => (a.fmod? b).map fun m => [m]) s = some (run .mod s)
          ∧ divide? (fun a b => (a.fdiv? b).map fun q => [q]) s = some (run .div s)
          ∧ divide? (fun a b => (a.fmod? b).bind fun m => (a.fdiv? b).map fun q => [m, q]) s
            = some (run .divMod s) := by
  refine ⟨Cell.floored a, fun s below hs => ?_, fun s => ?_⟩
  · have hmod := divide_effect (fun a b => [a.fmod b]) hs
    have hdiv := divide_effect (fun a b => [a.fdiv b]) hs
    have hboth := divide_effect (fun a b => [a.fmod b, a.fdiv b]) hs
    refine ⟨fun hb => ?_, fun hb => ?_⟩
    · simp only [if_neg hb] at hmod hdiv hboth
      exact ⟨hmod, hdiv, hboth⟩
    · simp only [if_pos hb, List.append_nil] at hmod hdiv hboth
      simp only [List.forall_mem_cons, List.not_mem_nil, false_implies, implies_true, and_true]
      exact ⟨hdiv, hboth, hmod⟩
  · refine ⟨divide?_eq ?_ s, divide?_eq ?_ s, divide?_eq ?_ s⟩ <;> intro a b hb
    · simp [Cell.fmod?, hb]
    · simp [Cell.fdiv?, hb]
    · simp [Cell.fmod?, Cell.fdiv?, hb]

end Primitive

end LineForth
