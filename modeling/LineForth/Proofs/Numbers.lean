import Mathlib.Algebra.Group.Int.Defs
import LineForth.Proofs.Listing

/-!
# Numbers

How an integer is spelled is given by rules: a digit is a numeral, so is a numeral of a positive
number with a digit behind it, and a minus in front makes a positive number negative.  No rule puts
a zero in front of other digits, a plus in front of a number or a minus in front of zero, so an
integer has one spelling (`Decimal.spells_iff`).

Reading accepts much more than that, and then asks for the text to be what would be written.  What
is left are the spellings of the integers that fit in a cell (`Cell.ofText?_iff`).
-/

namespace LineForth

namespace Decimal

def digitByte (d : Nat) : UInt8 := (0x30 + d).toUInt8

def minus : UInt8 := 0x2D

/-- The text is the decimal numeral of the number, most significant digit first. -/
inductive Numeral : Text → Nat → Prop
  | digit {d : Nat} : d < 10 → Numeral [digitByte d] d
  | more {t : Text} {n d : Nat} : Numeral t n → 0 < n → d < 10 →
      Numeral (t ++ [digitByte d]) (10 * n + d)

/-- The text is the canonical decimal spelling of the integer. -/
inductive Spells : Text → Int → Prop
  | natural {t : Text} {n : Nat} : Numeral t n → Spells t n
  | negative {t : Text} {n : Nat} : Numeral t n → 0 < n → Spells (minus :: t) (-n)

section Writing

theorem ofNat_digit {d : Nat} (hd : d < 10) : ofNat d = [digitByte d] := by
  rw [ofNat, Nat.toDigits_of_lt_base hd, List.map_singleton, Nat.toNat_digitChar_of_lt_ten hd]
  rfl

theorem ofNat_more {n d : Nat} (hn : 0 < n) (hd : d < 10) :
    ofNat (10 * n + d) = ofNat n ++ [digitByte d] := by
  rw [← ofNat_digit hd]
  unfold ofNat
  rw [← Nat.toDigits_append_toDigits (by decide) hn hd, List.map_append]

theorem numeral_ofNat (n : Nat) : Numeral (ofNat n) n := by
  induction n using Nat.strongRecOn with
  | ind n ih =>
    by_cases hn : n < 10
    · rw [ofNat_digit hn]
      exact .digit hn
    · have hpos : 0 < n / 10 := by omega
      have hdigit : n % 10 < 10 := by omega
      have hmore := Numeral.more (ih (n / 10) (by omega)) hpos hdigit
      rwa [← ofNat_more hpos hdigit, Nat.div_add_mod] at hmore

theorem Numeral.eq_ofNat {t : Text} {n : Nat} (h : Numeral t n) : t = ofNat n := by
  induction h with
  | digit hd => exact (ofNat_digit hd).symm
  | more _ hn hd ih => rw [ih, ofNat_more hn hd]

/-- An integer has one spelling, the one in which it is written. -/
theorem spells_iff {t : Text} {n : Int} : Spells t n ↔ t = ofInt n := by
  constructor
  · intro h
    cases h with
    | natural h => exact h.eq_ofNat
    | @negative t n h hn =>
      obtain ⟨m, rfl⟩ : ∃ m, n = m + 1 := ⟨n - 1, by omega⟩
      exact congrArg (minus :: ·) h.eq_ofNat
  · rintro rfl
    cases n with
    | ofNat n => exact .natural (numeral_ofNat n)
    | negSucc n => exact .negative (numeral_ofNat (n + 1)) (by omega)

end Writing

section Reading

theorem toNat_digitByte {d : Nat} (hd : d < 10) : (digitByte d).toNat = 0x30 + d := by
  rw [digitByte, Nat.toUInt8, UInt8.toNat_ofNat']
  omega

theorem isDigit_digitByte {d : Nat} (hd : d < 10) : isDigit (digitByte d) := by
  simp only [isDigit, toNat_digitByte hd, Bool.and_eq_true, decide_eq_true_eq]
  omega

theorem digit_digitByte {d : Nat} (hd : d < 10) : digit (digitByte d) = d := by
  rw [digit, toNat_digitByte hd]
  omega

theorem toNat?_digit {d : Nat} (hd : d < 10) : toNat? [digitByte d] = some d := by
  simp [toNat?, isDigit_digitByte hd, digit_digitByte hd]

/-- A digit behind the text multiplies what was read by ten. -/
theorem toNat?_more {t : Text} {n d : Nat} (h : toNat? t = some n) (hd : d < 10) :
    toNat? (t ++ [digitByte d]) = some (10 * n + d) := by
  unfold toNat? at h
  split_ifs at h with ht
  obtain rfl := Option.some.inj h
  have hall : (t ++ [digitByte d]).all isDigit := by
    rw [List.all_append, ht.2, List.all_cons, isDigit_digitByte hd]
    rfl
  rw [toNat?, if_pos ⟨by simp, hall⟩, List.foldl_append, List.foldl_cons, List.foldl_nil,
    digit_digitByte hd, Nat.mul_comm]

theorem Numeral.toNat? {t : Text} {n : Nat} (h : Numeral t n) : toNat? t = some n := by
  induction h with
  | digit hd => exact toNat?_digit hd
  | more _ _ hd ih => exact toNat?_more ih hd

theorem Spells.toInt? {t : Text} {n : Int} (h : Spells t n) : toInt? t = some n := by
  cases h with
  | @natural t n h =>
    have hread := h.toNat?
    obtain ⟨hne, hbytes⟩ := toNat?_bytes hread
    obtain ⟨b, rest, rfl⟩ := List.exists_cons_of_ne_nil hne
    have hb := hbytes b List.mem_cons_self
    rw [Decimal.toInt?, if_neg, if_neg, hread]
    · rfl
    · rintro rfl
      revert hb
      decide
    · rintro rfl
      revert hb
      decide
  | @negative t n h hn =>
    rw [Decimal.toInt?, if_pos (by decide), h.toNat?]
    rfl

end Reading

end Decimal

namespace Cell

theorem text_spells (c : Cell) : Decimal.Spells c.text c.toInt := Decimal.spells_iff.2 rfl

@[simp]
theorem ofText?_text (c : Cell) : ofText? c.text = some c := by
  have hmin : Int64.minValue.toInt ≤ c.toInt := by
    rw [Int64.toInt_minValue]
    exact Int64.le_toInt c
  have hmax : c.toInt ≤ Int64.maxValue.toInt := by
    have := Int64.toInt_lt c
    rw [Int64.toInt_maxValue]
    omega
  simp only [ofText?, c.text_spells.toInt?]
  rw [if_pos ⟨hmin, hmax, rfl⟩, Int64.ofInt_toInt]

/-- The texts that are read as numbers are the spellings of the cells. -/
theorem ofText?_iff {t : Text} {c : Cell} : ofText? t = some c ↔ Decimal.Spells t c.toInt := by
  rw [Decimal.spells_iff]
  constructor
  · intro h
    exact (toInt?_of_ofText? h).2.symm
  · rintro rfl
    exact ofText?_text c

/-- A text is read as the integer that it spells, if the integer fits in a cell; any other text is
no number.  So a cell is read back from its text, and from no other. -/
theorem numbers_spelled (t : Text) :
    (∀ n : Int, (ofText? t).map Int64.toInt = some n
        ↔ -2 ^ 63 ≤ n ∧ n ≤ 2 ^ 63 - 1 ∧ Decimal.Spells t n)
      ∧ (ofText? t = none ↔ ∀ n : Int, -2 ^ 63 ≤ n → n ≤ 2 ^ 63 - 1 → ¬ Decimal.Spells t n)
      ∧ (∀ c : Cell, ofText? c.text = some c)
      ∧ ∀ (c : Cell) (t' : Text), ofText? t = some c → ofText? t' = some c → t' = t := by
  have hread : ∀ n : Int, (ofText? t).map Int64.toInt = some n
      ↔ -2 ^ 63 ≤ n ∧ n ≤ 2 ^ 63 - 1 ∧ Decimal.Spells t n := by
    intro n
    rw [Option.map_eq_some_iff]
    constructor
    · rintro ⟨c, hc, rfl⟩
      have hmin := Int64.le_toInt c
      have hmax := Int64.toInt_lt c
      exact ⟨hmin, by omega, ofText?_iff.1 hc⟩
    · rintro ⟨hmin, hmax, hspells⟩
      have hn : (Int64.ofInt n).toInt = n := Int64.toInt_ofInt_of_le hmin (by omega)
      exact ⟨Int64.ofInt n, ofText?_iff.2 (by rwa [hn]), hn⟩
  refine ⟨hread, ?_, ofText?_text, ?_⟩
  · rw [← Option.map_eq_none_iff (f := Int64.toInt), Option.eq_none_iff_forall_ne_some]
    exact forall_congr' fun n => by rw [ne_eq, hread n, not_and, not_and]
  · intro c t' h h'
    rw [← (toInt?_of_ofText? h).2, ← (toInt?_of_ofText? h').2]

end Cell

end LineForth
