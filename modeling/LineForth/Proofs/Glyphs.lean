import Mathlib.Data.List.Basic
import LineForth.Text

/-!
# Reading glyphs

Reading a text as glyphs loses nothing: the glyphs written back are the text (`bytes_glyphs`).  Each
glyph stands for the bytes it was read from, a character for its only well-formed sequence and a
stray byte for itself.

A character never reaches across a byte that cannot continue one, so a text can be read in two parts
wherever the second part starts with such a byte (`glyphs_append`), and also after whole characters
(`glyphs_bytes`), so that characters are read back as they were written.  Wherever reading stops, it
goes on from there as if the rest were all (`glyphs_suffix`).
-/

namespace LineForth

/-- A byte that continues the character of an earlier one. -/
def IsContinuation (b : UInt8) : Prop := 0x80 ≤ b.toNat ∧ b.toNat < 0xC0

namespace Text

section Code

theorem toUInt8_eq {n : Nat} {b : UInt8} (h : n = b.toNat) : n.toUInt8 = b := by
  subst h
  simp

theorem toNat_ofNat {n : Nat} (h : isScalar n) : (Char.ofNat n).toNat = n := by
  have hv : n.isValidChar := by
    simp only [isScalar, Bool.or_eq_true, Bool.and_eq_true, decide_eq_true_eq] at h
    unfold Nat.isValidChar
    omega
  unfold Char.ofNat
  rw [dif_pos hv]
  rfl

theorem gather_cons {v w : Nat} {b : UInt8} {bs : Text} (h : gather v (b :: bs) = some w) :
    IsContinuation b ∧ gather (v * 64 + (b.toNat - 0x80)) bs = some w := by
  rw [gather] at h
  split_ifs at h with hb
  exact ⟨hb, h⟩

theorem gather_append_stop {s : UInt8} (hs : ¬ IsContinuation s) (u : Text) :
    ∀ (t : Text) (v : Nat), gather v (t ++ s :: u) = none
  | [], v => by
    rw [List.nil_append, gather]
    exact if_neg hs
  | b :: t, v => by
    rw [List.cons_append, gather]
    split_ifs
    · exact gather_append_stop hs u t _
    · rfl

/-- The bytes of a character of two bytes are the two it was read from. -/
theorem codeBytes_two {b c : UInt8} {v : Nat} (hb : 0xC0 ≤ b.toNat) (hb' : b.toNat < 0xE0)
    (h : gather (b.toNat - 0xC0) [c] = some v) (hv : 0x80 ≤ v) : codeBytes v = [b, c] := by
  obtain ⟨⟨hc, hc'⟩, h⟩ := gather_cons h
  obtain rfl := Option.some.inj h
  unfold codeBytes
  rw [if_neg (by omega), if_pos (by omega), toUInt8_eq (b := b) (by omega),
    toUInt8_eq (b := c) (by omega)]

theorem codeBytes_three {b c e : UInt8} {v : Nat} (hb : 0xE0 ≤ b.toNat) (hb' : b.toNat < 0xF0)
    (h : gather (b.toNat - 0xE0) [c, e] = some v) (hv : 0x800 ≤ v) :
    codeBytes v = [b, c, e] := by
  obtain ⟨⟨hc, hc'⟩, h⟩ := gather_cons h
  obtain ⟨⟨he, he'⟩, h⟩ := gather_cons h
  obtain rfl := Option.some.inj h
  unfold codeBytes
  rw [if_neg (by omega), if_neg (by omega), if_pos (by omega), toUInt8_eq (b := b) (by omega),
    toUInt8_eq (b := c) (by omega), toUInt8_eq (b := e) (by omega)]

theorem codeBytes_four {b c e k : UInt8} {v : Nat} (hb : 0xF0 ≤ b.toNat)
    (h : gather (b.toNat - 0xF0) [c, e, k] = some v) (hv : 0x10000 ≤ v) :
    codeBytes v = [b, c, e, k] := by
  have hb' := b.toNat_lt
  obtain ⟨⟨hc, hc'⟩, h⟩ := gather_cons h
  obtain ⟨⟨he, he'⟩, h⟩ := gather_cons h
  obtain ⟨⟨hk, hk'⟩, h⟩ := gather_cons h
  obtain rfl := Option.some.inj h
  unfold codeBytes
  rw [if_neg (by omega), if_neg (by omega), if_neg (by omega), toUInt8_eq (b := b) (by omega),
    toUInt8_eq (b := c) (by omega), toUInt8_eq (b := e) (by omega), toUInt8_eq (b := k) (by omega)]

end Code

section First

/-- A glyph read at `b` stands for `b` and the bytes after it that it takes. -/
def Exact (b : UInt8) (rest : Text) (r : Glyph × Nat) : Prop :=
  r.2 ≤ rest.length ∧ r.1.bytes = b :: rest.take r.2

theorem exact_stray (b : UInt8) (rest : Text) : Exact b rest (.stray b, 0) := by
  exact ⟨Nat.zero_le _, by simp [Glyph.bytes]⟩

theorem sequence_exact {b : UInt8} {rest : Text} {width high least : Nat}
    (hcode : ∀ v, gather high (rest.take width) = some v → (rest.take width).length = width →
      least ≤ v → codeBytes v = b :: rest.take width) :
    Exact b rest (sequence b rest width high least) := by
  unfold sequence
  simp only []
  split
  · rename_i v hg
    split_ifs with hv
    · obtain ⟨hlen, hleast, hscalar⟩ := hv
      refine ⟨?_, ?_⟩
      · rw [List.length_take] at hlen
        simp only []
        omega
      · simp only [Glyph.bytes, charBytes, toNat_ofNat hscalar]
        exact hcode v hg hlen hleast
    · exact exact_stray b rest
  · exact exact_stray b rest

theorem first_exact (b : UInt8) (rest : Text) : Exact b rest (first b rest) := by
  unfold first
  simp only []
  split_ifs with h1 h2 h3 h4
  · refine ⟨Nat.zero_le _, ?_⟩
    have hs : isScalar b.toNat := by
      simp only [isScalar, Bool.or_eq_true, decide_eq_true_eq]
      omega
    simp only [Glyph.bytes, charBytes, toNat_ofNat hs, codeBytes, if_pos h1, List.take_zero]
    rw [toUInt8_eq rfl]
  · exact exact_stray b rest
  · refine sequence_exact fun v hg hlen hv => ?_
    obtain ⟨c, hc⟩ := List.length_eq_one_iff.1 hlen
    rw [hc] at hg ⊢
    exact codeBytes_two (by omega) h3 hg hv
  · refine sequence_exact fun v hg hlen hv => ?_
    obtain ⟨c, e, hc⟩ := List.length_eq_two.1 hlen
    rw [hc] at hg ⊢
    exact codeBytes_three (by omega) h4 hg hv
  · refine sequence_exact fun v hg hlen hv => ?_
    obtain ⟨c, e, k, hc⟩ := List.length_eq_three.1 hlen
    rw [hc] at hg ⊢
    exact codeBytes_four (by omega) hg hv

theorem sequence_append_stop {s : UInt8} (hs : ¬ IsContinuation s) (u : Text) (b : UInt8)
    (t : Text) (width high least : Nat) :
    sequence b (t ++ s :: u) width high least = sequence b t width high least := by
  by_cases hw : width ≤ t.length
  · unfold sequence
    rw [List.take_append_of_le_length hw]
  · obtain ⟨n, hn⟩ : ∃ n, width - t.length = n + 1 := ⟨width - t.length - 1, by omega⟩
    have hlong : gather high ((t ++ s :: u).take width) = none := by
      rw [List.take_append, hn, List.take_succ_cons, List.take_of_length_le (by omega)]
      exact gather_append_stop hs _ t high
    have hshort : (t.take width).length ≠ width := by
      rw [List.length_take]
      omega
    unfold sequence
    simp only [hlong]
    split
    · rw [if_neg fun h => hshort h.1]
    · rfl

/-- A glyph never reaches across a byte that does not continue a character. -/
theorem first_append_stop {s : UInt8} (hs : ¬ IsContinuation s) (u : Text) (b : UInt8)
    (t : Text) : first b (t ++ s :: u) = first b t := by
  unfold first
  simp only [sequence_append_stop hs]

end First

section Glyphs

theorem bytes_cons (g : Glyph) (gs : List Glyph) : bytes (g :: gs) = g.bytes ++ bytes gs :=
  List.flatMap_cons

theorem bytes_append (gs gs' : List Glyph) : bytes (gs ++ gs') = bytes gs ++ bytes gs' :=
  List.flatMap_append

theorem bytes_suffix {gs gs' : List Glyph} (h : gs <:+ gs') : bytes gs <:+ bytes gs' := by
  obtain ⟨front, rfl⟩ := h
  rw [bytes_append]
  exact List.suffix_append _ _

theorem bytes_glyphsOnto : ∀ (t : Text) (acc : List Glyph) (skip : Nat), skip ≤ t.length →
    bytes (glyphsOnto acc skip t).reverse = bytes acc.reverse ++ t.drop skip
  | [], acc, skip, h => by simp [glyphsOnto]
  | b :: rest, acc, skip + 1, h => by
    rw [glyphsOnto, List.drop_succ_cons]
    exact bytes_glyphsOnto rest acc skip (by simpa using h)
  | b :: rest, acc, 0, _ => by
    obtain ⟨hle, hbytes⟩ := first_exact b rest
    rw [glyphsOnto, bytes_glyphsOnto rest _ _ hle, List.reverse_cons, bytes_append,
      List.append_assoc, List.drop_zero]
    have hone : bytes [(first b rest).1] = b :: rest.take (first b rest).2 := by
      simp [bytes, hbytes]
    rw [hone, List.cons_append, List.take_append_drop]

/-- Writing back the glyphs of a text gives the text. -/
theorem bytes_glyphs (t : Text) : bytes (glyphs t) = t := by
  unfold glyphs
  rw [bytes_glyphsOnto t [] 0 (Nat.zero_le _)]
  simp [bytes]

theorem glyphsOnto_acc : ∀ (t : Text) (acc : List Glyph) (skip : Nat),
    glyphsOnto acc skip t = glyphsOnto [] skip t ++ acc
  | [], acc, _ => by simp [glyphsOnto]
  | _ :: rest, acc, skip + 1 => by
    simp only [glyphsOnto]
    exact glyphsOnto_acc rest acc skip
  | b :: rest, acc, 0 => by
    simp only [glyphsOnto]
    rw [glyphsOnto_acc rest (_ :: acc), glyphsOnto_acc rest [_]]
    simp

theorem glyphs_cons {b : UInt8} (hb : b.toNat < 0x80) (t : Text) :
    glyphs (b :: t) = .char (Char.ofNat b.toNat) :: glyphs t := by
  have hfirst : first b t = (.char (Char.ofNat b.toNat), 0) := by
    unfold first
    rw [if_pos hb]
  unfold glyphs
  rw [glyphsOnto, hfirst, glyphsOnto_acc]
  simp

theorem glyphsOnto_append {s : UInt8} (hs : ¬ IsContinuation s) (u : Text) :
    ∀ (t : Text) (acc : List Glyph) (skip : Nat), skip ≤ t.length →
      glyphsOnto acc skip (t ++ s :: u) = glyphsOnto (glyphsOnto acc skip t) 0 (s :: u)
  | [], acc, skip, h => by
    obtain rfl : skip = 0 := by simpa using h
    rfl
  | b :: rest, acc, skip + 1, h => by
    rw [List.cons_append, glyphsOnto, glyphsOnto]
    exact glyphsOnto_append hs u rest acc skip (by simpa using h)
  | b :: rest, acc, 0, _ => by
    rw [List.cons_append, glyphsOnto, glyphsOnto, first_append_stop hs]
    exact glyphsOnto_append hs u rest _ _ (first_exact b rest).1

/-- A text is read in two parts where the second starts with no continuation. -/
theorem glyphs_append {s : UInt8} (hs : ¬ IsContinuation s) (t u : Text) :
    glyphs (t ++ s :: u) = glyphs t ++ glyphs (s :: u) := by
  unfold glyphs
  rw [glyphsOnto_append hs u t [] 0 (Nat.zero_le _), glyphsOnto_acc, List.reverse_append]

end Glyphs

section Characters

theorem isScalar_of_lt {n : Nat} (h : n < 0xD800) : isScalar n := by
  simp only [isScalar, Bool.or_eq_true, decide_eq_true_eq]
  exact .inl h

theorem isScalar_toNat (c : Char) : isScalar c.toNat := by
  have hc := c.valid
  simp only [isScalar, Bool.or_eq_true, Bool.and_eq_true, decide_eq_true_eq]
  change c.toNat < 0xD800 ∨ 0xDFFF < c.toNat ∧ c.toNat < 0x110000 at hc
  omega

theorem toNat_toUInt8 {n : Nat} (h : n < 256) : n.toUInt8.toNat = n := by
  simp [Nat.toUInt8, Nat.mod_eq_of_lt h]

theorem gather_byte {x : Nat} (hx : x < 64) (v : Nat) (bs : Text) :
    gather v ((0x80 + x).toUInt8 :: bs) = gather (v * 64 + x) bs := by
  have hb := toNat_toUInt8 (show 0x80 + x < 256 by omega)
  rw [gather, if_pos (by omega), hb, Nat.add_sub_cancel_left]

theorem sequence_char {b : UInt8} {tail : Text} {high least : Nat} {c : Char}
    (hg : gather high tail = some c.toNat) (hc : least ≤ c.toNat) (rest : Text) :
    sequence b (tail ++ rest) tail.length high least = (.char c, tail.length) := by
  unfold sequence
  simp only [List.take_left, hg]
  rw [if_pos ⟨trivial, hc, isScalar_toNat c⟩, Char.ofNat_toNat]

/-- The first glyph of a character's bytes is the character, and takes all of them. -/
theorem first_char (c : Char) (rest : Text) : ∃ b tail, charBytes c = b :: tail
    ∧ first b (tail ++ rest) = (.char c, tail.length) := by
  have hc : c.toNat < 0x110000 := by
    have := isScalar_toNat c
    simp only [isScalar, Bool.or_eq_true, Bool.and_eq_true, decide_eq_true_eq] at this
    omega
  unfold charBytes codeBytes
  split_ifs with h1 h2 h3
  · refine ⟨_, _, rfl, ?_⟩
    have hb := toNat_toUInt8 (show c.toNat < 256 by omega)
    unfold first
    simp only [hb]
    rw [if_pos h1, Char.ofNat_toNat]
    rfl
  · refine ⟨_, _, rfl, ?_⟩
    have hb := toNat_toUInt8 (show 0xC0 + c.toNat / 64 < 256 by omega)
    unfold first
    simp only [hb]
    rw [if_neg (by omega), if_neg (by omega), if_pos (by omega), Nat.add_sub_cancel_left]
    refine sequence_char ?_ (by omega) rest
    rw [gather_byte (by omega), gather, Option.some.injEq]
    omega
  · refine ⟨_, _, rfl, ?_⟩
    have hb := toNat_toUInt8 (show 0xE0 + c.toNat / 4096 < 256 by omega)
    unfold first
    simp only [hb]
    rw [if_neg (by omega), if_neg (by omega), if_neg (by omega), if_pos (by omega),
      Nat.add_sub_cancel_left]
    refine sequence_char ?_ (by omega) rest
    rw [gather_byte (by omega), gather_byte (by omega), gather, Option.some.injEq]
    omega
  · refine ⟨_, _, rfl, ?_⟩
    have hb := toNat_toUInt8 (show 0xF0 + c.toNat / 262144 < 256 by omega)
    unfold first
    simp only [hb]
    rw [if_neg (by omega), if_neg (by omega), if_neg (by omega), if_neg (by omega),
      Nat.add_sub_cancel_left]
    refine sequence_char ?_ (by omega) rest
    rw [gather_byte (by omega), gather_byte (by omega), gather_byte (by omega), gather,
      Option.some.injEq]
    omega

theorem glyphsOnto_drop : ∀ (t : Text) (acc : List Glyph) (skip : Nat),
    glyphsOnto acc skip t = glyphsOnto acc 0 (t.drop skip)
  | [], acc, skip => by simp [glyphsOnto]
  | _ :: rest, acc, skip + 1 => by
    rw [glyphsOnto, List.drop_succ_cons]
    exact glyphsOnto_drop rest acc skip
  | _ :: _, _, 0 => rfl

theorem glyphs_first (b : UInt8) (rest : Text) :
    glyphs (b :: rest) = (first b rest).1 :: glyphs (rest.drop (first b rest).2) := by
  unfold glyphs
  rw [glyphsOnto, glyphsOnto_drop, glyphsOnto_acc, List.reverse_append]
  rfl

/-- What is left of a text after some of its glyphs is read as it was. -/
theorem glyphs_suffix (t : Text) {gs : List Glyph} (h : gs <:+ glyphs t) :
    glyphs (bytes gs) = gs := by
  induction hn : t.length using Nat.strongRecOn generalizing t with
  | ind n ih =>
    subst hn
    rcases t with _ | ⟨b, rest⟩
    · obtain rfl := List.suffix_nil.1 h
      rfl
    · rw [glyphs_first] at h
      rcases List.suffix_cons_iff.1 h with rfl | h
      · rw [← glyphs_first, bytes_glyphs]
      · refine ih _ ?_ _ h rfl
        rw [List.length_drop, List.length_cons]
        omega

/-- The bytes of a character are read as this character, whatever follows. -/
theorem glyphs_char (c : Char) (t : Text) : glyphs (charBytes c ++ t) = .char c :: glyphs t := by
  obtain ⟨b, tail, hbytes, hfirst⟩ := first_char c t
  rw [hbytes, List.cons_append]
  unfold glyphs
  rw [glyphsOnto, hfirst, glyphsOnto_drop, List.drop_left, glyphsOnto_acc]
  simp

/-- Characters that were written are read back, whatever follows. -/
theorem glyphs_bytes : ∀ (gs : List Glyph), (∀ g ∈ gs, ∃ c, g = .char c) → ∀ t : Text,
    glyphs (bytes gs ++ t) = gs ++ glyphs t
  | [], _, _ => rfl
  | g :: gs, h, t => by
    obtain ⟨c, rfl⟩ := h g List.mem_cons_self
    have ih := glyphs_bytes gs (fun g' hg' => h g' (List.mem_cons_of_mem _ hg')) t
    rw [bytes_cons, Glyph.bytes, List.append_assoc, glyphs_char, ih, List.cons_append]

end Characters

section Bytes

theorem charBytes_head (c : Char) : ∃ b tail, charBytes c = b :: tail ∧ ¬ IsContinuation b := by
  obtain ⟨b, tail, hbytes, hfirst⟩ := first_char c []
  refine ⟨b, tail, hbytes, fun hb => ?_⟩
  unfold IsContinuation at hb
  unfold first at hfirst
  rw [if_neg (by omega), if_pos (by omega)] at hfirst
  cases hfirst

theorem bytes_ne_nil {gs : List Glyph} (h : gs ≠ []) : bytes gs ≠ [] := by
  rcases gs with _ | ⟨g, gs⟩
  · exact absurd rfl h
  · cases g with
    | char c =>
      obtain ⟨b, tail, hb, -⟩ := charBytes_head c
      simp [bytes, Glyph.bytes, hb]
    | stray b => simp [bytes, Glyph.bytes]

/-- A byte below `0x80` is a character of its own. -/
theorem charBytes_ascii {c : Char} {b : UInt8} (hb : b.toNat < 0x80) (h : b ∈ charBytes c) :
    c = Char.ofNat b.toNat := by
  have hc : c.toNat < 0x110000 := by
    have := isScalar_toNat c
    simp only [isScalar, Bool.or_eq_true, Bool.and_eq_true, decide_eq_true_eq] at this
    omega
  unfold charBytes codeBytes at h
  split_ifs at h <;> simp only [List.mem_cons, List.not_mem_nil, or_false] at h
  · rw [h, toNat_toUInt8 (by omega), Char.ofNat_toNat]
  · rcases h with rfl | rfl <;> rw [toNat_toUInt8 (by omega)] at hb <;> omega
  · rcases h with rfl | rfl | rfl <;> rw [toNat_toUInt8 (by omega)] at hb <;> omega
  · rcases h with rfl | rfl | rfl | rfl <;> rw [toNat_toUInt8 (by omega)] at hb <;> omega

theorem sequence_stray {b b' : UInt8} {rest : Text} {width high least : Nat}
    (h : (sequence b rest width high least).1 = .stray b') : b' = b := by
  unfold sequence at h
  simp only [] at h
  split at h
  · split_ifs at h
    exact (Glyph.stray.inj h).symm
  · exact (Glyph.stray.inj h).symm

theorem first_stray {b b' : UInt8} {rest : Text} (h : (first b rest).1 = .stray b') :
    0x80 ≤ b'.toNat := by
  unfold first at h
  simp only [] at h
  split_ifs at h
  · rw [← Glyph.stray.inj h]
    omega
  · rw [sequence_stray h]
    omega
  · rw [sequence_stray h]
    omega
  · rw [sequence_stray h]
    omega

theorem glyphsOnto_forall {P : Glyph → Prop} (hP : ∀ b rest, P (first b rest).1) :
    ∀ (t : Text) (acc : List Glyph) (skip : Nat), (∀ g ∈ acc, P g) →
      ∀ g ∈ glyphsOnto acc skip t, P g
  | [], acc, _, hacc => hacc
  | _ :: rest, acc, skip + 1, hacc => glyphsOnto_forall hP rest acc skip hacc
  | b :: rest, acc, 0, hacc => by
    refine glyphsOnto_forall hP rest _ _ fun g hg => ?_
    rcases List.mem_cons.1 hg with rfl | hg
    · exact hP b rest
    · exact hacc g hg

/-- In a text that was read, only the character itself has a given byte below `0x80`. -/
theorem eq_char_of_mem_bytes {t : Text} {g : Glyph} (hg : g ∈ glyphs t) {b : UInt8}
    (hb : b.toNat < 0x80) (h : b ∈ g.bytes) : g = .char (Char.ofNat b.toNat) := by
  have hstray : ∀ b', g = .stray b' → 0x80 ≤ b'.toNat := by
    refine glyphsOnto_forall (P := fun g => ∀ b', g = .stray b' → 0x80 ≤ b'.toNat)
      (fun b rest b' h => first_stray h) t [] 0 (by simp) g ?_
    simpa [glyphs] using hg
  cases g with
  | char c => rw [charBytes_ascii hb h]
  | stray b' =>
    have := hstray b' rfl
    rw [List.mem_singleton.1 h] at hb
    omega

/-- A byte below `0x80` is read apart from what stands on either side of it. -/
theorem glyphs_ascii {b : UInt8} (hb : b.toNat < 0x80) (t u : Text) :
    glyphs (t ++ b :: u) = glyphs t ++ .char (Char.ofNat b.toNat) :: glyphs u := by
  have hcont : ¬ IsContinuation b := fun h => by
    have := h.1
    omega
  rw [glyphs_append hcont, glyphs_cons hb]

theorem char_not_mem {c : Char} {b : UInt8} (hb : b ∈ charBytes c) {t : Text} (h : b ∉ t) :
    .char c ∉ glyphs t := by
  rw [← bytes_glyphs t] at h
  exact fun hmem => h (List.mem_flatMap.2 ⟨.char c, hmem, hb⟩)

end Bytes

end Text

end LineForth
