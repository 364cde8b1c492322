import Mathlib.Algebra.Ring.Nat
import LineForth.Proofs.Sinks

/-!
# One encoding for every writer

A text is sent piece by piece, each by the operation that the writer has for it, and what arrives is
the output form of the text all the same.  A writer may stop taking bytes anywhere.  If every
operation stores a first part of what it is given and counts it (`Stores`), so does sending the
whole text: pieces that follow each other are stored as one (`Stores.append`), and after a problem,
or in a writer that is full, nothing is added.  So there is no gap in what is stored.

The output form is made of characters, none of them an upper control (`glyphs_form`), so it is its
own output form.

Characters can also be sent one at a time, by their codes.  This comes to the same as long as no
code is negative; a negative one goes out as a single byte.
-/

namespace LineForth

section Storing

variable {σ : Type} {data : σ → Text} {full : σ → Prop}

/-- What becomes of giving `p` to `s`: a first part is stored and counted.  If the rest is left
without a problem, then no more is taken from there on. -/
structure Stores (data : σ → Text) (full : σ → Prop) (s : σ) (p : Text) (r : σ × Written) :
    Prop where
  data : data r.1 = data s ++ p.take r.2.count
  count_le : r.2.count ≤ p.length
  short : r.2.problem = none → r.2.count = p.length ∨ full r.1
  full : full s → r.2.count = 0 ∧ full r.1

theorem Stores.nil (s : σ) : Stores data full s [] (s, ⟨0, none⟩) :=
  ⟨by simp, Nat.le_refl _, fun _ => .inl rfl, fun h => ⟨rfl, h⟩⟩

theorem Stores.append {s s₁ s₂ : σ} {p q : Text} {k : Nat} {w : Written}
    (h : Stores data full s p (s₁, ⟨k, none⟩)) (h' : Stores data full s₁ q (s₂, w)) :
    Stores data full s (p ++ q) (s₂, ⟨k + w.count, w.problem⟩) := by
  have hle := h.count_le
  have hle' := h'.count_le
  have hdata := h.data
  have hdata' := h'.data
  simp only at hle hle' hdata hdata'
  refine ⟨?_, by simp only [List.length_append]; omega, fun hn => ?_, fun hs => ?_⟩
  · rcases h.short rfl with hall | hfull
    · simp only at hall
      rw [hdata', hdata, hall, List.take_length, List.append_assoc, List.take_length_add_append]
    · have hnone : w.count = 0 := (h'.full hfull).1
      rw [hdata', hdata, hnone, List.take_zero, List.append_nil, Nat.add_zero,
        List.take_append_of_le_length hle]
  · rcases h.short rfl with hall | hfull
    · refine (h'.short hn).imp_left fun hall' => ?_
      simp only at hall hall'
      simp only [List.length_append, hall, hall']
    · exact .inr (h'.full hfull).2
  · obtain ⟨hk, hfull⟩ := h.full hs
    obtain ⟨hk', hfull'⟩ := h'.full hfull
    simp only at hk hk'
    exact ⟨by simp only [hk, hk'], hfull'⟩

theorem Stores.stop {s s₁ : σ} {p : Text} {k : Nat} {e : Problem}
    (h : Stores data full s p (s₁, ⟨k, some e⟩)) (q : Text) :
    Stores data full s (p ++ q) (s₁, ⟨k, some e⟩) := by
  have hle := h.count_le
  refine ⟨?_, ?_, fun hn => ?_, h.full⟩
  · rw [h.data, List.take_append_of_le_length hle]
  · rw [List.length_append]
    exact Nat.le_add_right_of_le hle
  · cases hn

namespace Ansi

theorem sendAll_start {send : σ → Piece → σ × Written} : ∀ (ps : List Piece) (n : Nat) (s : σ),
    sendAll send n s ps
      = ((sendAll send 0 s ps).1,
        ⟨n + (sendAll send 0 s ps).2.count, (sendAll send 0 s ps).2.problem⟩)
  | [], n, s => rfl
  | p :: ps, n, s => by
    simp only [sendAll]
    rcases send s p with ⟨s₁, ⟨k, _ | e⟩⟩
    · simp only []
      rw [sendAll_start ps (n + k), sendAll_start ps (0 + k)]
      simp [Nat.add_assoc]
    · simp

variable (ok : σ → Prop) {send : σ → Piece → σ × Written}

/-- Where each piece is stored up to some point, so are all of them together. -/
theorem sendAll_stores
    (hsend : ∀ s p, ok s → ok (send s p).1 ∧ Stores data full s p.bytes (send s p)) :
    ∀ (ps : List Piece) {s : σ}, ok s →
      Stores data full s (ps.flatMap Piece.bytes) (sendAll send 0 s ps)
  | [], s, _ => .nil s
  | p :: ps, s, hs => by
    obtain ⟨hok, hstores⟩ := hsend s p hs
    rw [sendAll, List.flatMap_cons]
    rcases hr : send s p with ⟨s₁, ⟨k, _ | e⟩⟩ <;> rw [hr] at hok hstores
    · simp only [Nat.zero_add]
      rw [sendAll_start]
      exact hstores.append (sendAll_stores hsend ps hok)
    · simp only [Nat.zero_add]
      exact hstores.stop _

theorem sendAll_whole
    (hsend : ∀ s p, ok s → ok (send s p).1 ∧ (send s p).2 = ⟨p.bytes.length, none⟩) :
    ∀ (ps : List Piece) (n : Nat) {s : σ}, ok s →
      (sendAll send n s ps).2 = ⟨n + (ps.flatMap Piece.bytes).length, none⟩
  | [], n, s, _ => rfl
  | p :: ps, n, s, hs => by
    obtain ⟨hok, hw⟩ := hsend s p hs
    rw [sendAll, List.flatMap_cons, List.length_append]
    rcases hr : send s p with ⟨s₁, w⟩
    rw [hr] at hok hw
    obtain rfl := hw
    simp only []
    rw [sendAll_whole hsend ps _ hok, Nat.add_assoc]

end Ansi

end Storing

namespace Sink

/-- Reports a problem whenever it takes fewer bytes than it is given, but may be silent once it has
no room left. -/
def Limited (s : Sink) : Prop := s.bounded → ∀ t ∈ s.turns, t.most.isSome → t.problem.isSome

/-- Takes every write in full. -/
def Unfailing (s : Sink) : Prop :=
  s.bounded → s.room = none ∧ ∀ t ∈ s.turns, t.most = none ∧ t.problem = none

/-- Has room for `n` bytes more, whatever comes. -/
def RoomFor (n : Nat) (s : Sink) : Prop := s.bounded ∧ s.turns = [] ∧ s.room = some n

instance (s : Sink) : Decidable s.Limited :=
  inferInstanceAs (Decidable (s.bounded → ∀ t ∈ s.turns, t.most.isSome → t.problem.isSome))

instance (s : Sink) : Decidable s.Unfailing :=
  inferInstanceAs (Decidable (s.bounded → s.room = none
    ∧ ∀ t ∈ s.turns, t.most = none ∧ t.problem = none))

/-- The ways in which a write can go: as the next turn lays down, without any bound, within the room
that is left, or beyond it. -/
inductive Writing (s : Sink) (p : Text) : Sink × Written → Prop
  | turn {t : Turn} {turns : List Turn} : s.bounded → s.turns = t :: turns →
      Writing s p ({ s with stored := (s.keep (p.take (t.most.getD p.length))).stored, turns },
        ⟨(p.take (t.most.getD p.length)).length, t.problem⟩)
  | unbounded : (s.bounded → s.turns = [] ∧ s.room = none) →
      Writing s p ({ s with stored := (s.keep p).stored }, ⟨p.length, none⟩)
  | fits {n : Nat} : s.bounded → s.turns = [] → s.room = some n → p.length ≤ n →
      Writing s p ({ s with stored := (s.keep p).stored, room := some (n - p.length) },
        ⟨p.length, none⟩)
  | cut {n : Nat} : s.bounded → s.turns = [] → s.room = some n → n < p.length →
      Writing s p ({ s with stored := (s.keep (p.take n)).stored, room := some 0 },
        ⟨n, s.refusal⟩)

variable {s : Sink}

theorem write_writing (s : Sink) (p : Text) : Writing s p (s.write p) := by
  unfold write fit
  by_cases hbound : s.bounded
  · simp only [hbound, if_true]
    rcases hturns : s.turns with _ | ⟨t, turns⟩
    · rcases hroom : s.room with _ | n
      · simp only []
        rw [keep_eq]
        exact .unbounded fun _ => ⟨hturns, hroom⟩
      · simp only []
        split_ifs with hfits
        · rw [keep_eq]
          exact .fits hbound hturns hroom hfits
        · rw [keep_eq]
          exact .cut hbound hturns hroom (by omega)
    · simp only []
      rw [keep_eq]
      exact .turn hbound hturns
  · simp only [hbound]
    rw [keep_eq]
    exact .unbounded fun h => absurd h hbound

theorem write_room {n : Nat} (h : s.RoomFor n) (p : Text) :
    (s.write p).1.RoomFor (n - p.length) ∧ (s.write p).2.count = min n p.length
      ∧ (p.length ≤ n → (s.write p).2.problem = none) := by
  obtain ⟨hbound, hturns, hroom⟩ := h
  have hw := s.write_writing p
  generalize s.write p = r at hw ⊢
  cases hw with
  | turn _ ht =>
    rw [hturns] at ht
    cases ht
  | unbounded hnone =>
    rw [(hnone hbound).2] at hroom
    cases hroom
  | fits _ _ hsome hfits =>
    obtain rfl := Option.some.inj (hsome.symm.trans hroom)
    exact ⟨⟨hbound, hturns, rfl⟩, (Nat.min_eq_right hfits).symm, fun _ => rfl⟩
  | cut _ _ hsome hcut =>
    obtain rfl := Option.some.inj (hsome.symm.trans hroom)
    refine ⟨⟨hbound, hturns, ?_⟩, (Nat.min_eq_left hcut.le).symm, fun hle => by omega⟩
    rw [Nat.sub_eq_zero_of_le hcut.le]

theorem write_limited (h : s.Limited) (p : Text) :
    (s.write p).1.Limited
      ∧ ((s.write p).2.problem = none →
        (s.write p).2.count = p.length ∨ (s.write p).1.RoomFor 0) := by
  have hw := s.write_writing p
  generalize s.write p = r at hw ⊢
  cases hw with
  | @turn t turns hbound hturns =>
    refine ⟨fun hb u hu => h hb u (by simp [hturns, hu]), fun hn => .inl ?_⟩
    rcases hmost : t.most with _ | n
    · simp
    · have := h hbound t (by simp [hturns]) (by simp [hmost])
      rw [show t.problem = none from hn] at this
      cases this
  | unbounded => exact ⟨h, fun _ => .inl rfl⟩
  | fits => exact ⟨h, fun _ => .inl rfl⟩
  | cut hbound hturns => exact ⟨h, fun _ => .inr ⟨hbound, hturns, rfl⟩⟩

theorem write_unfailing (h : s.Unfailing) (p : Text) :
    (s.write p).1.Unfailing ∧ (s.write p).2 = ⟨p.length, none⟩ := by
  have hw := s.write_writing p
  generalize s.write p = r at hw ⊢
  cases hw with
  | @turn t turns hbound hturns =>
    obtain ⟨hroom, hall⟩ := h hbound
    obtain ⟨hmost, hproblem⟩ := hall t (by simp [hturns])
    exact ⟨fun _ => ⟨hroom, fun u hu => hall u (by simp [hturns, hu])⟩, by simp [hmost, hproblem]⟩
  | unbounded => exact ⟨h, rfl⟩
  | fits hbound _ hsome =>
    rw [(h hbound).1] at hsome
    cases hsome
  | cut hbound _ hsome =>
    rw [(h hbound).1] at hsome
    cases hsome

/-- A write is stored up to some point; a sink that is silent about the rest is out of room. -/
theorem write_stores (hk : s.kind ≠ .discard) (h : s.Limited) (p : Text) :
    Stores data (RoomFor 0) s p (s.write p) := by
  have ht := s.write_took p
  refine ⟨ht.data hk, ht.count_le, (write_limited h p).2, fun hfull => ?_⟩
  obtain ⟨hroom, hcount, -⟩ := write_room hfull p
  rw [Nat.zero_sub] at hroom
  exact ⟨by rw [hcount, Nat.zero_min], hroom⟩

end Sink

namespace Ansi

section Sinks

variable {s : Sink}

/-- Whichever operation a sink has for a piece, it does what writing the bytes does. -/
theorem sinkWriter_deliver (a : Abilities) (s : Sink) (p : Piece) :
    (sinkWriter a).deliver s p = s.write p.bytes := by
  obtain ⟨_ | _, _, _ | _⟩ := a <;> cases p <;> rfl

theorem sendText_eq (a : Abilities) (s : Sink) (t : Text) :
    (sinkWriter a).sendText s t = sendAll (fun s p => s.write p.bytes) 0 s (pieces t) := by
  unfold Writer.sendText
  rw [show (sinkWriter a).deliver = fun s p => s.write p.bytes from
    funext fun s => funext fun p => sinkWriter_deliver a s p]

theorem sendText_stores (a : Abilities) (hk : s.kind ≠ .discard) (h : s.Limited) (t : Text) :
    Stores Sink.data (Sink.RoomFor 0) s (form t) ((sinkWriter a).sendText s t) := by
  rw [sendText_eq, ← pieces_bytes]
  refine sendAll_stores (fun s => s.kind ≠ .discard ∧ s.Limited) (fun s p hs => ?_) _ ⟨hk, h⟩
  exact ⟨⟨(s.write_took p.bytes).kind.trans_ne hs.1, (Sink.write_limited hs.2 _).1⟩,
    Sink.write_stores hs.1 hs.2 _⟩

theorem sendText_whole (a : Abilities) (h : s.Unfailing) (t : Text) :
    ((sinkWriter a).sendText s t).2 = ⟨(form t).length, none⟩ := by
  rw [sendText_eq, ← pieces_bytes]
  rw [sendAll_whole Sink.Unfailing (fun s p hs => Sink.write_unfailing hs p.bytes) _ 0 h,
    Nat.zero_add]

/-- A sink with little room takes as much as there is room for, whether it reports that or not. -/
theorem sendAll_room : ∀ (ps : List Piece) (k : Nat) {n : Nat} {s : Sink}, s.RoomFor n →
    (sendAll (fun s p => s.write p.bytes) k s ps).2.count
      = k + min n (ps.flatMap Piece.bytes).length
  | [], k, n, s, _ => by simp [sendAll]
  | p :: ps, k, n, s, h => by
    obtain ⟨hroom, hcount, hfits⟩ := Sink.write_room h p.bytes
    rw [sendAll, List.flatMap_cons, List.length_append]
    rcases hr : s.write p.bytes with ⟨s₁, ⟨j, _ | e⟩⟩ <;> rw [hr] at hroom hcount hfits
    · simp only at hcount hroom ⊢
      rw [sendAll_room ps _ hroom]
      omega
    · have hcut : ¬ p.bytes.length ≤ n := fun hle => by cases hfits hle
      simp only at hcount ⊢
      omega

theorem sendText_room (a : Abilities) {n : Nat} (h : s.RoomFor n) (t : Text) :
    ((sinkWriter a).sendText s t).2.count = min n (form t).length := by
  rw [sendText_eq, sendAll_room _ _ h, pieces_bytes, Nat.zero_add]

end Sinks

section Outlets

/-- Through a channel with one outlet a text goes to this outlet. -/
theorem sendAll_one : ∀ (ps : List Piece) (n : Nat) (o : Outlet),
    sendAll (Channel.deliver ⟨[.outlet 0]⟩) n [o] ps
      = ([(sendAll Outlet.deliver n o ps).1], (sendAll Outlet.deliver n o ps).2)
  | [], n, o => rfl
  | p :: ps, n, o => by
    have hone : Channel.deliver ⟨[.outlet 0]⟩ [o] p = ([(o.deliver p).1], (o.deliver p).2) := rfl
    simp only [sendAll, hone]
    rcases o.deliver p with ⟨o₁, ⟨k, _ | e⟩⟩
    · exact sendAll_one ps (n + k) o₁
    · rfl

theorem sendOutlet_stores {o : Outlet} (h : o.Ready) (t : Text) :
    Stores Outlet.carried (fun _ => False) o (form t)
      (sendAll Outlet.deliver 0 o (pieces t)) := by
  rw [← pieces_bytes]
  refine sendAll_stores Outlet.Ready (fun o p ho => ?_) _ h
  have ht := o.deliver_took ho p
  exact ⟨ht.grew.ready, ht.grew.carried, ht.count_le, fun hn => .inl (ht.whole hn), False.elim⟩

end Outlets

section Form

/-- The characters that stand for a glyph in the output form. -/
def formChars : Glyph → List Char
  | .stray _ => [replacement]
  | .char c =>
    if c.toNat = 0x85 then ['\r', '\n']
    else if 0x80 ≤ c.toNat ∧ c.toNat ≤ 0x9F then [Char.ofNat 0x1B, Char.ofNat (c.toNat - 0x40)]
    else [c]

/-- One of the controls above the plain characters. -/
def IsUpperControl (c : Char) : Prop := 0x80 ≤ c.toNat ∧ c.toNat ≤ 0x9F

instance (c : Char) : Decidable (IsUpperControl c) :=
  inferInstanceAs (Decidable (0x80 ≤ c.toNat ∧ c.toNat ≤ 0x9F))

theorem xor_control {n : Nat} (h : 0x80 ≤ n) (h' : n ≤ 0x9F) : n ^^^ 0xC0 = n - 0x40 := by
  have hall : ∀ k < 32, (0x80 + k) ^^^ 0xC0 = 0x80 + k - 0x40 := by decide
  have := hall (n - 0x80) (by omega)
  rwa [Nat.add_sub_cancel' h] at this

theorem charBytes_plain {n : Nat} (h : n < 0x80) : charBytes (Char.ofNat n) = [n.toUInt8] := by
  rw [charBytes, Text.toNat_ofNat (Text.isScalar_of_lt (by omega)), codeBytes, if_pos h]

theorem glyphForm_eq (g : Glyph) : glyphForm g = (formChars g).flatMap charBytes := by
  cases g with
  | stray b => simp [glyphForm, formChars]
  | char c =>
    simp only [glyphForm, formChars]
    split_ifs with hnext hcontrol
    · decide
    · rw [xor_control hcontrol.1 hcontrol.2, List.flatMap_cons, List.flatMap_singleton,
        charBytes_plain (by omega), charBytes_plain (by omega)]
      rfl
    · simp

theorem formChars_upper {g : Glyph} {c : Char} (h : c ∈ formChars g) : ¬ IsUpperControl c := by
  have hplain : ∀ n < 0x80, ¬ IsUpperControl (Char.ofNat n) := by
    intro n hn hc
    rw [IsUpperControl, Text.toNat_ofNat (Text.isScalar_of_lt (by omega))] at hc
    omega
  cases g with
  | stray b =>
    rw [List.mem_singleton.1 h]
    decide
  | char c' =>
    simp only [formChars] at h
    split_ifs at h with hnext hcontrol
    · rcases List.mem_pair.1 h with rfl | rfl <;> decide
    · rcases List.mem_pair.1 h with rfl | rfl <;> exact hplain _ (by omega)
    · rw [List.mem_singleton.1 h]
      exact hcontrol

/-- The output form is read as the characters it was made of. -/
theorem glyphs_form (t : Text) :
    Text.glyphs (form t) = ((Text.glyphs t).flatMap formChars).map .char := by
  have hbytes : form t = Text.bytes (((Text.glyphs t).flatMap formChars).map .char) := by
    unfold form Text.bytes
    rw [List.flatMap_map, List.flatMap_assoc]
    exact List.flatMap_congr fun g _ => glyphForm_eq g
  have hread :=
    Text.glyphs_bytes (((Text.glyphs t).flatMap formChars).map .char) (fun g hg => ?_) []
  · rw [List.append_nil] at hread
    rw [hbytes, hread]
    exact List.append_nil _
  · obtain ⟨c, -, rfl⟩ := List.mem_map.1 hg
    exact ⟨c, rfl⟩

theorem form_wellFormed (t : Text) : (form t).isWellFormed := by
  simp [Text.isWellFormed, glyphs_form]

theorem form_upper {t : Text} {c : Char} (h : .char c ∈ Text.glyphs (form t)) :
    ¬ IsUpperControl c := by
  rw [glyphs_form, List.mem_map] at h
  obtain ⟨c', hc', heq⟩ := h
  obtain rfl := Glyph.char.inj heq
  obtain ⟨g, -, hg⟩ := List.mem_flatMap.1 hc'
  exact formChars_upper hg

/-- The output form of an output form is itself. -/
theorem form_form (t : Text) : form (form t) = form t := by
  have hself : ∀ g ∈ Text.glyphs (form t), glyphForm g = g.bytes := by
    intro g hg
    cases g with
    | stray b => simp [glyphs_form] at hg
    | char c =>
      have hupper := form_upper hg
      unfold IsUpperControl at hupper
      simp only [glyphForm]
      rw [if_neg (by omega), if_neg hupper]
      rfl
  calc form (form t) = (Text.glyphs (form t)).flatMap Glyph.bytes := List.flatMap_congr hself
    _ = form t := Text.bytes_glyphs _

end Form

/-- A text is written in its output form, whatever operations the sink has: as far as the sink takes
it, which is up to its room, and no further.  A buffer in front of the sink changes nothing about
that.  The form is well-formed text without upper controls, and writing it again would not change
it. -/
theorem text_written (a : Abilities) {s : Sink} (hs : s.Limited) {o : Outlet} (ho : o.Ready)
    (t : Text) :
    let direct := (sinkWriter a).sendText s t
    let buffered := write ⟨[.outlet 0]⟩ [o] t
    (s.kind ≠ .discard → direct.1.data = s.data ++ (form t).take direct.2.count)
      ∧ direct.2.count ≤ (form t).length
      ∧ (∀ n, s.RoomFor n → direct.2.count = min n (form t).length)
      ∧ (s.Unfailing → direct.2 = ⟨(form t).length, none⟩)
      ∧ (∃ o', buffered.1 = [o'] ∧ o'.carried = o.carried ++ (form t).take buffered.2.count
        ∧ buffered.2.count ≤ (form t).length
        ∧ (buffered.2.problem = none → buffered.2.count = (form t).length))
      ∧ (form t).isWellFormed ∧ (∀ c, .char c ∈ Text.glyphs (form t) → ¬ IsUpperControl c)
      ∧ form (form t) = form t := by
  intro direct buffered
  have hone : buffered = _ := sendAll_one (pieces t) 0 o
  have hstores := sendOutlet_stores ho t
  refine ⟨fun hk => (sendText_stores a hk hs t).data, ?_, fun n hn => sendText_room a hn t,
    fun hu => sendText_whole a hu t, ⟨_, congrArg Prod.fst hone, ?_⟩, form_wellFormed t,
    fun c hc => form_upper hc, form_form t⟩
  · by_cases hk : s.kind = .discard
    · have hfree : s.Unfailing := fun hbound => by simp [Sink.bounded, hk] at hbound
      rw [show direct.2 = _ from sendText_whole a hfree t]
    · exact (sendText_stores a hk hs t).count_le
  · rw [hone]
    exact ⟨hstores.data, hstores.count_le, fun hn => (hstores.short hn).resolve_right id⟩

/-- A sink that is silently full in the middle of a replacement character. -/
theorem text_written_cut :
    let s : Sink := { kind := .string, room := some 4 }
    let o : Outlet := { sink := { kind := .plain } }
    let t : Text := [0x61, 0xC2, 0x85, 0xFF, 0x62]
    s.Limited ∧ o.Ready ∧ form t = [0x61, 0x0D, 0x0A, 0xEF, 0xBF, 0xBD, 0x62]
      ∧ (writeSink s t).2.count = 4 ∧ (writeSink s t).1.data = [0x61, 0x0D, 0x0A, 0xEF]
      ∧ form (form t) = form t := by
  intro s o t
  have hs : s.Limited := by decide
  have ho : o.Ready := ⟨by decide, fun _ => ⟨by simp [o], by simp [o]⟩, fun _ => rfl⟩
  have hform : form t = [0x61, 0x0D, 0x0A, 0xEF, 0xBF, 0xBD, 0x62] := by decide
  obtain ⟨hdata, -, hroom, -, -, -, -, hagain⟩ := text_written (abilities .string) hs ho t
  have hcount := hroom 4 ⟨rfl, rfl, rfl⟩
  have hdata := hdata (by decide)
  rw [hcount, hform] at hdata
  rw [hform] at hcount
  exact ⟨hs, ho, hform, hcount, hdata, hagain⟩

section Codes

/-- What is written for the character of a code. -/
def codeForm (n : Int) : Text :=
  if n < 0x80 then [(n % 256).toNat.toUInt8]
  else if n ≤ 0x9F then control n.toNat
  else codeText n

/-- The character of a code, and the replacement character where there is none. -/
def codeChar (n : Int) : Char :=
  if 0 ≤ n ∧ isScalar n.toNat then Char.ofNat n.toNat else replacement

/-- Writes characters by their codes, one after the other. -/
def sendCodes (a : Abilities) (s : Sink) : List Int → Sink × List Written
  | [] => (s, [])
  | n :: ns =>
    let r := (sinkWriter a).sendCode s n
    ((sendCodes a r.1 ns).1, r.2 :: (sendCodes a r.1 ns).2)

theorem sendCode_eq (a : Abilities) {s : Sink} (h : s.Unfailing) (n : Int) :
    (sinkWriter a).sendCode s n = s.write (codeForm n) := by
  have hbyte : ∀ b, (s.write [b]).2.count = 1 := fun b => by
    rw [(Sink.write_unfailing h [b]).2]
    rfl
  obtain ⟨texts, _ | _, characters⟩ := a
  · unfold Writer.sendCode codeForm
    simp only [sinkWriter_deliver]
    split_ifs <;> rfl
  · unfold Writer.sendCode codeForm
    simp only [sinkWriter_deliver]
    split_ifs
    · simp only [sinkWriter, if_true]
      rw [← hbyte]
    · rfl
    · rfl

theorem sendCodes_unfailing (a : Abilities) : ∀ (ns : List Int) {s : Sink}, s.Unfailing →
    (sendCodes a s ns).2 = ns.map (fun n => ⟨(codeForm n).length, none⟩)
      ∧ (s.kind ≠ .discard → (sendCodes a s ns).1.data = s.data ++ ns.flatMap codeForm)
  | [], s, _ => ⟨rfl, fun _ => (List.append_nil _).symm⟩
  | n :: ns, s, hs => by
    obtain ⟨hnext, hone⟩ := Sink.write_unfailing hs (codeForm n)
    have ht := s.write_took (codeForm n)
    obtain ⟨hcounts, hdata⟩ := sendCodes_unfailing a ns hnext
    rw [sendCodes, sendCode_eq a hs, List.map_cons, List.flatMap_cons]
    refine ⟨by simp only [hcounts, hone], fun hk => ?_⟩
    simp only []
    rw [hdata (ht.kind.trans_ne hk), ht.data hk, hone, List.take_length, List.append_assoc]

theorem codeText_eq (n : Int) : codeText n = charBytes (codeChar n) := by
  unfold codeText codeChar
  split_ifs with h
  · rw [charBytes, Text.toNat_ofNat h.2]
  · rfl

/-- The output form of a text that is made of codes. -/
theorem form_codes : ∀ ns : List Int,
    form (ns.flatMap codeText) = ns.flatMap fun n => glyphForm (.char (codeChar n))
  | [] => rfl
  | n :: ns => by
    rw [List.flatMap_cons, List.flatMap_cons, ← form_codes ns, codeText_eq]
    unfold form
    rw [Text.glyphs_char, List.flatMap_cons]

theorem glyphForm_code {n : Int} (h : 0 ≤ n) : glyphForm (.char (codeChar n)) = codeForm n := by
  by_cases hlow : n ≤ 0x9F
  · have hs : isScalar n.toNat := Text.isScalar_of_lt (by omega)
    have hcode : (codeChar n).toNat = n.toNat := by
      rw [codeChar, if_pos ⟨h, hs⟩, Text.toNat_ofNat hs]
    unfold codeForm
    split_ifs with hplain
    · simp only [glyphForm, hcode]
      rw [if_neg (by omega), if_neg (by omega), codeChar, if_pos ⟨h, hs⟩,
        charBytes_plain (by omega), Int.emod_eq_of_lt h (by omega)]
    · simp only [glyphForm, hcode, control]
      split_ifs <;> first | rfl | omega
  · have hcode : ¬ IsUpperControl (codeChar n) := by
      unfold codeChar
      split_ifs with hs
      · rw [IsUpperControl, Text.toNat_ofNat hs.2]
        omega
      · decide
    unfold IsUpperControl at hcode
    simp only [glyphForm]
    rw [if_neg (by omega), if_neg hcode, codeForm, if_neg (by omega), if_neg hlow, codeText_eq]

theorem codeForm_negative {n : Int} (h : n < 0) :
    (codeForm n).length < (glyphForm (.char (codeChar n))).length := by
  have hchar : codeChar n = replacement := if_neg fun hs => by omega
  have hlong : (glyphForm (.char replacement)).length = 3 := by decide
  rw [codeForm, if_pos (by omega), hchar, hlong, List.length_singleton]
  decide

theorem flatMap_codeForm {ns : List Int} (h : ∀ n ∈ ns, 0 ≤ n) :
    ns.flatMap codeForm = form (ns.flatMap codeText) := by
  rw [form_codes]
  exact List.flatMap_congr fun n hn => (glyphForm_code (h n hn)).symm

/-- A negative code takes less than the replacement character that stands for it in a text. -/
theorem codeForm_length : ∀ ns : List Int,
    (ns.flatMap codeForm).length ≤ (form (ns.flatMap codeText)).length
      ∧ ((∃ n ∈ ns, n < 0) →
        (ns.flatMap codeForm).length < (form (ns.flatMap codeText)).length)
  | [] => by simp
  | n :: ns => by
    obtain ⟨hle, hlt⟩ := codeForm_length ns
    have hone : (codeForm n).length ≤ (glyphForm (.char (codeChar n))).length := by
      by_cases hn : n < 0
      · exact (codeForm_negative hn).le
      · rw [glyphForm_code (by omega)]
    rw [form_codes] at hle hlt ⊢
    simp only [List.flatMap_cons, List.length_append]
    refine ⟨by omega, ?_⟩
    rintro ⟨n', hn', hneg⟩
    rcases List.mem_cons.1 hn' with rfl | hmem
    · have := codeForm_negative hneg
      omega
    · have := hlt ⟨n', hmem, hneg⟩
      omega

/-- Writing characters by their codes stores the bytes that are counted.  They are those of writing
the text made of these characters exactly if no code is negative, and then they are well formed. -/
theorem codes_written (a : Abilities) {s : Sink} (hs : s.Unfailing) (codes : List Int32) :
    let ns := codes.map Int32.toInt
    let each := sendCodes a s ns
    let whole := (sinkWriter a).sendText s (ns.flatMap codeText)
    (∀ w ∈ each.2, w.problem = none)
      ∧ (s.kind ≠ .discard → ∃ stored, each.1.data = s.data ++ stored
        ∧ (each.2.map Written.count).sum = stored.length
        ∧ (each.1.data = whole.1.data ↔ ∀ n ∈ ns, 0 ≤ n)
        ∧ ((∀ n ∈ ns, 0 ≤ n) → stored.isWellFormed)) := by
  intro ns each whole
  obtain ⟨hcounts, hdata⟩ := sendCodes_unfailing a ns hs
  refine ⟨fun w hw => ?_, fun hk => ⟨ns.flatMap codeForm, hdata hk, ?_, ?_, fun hn => ?_⟩⟩
  · rw [show each.2 = _ from hcounts] at hw
    obtain ⟨n, -, rfl⟩ := List.mem_map.1 hw
    rfl
  · rw [show each.2 = _ from hcounts, List.length_flatMap, List.map_map]
    rfl
  · have hwhole : whole.1.data = s.data ++ form (ns.flatMap codeText) := by
      have hlimited : s.Limited := fun hb t ht hmost => by simp [((hs hb).2 t ht).1] at hmost
      have hstores := (sendText_stores a hk hlimited (ns.flatMap codeText)).data
      rw [sendText_whole a hs, List.take_length] at hstores
      exact hstores
    rw [show each.1.data = _ from hdata hk, hwhole, List.append_cancel_left_eq]
    constructor
    · intro heq n hn
      by_contra hneg
      have hless := (codeForm_length ns).2 ⟨n, hn, by omega⟩
      rw [heq] at hless
      omega
    · exact flatMap_codeForm
  · rw [flatMap_codeForm hn]
    exact form_wellFormed _

/-- A control, a surrogate and a code beyond the last one, in a sink that has every operation. -/
theorem codes_written_surrogate :
    let s : Sink := { kind := .buffer }
    let codes : List Int32 := [0x41, 0x9B, 0xD800, 0x110000]
    s.Unfailing ∧ (sendCodes (abilities .buffer) s (codes.map Int32.toInt)).1.data
      = (writeSink s ((codes.map Int32.toInt).flatMap codeText)).1.data := by
  intro s codes
  have hs : s.Unfailing := by decide
  obtain ⟨-, hstored⟩ := codes_written (abilities .buffer) hs codes
  obtain ⟨-, -, -, hagree, -⟩ := hstored (by decide)
  exact ⟨hs, hagree.2 (by decide)⟩

/-- A negative code is written as a byte that is no character. -/
theorem negative_code_stray :
    let s : Sink := { kind := .buffer }
    (writeCode s (-1 : Int32).toInt).1.data = [0xFF]
      ∧ (writeSink s (codeText (-1 : Int32).toInt)).1.data = [0xEF, 0xBF, 0xBD]
      ∧ Text.isWellFormed [0xFF] = false := by
  decide

end Codes

end Ansi

end LineForth
