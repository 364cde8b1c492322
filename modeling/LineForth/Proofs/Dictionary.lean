import Mathlib.Data.List.Nodup
import LineForth.Language.Perform

/-!
# The dictionary over time

In a well-formed dictionary no name has two symbols, every entry has the symbol of some name, and
the entries are numbered without gaps.  Then a name is found exactly where its newest entry is
(`lookup_eq_find`).

Adding an entry keeps all that, and keeps what was there: the older entries stand below the new one,
with the names they had (`Extends`).  Since an entry is found by its number, running an old entry
in a dictionary that has grown is running it in the old one (`run_of_extends`).
-/

namespace LineForth

/-- Entries, newest first, numbered from one at the bottom. -/
def Numbered : List Entry → Prop
  | [] => True
  | e :: older => e.address = older.length + 1 ∧ Numbered older

namespace Dictionary

/-- The name under which an entry was added, in lower case. -/
def nameOf (d : Dictionary) (e : Entry) : Text := d.spelling e.symbol

structure WellFormed (d : Dictionary) : Prop where
  nodup : d.names.Nodup
  symbols : ∀ e ∈ d.entries, 0 < e.symbol ∧ e.symbol ≤ d.names.length
  numbered : Numbered d.entries

/-- `d'` has all that `d` has, and perhaps newer entries. -/
structure Extends (d d' : Dictionary) : Prop where
  entries : d.entries <:+ d'.entries
  names : d.names <+: d'.names

section Names

theorem symbol_eq_zero {d : Dictionary} {name : Text} :
    d.symbol name = 0 ↔ Text.fold name ∉ d.names := by
  rw [← List.idxOf?_eq_none_iff]
  unfold symbol
  rcases d.names.idxOf? (Text.fold name) with _ | i <;> simp

/-- A name that is known has a symbol, and the symbol spells it. -/
theorem spelling_symbol {d : Dictionary} {name : Text} (h : Text.fold name ∈ d.names) :
    0 < d.symbol name ∧ d.symbol name ≤ d.names.length
      ∧ d.spelling (d.symbol name) = Text.fold name := by
  obtain ⟨i, hi⟩ := Option.isSome_iff_exists.1 (List.isSome_idxOf?.2 h)
  obtain ⟨hlt, hname, -⟩ := List.idxOf?_eq_some_iff.1 hi
  have hs : d.symbol name = i + 1 := by
    unfold symbol
    rw [hi]
  rw [hs]
  refine ⟨by omega, hlt, ?_⟩
  simp only [spelling, List.getElem?_eq_getElem hlt, Option.getD_some, hname]

theorem spelling_of_prefix {d d' : Dictionary} (h : d.names <+: d'.names) {s : Nat}
    (hs : s ≤ d.names.length) : d'.spelling s = d.spelling s := by
  obtain ⟨more, hmore⟩ := h
  cases s with
  | zero => rfl
  | succ i =>
    simp only [spelling, ← hmore]
    rw [List.getElem?_append_left hs]

theorem spelling_inj {d : Dictionary} (hd : d.names.Nodup) {s s' : Nat}
    (hs : 0 < s ∧ s ≤ d.names.length) (hs' : 0 < s' ∧ s' ≤ d.names.length)
    (h : d.spelling s = d.spelling s') : s = s' := by
  obtain ⟨i, rfl⟩ : ∃ i, s = i + 1 := ⟨s - 1, by omega⟩
  obtain ⟨j, rfl⟩ : ∃ j, s' = j + 1 := ⟨s' - 1, by omega⟩
  have hi : i < d.names.length := by omega
  have hj : j < d.names.length := by omega
  simp only [spelling, List.getElem?_eq_getElem hi, List.getElem?_eq_getElem hj,
    Option.getD_some] at h
  have := (List.Nodup.getElem_inj_iff hd).1 h
  omega

theorem nameOf_of_extends {d d' : Dictionary} (hd : d.WellFormed) (h : Extends d d') {e : Entry}
    (he : e ∈ d.entries) : d'.nameOf e = d.nameOf e :=
  spelling_of_prefix h.names (hd.symbols e he).2

theorem lookup_of_mem {d : Dictionary} {name : Text} (hm : Text.fold name ∈ d.names) :
    d.lookup name = d.entries.find? fun e => e.symbol = d.symbol name := by
  have hpos := (spelling_symbol hm).1
  unfold lookup
  split
  · omega
  · rfl

theorem fold_mem_of_lookup {d : Dictionary} {name : Text} {e : Entry}
    (h : d.lookup name = some e) : Text.fold name ∈ d.names := by
  by_contra hm
  unfold lookup at h
  rw [symbol_eq_zero.2 hm] at h
  cases h

/-- A name is found at an entry that was added under it. -/
theorem nameOf_of_lookup {d : Dictionary} {name : Text} {e : Entry} (h : d.lookup name = some e) :
    e ∈ d.entries ∧ d.nameOf e = Text.fold name := by
  have hm := fold_mem_of_lookup h
  rw [lookup_of_mem hm] at h
  have hsymbol := List.find?_some h
  refine ⟨List.mem_of_find?_eq_some h, ?_⟩
  rw [nameOf, of_decide_eq_true hsymbol, (spelling_symbol hm).2.2]

theorem lookup_eq_find {d : Dictionary} (hd : d.WellFormed) (name : Text) :
    d.lookup name = d.entries.find? fun e => d.nameOf e = Text.fold name := by
  by_cases hm : Text.fold name ∈ d.names
  · obtain ⟨hpos, hle, hsp⟩ := spelling_symbol hm
    rw [lookup_of_mem hm, ← List.head?_filter, ← List.head?_filter]
    refine congrArg List.head? (List.filter_congr fun e he => ?_)
    refine decide_eq_decide.2 ⟨fun h => ?_, fun h => ?_⟩
    · rw [nameOf, h, hsp]
    · rw [nameOf, ← hsp] at h
      exact spelling_inj hd.nodup (hd.symbols e he) ⟨hpos, hle⟩ h
  · have hl : d.lookup name = none := by
      unfold lookup
      simp only [symbol_eq_zero.2 hm]
    rw [hl, eq_comm, List.find?_eq_none]
    intro e he h
    apply hm
    obtain ⟨hpos, hle⟩ := hd.symbols e he
    obtain ⟨i, hi⟩ : ∃ i, e.symbol = i + 1 := ⟨e.symbol - 1, by omega⟩
    have hlt : i < d.names.length := by omega
    rw [← of_decide_eq_true h, nameOf, hi, spelling, List.getElem?_eq_getElem hlt]
    exact List.getElem_mem hlt

end Names

section Add

variable (d : Dictionary) (name : Text) (meaning : Meaning)

theorem intern_entries : (d.intern name).entries = d.entries := by
  unfold intern
  split <;> rfl

theorem intern_names : d.names <+: (d.intern name).names := by
  unfold intern
  split
  · exact List.prefix_append _ _
  · exact List.prefix_refl _

theorem fold_mem_intern : Text.fold name ∈ (d.intern name).names := by
  unfold intern
  split
  · simp
  · rename_i h
    exact Classical.not_not.1 (mt symbol_eq_zero.2 h)

theorem intern_nodup (hd : d.names.Nodup) : (d.intern name).names.Nodup := by
  unfold intern
  split
  · rename_i h
    rw [List.nodup_append]
    refine ⟨hd, List.nodup_singleton _, fun a ha b hb hab => ?_⟩
    rw [List.mem_singleton.1 hb] at hab
    exact symbol_eq_zero.1 h (hab ▸ ha)
  · exact hd

/-- The entry that adding `meaning` under `name` puts on top. -/
def fresh : Entry := ⟨d.nextAddress, (d.intern name).symbol name, meaning⟩

theorem add_entries : (d.add name meaning).entries = d.fresh name meaning :: d.entries := by
  unfold add fresh nextAddress
  simp only [intern_entries]

theorem add_extends : Extends d (d.add name meaning) where
  entries := by
    rw [add_entries]
    exact List.suffix_cons _ _
  names := intern_names d name

theorem nameOf_fresh : (d.add name meaning).nameOf (d.fresh name meaning) = Text.fold name :=
  (spelling_symbol (fold_mem_intern d name)).2.2

theorem lookup_add_self : (d.add name meaning).lookup name = some (d.fresh name meaning) := by
  have hs : (d.add name meaning).symbol name = (d.fresh name meaning).symbol := rfl
  have hpos : 0 < (d.fresh name meaning).symbol := (spelling_symbol (fold_mem_intern d name)).1
  unfold lookup
  rw [hs, add_entries]
  split
  · omega
  · simp

theorem nextAddress_eq {d : Dictionary} (hd : Numbered d.entries) :
    d.nextAddress = d.entries.length + 1 := by
  unfold nextAddress
  rcases h : d.entries with _ | ⟨e, older⟩
  · rfl
  · rw [h] at hd
    simp only [hd.1, List.length_cons]

variable {d}

theorem WellFormed.add (hd : d.WellFormed) : (d.add name meaning).WellFormed where
  nodup := intern_nodup d name hd.nodup
  symbols := by
    intro e he
    rw [add_entries] at he
    rcases List.mem_cons.1 he with rfl | he
    · obtain ⟨hpos, hle, -⟩ := spelling_symbol (fold_mem_intern d name)
      exact ⟨hpos, hle⟩
    · have hlen := (intern_names d name).length_le
      obtain ⟨hpos, hle⟩ := hd.symbols e he
      exact ⟨hpos, Nat.le_trans hle hlen⟩
  numbered := by
    rw [add_entries]
    exact ⟨nextAddress_eq hd.numbered, hd.numbered⟩

end Add

section Growth

theorem Extends.refl (d : Dictionary) : Extends d d := ⟨List.suffix_refl _, List.prefix_refl _⟩

theorem Extends.trans {d d' d'' : Dictionary} (h : Extends d d') (h' : Extends d' d'') :
    Extends d d'' :=
  ⟨h.entries.trans h'.entries, h.names.trans h'.names⟩

end Growth

end Dictionary

section Numbering

theorem Numbered.address_le : ∀ {es : List Entry}, Numbered es → ∀ e ∈ es,
    0 < e.address ∧ e.address ≤ es.length
  | e :: older, h, e', he => by
    rcases List.mem_cons.1 he with rfl | he
    · have := h.1
      simp only [List.length_cons]
      omega
    · have := Numbered.address_le h.2 e' he
      simp only [List.length_cons]
      omega

theorem Numbered.of_append : ∀ {newer older : List Entry}, Numbered (newer ++ older) →
    Numbered older
  | [], _, h => h
  | _ :: _, _, h => Numbered.of_append h.2

theorem Numbered.lt_of_append : ∀ {newer older : List Entry}, Numbered (newer ++ older) →
    ∀ {e : Entry}, e ∈ newer → older.length < e.address
  | top :: newer, older, h, e, he => by
    rcases List.mem_cons.1 he with rfl | he
    · have := h.1
      rw [List.append_eq, List.length_append] at this
      omega
    · exact Numbered.lt_of_append h.2 he

theorem runAt_cons_self (e : Entry) (older : List Entry) (m : Machine) :
    runAt (e :: older) e.address m = e.meaning.run (runAt older) m := by
  rw [runAt, if_pos rfl]

/-- An entry is found below whatever was added later. -/
theorem runAt_append : ∀ {newer older : List Entry}, Numbered (newer ++ older) →
    ∀ {k : Nat}, k ≤ older.length → runAt (newer ++ older) k = runAt older k
  | [], _, _, _, _ => rfl
  | e :: newer, older, h, k, hk => by
    funext m
    have he : e.address ≠ k := by
      have := h.1
      rw [List.append_eq, List.length_append] at this
      omega
    rw [List.cons_append, runAt, if_neg he, runAt_append h.2 hk]

theorem Dictionary.run_of_extends {d d' : Dictionary} (hd : d'.WellFormed) (h : Extends d d')
    {k : Nat} (hk : k ≤ d.entries.length) : d'.run k = d.run k := by
  obtain ⟨newer, hnewer⟩ := h.entries
  unfold Dictionary.run
  rw [← hnewer]
  exact runAt_append (by rw [hnewer]; exact hd.numbered) hk

end Numbering

end LineForth
