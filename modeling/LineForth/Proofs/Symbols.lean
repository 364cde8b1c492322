import Mathlib.Data.List.Induction
import LineForth.Proofs.Dictionary
import LineForth.Proofs.LowerCase

/-!
# Symbols

Words are added to a dictionary one after the other, and its tables are built up on the way.  Each
name is kept once and in lower case, at the place that its symbol says, and each entry has the
symbol of the name it was added under.  So the entries tell the additions in order
(`entries_ofAdditions`), and looking up a name gives the last of them with that name, in whatever
case it is written.

A dictionary looks for the place of a name each time.  Where the places are written down instead, in
a second table that goes from names to symbols (`SymbolTable`), the two tables stay in step
(`Agrees`) and the symbols are the same; a symbol can then be any 64-bit word, and is turned into a
place by signed arithmetic, which wraps around.
-/

namespace LineForth

namespace Dictionary

/-- The dictionary that results from adding words to an empty one, in order: native words, words of
the host, markers and finished definitions, each under its name. -/
def ofAdditions (ws : List (Text × Meaning)) : Dictionary :=
  ws.foldl (fun d w => d.add w.1 w.2) {}

theorem ofAdditions_concat (ws : List (Text × Meaning)) (w : Text × Meaning) :
    ofAdditions (ws ++ [w]) = (ofAdditions ws).add w.1 w.2 := by
  simp [ofAdditions]

section Additions

theorem ofAdditions_wellFormed (ws : List (Text × Meaning)) : (ofAdditions ws).WellFormed := by
  induction ws using List.reverseRecOn with
  | nil => exact ⟨List.nodup_nil, by simp [ofAdditions], trivial⟩
  | append_singleton ws w ih =>
    rw [ofAdditions_concat]
    exact ih.add w.1 w.2

theorem intern_folded {d : Dictionary} (hd : ∀ s ∈ d.names, Text.fold s = s) (name : Text) :
    ∀ s ∈ (d.intern name).names, Text.fold s = s := by
  intro s hs
  unfold intern at hs
  split_ifs at hs
  · rcases List.mem_append.1 hs with hs | hs
    · exact hd s hs
    · rw [List.mem_singleton.1 hs, Text.fold_fold]
  · exact hd s hs

theorem ofAdditions_folded (ws : List (Text × Meaning)) :
    ∀ s ∈ (ofAdditions ws).names, Text.fold s = s := by
  induction ws using List.reverseRecOn with
  | nil => simp [ofAdditions]
  | append_singleton ws w ih =>
    rw [ofAdditions_concat]
    exact intern_folded ih w.1

/-- The entries, newest first, are what was added, each under its name in lower case. -/
theorem entries_ofAdditions (ws : List (Text × Meaning)) :
    (ofAdditions ws).entries.map (fun e => ((ofAdditions ws).nameOf e, e.meaning))
      = (ws.map fun w => (Text.fold w.1, w.2)).reverse := by
  induction ws using List.reverseRecOn with
  | nil => rfl
  | append_singleton ws w ih =>
    have hold : ∀ e ∈ (ofAdditions ws).entries,
        ((ofAdditions ws).add w.1 w.2).nameOf e = (ofAdditions ws).nameOf e :=
      fun e he => nameOf_of_extends (ofAdditions_wellFormed ws) (add_extends _ _ _) he
    rw [ofAdditions_concat, add_entries, List.map_cons, nameOf_fresh, List.map_append,
      List.reverse_append, ← ih]
    refine congrArg₂ List.cons rfl (List.map_congr_left fun e he => ?_)
    rw [hold e he]

end Additions

section Symbols

variable {d : Dictionary}

theorem getElem?_eq_spelling {s : Nat} (hs : 0 < s ∧ s ≤ d.names.length) :
    d.names[s - 1]? = some (d.spelling s) := by
  obtain ⟨i, rfl⟩ : ∃ i, s = i + 1 := ⟨s - 1, by omega⟩
  have hi : i < d.names.length := by omega
  simp [spelling, List.getElem?_eq_getElem hi]

theorem spelling_eq_nil {s : Nat} (hs : ¬ (0 < s ∧ s ≤ d.names.length)) : d.spelling s = [] := by
  cases s with
  | zero => rfl
  | succ i =>
    have hi : d.names.length ≤ i := by omega
    simp [spelling, List.getElem?_eq_none hi]

theorem symbol_spelling (hd : d.names.Nodup) (hf : ∀ s ∈ d.names, Text.fold s = s) {s : Nat}
    (hs : 0 < s ∧ s ≤ d.names.length) : d.symbol (d.spelling s) = s := by
  have hmem := List.mem_of_getElem? (getElem?_eq_spelling hs)
  have hfold := hf _ hmem
  have hknown : Text.fold (d.spelling s) ∈ d.names := by rwa [hfold]
  obtain ⟨hpos, hle, hspell⟩ := spelling_symbol hknown
  exact spelling_inj hd ⟨hpos, hle⟩ hs (hspell.trans hfold)

end Symbols

section Lookup

variable (ws : List (Text × Meaning)) (name : Text)

theorem lookup_ofAdditions :
    ((ofAdditions ws).lookup name).map Entry.meaning
      = (ws.reverse.find? fun w => Text.fold w.1 = Text.fold name).map Prod.snd := by
  have hfind : ∀ l : List (Text × Meaning),
      ((l.map fun w => (Text.fold w.1, w.2)).find? fun w => w.1 = Text.fold name).map Prod.snd
        = (l.find? fun w => Text.fold w.1 = Text.fold name).map Prod.snd := by
    intro l
    rw [List.find?_map, Option.map_map]
    rfl
  rw [← hfind, List.map_reverse, ← entries_ofAdditions, List.find?_map, Option.map_map,
    lookup_eq_find (ofAdditions_wellFormed ws)]
  rfl

theorem lookup_ofAdditions_none :
    (ofAdditions ws).lookup name = none ↔ ∀ w ∈ ws, Text.fold w.1 ≠ Text.fold name := by
  have h := congrArg Option.isNone (lookup_ofAdditions ws name)
  rw [Option.isNone_map, Option.isNone_map, Bool.eq_iff_iff] at h
  simpa using h

end Lookup

end Dictionary

/-- The names in order, and a table that gives the symbol of each. -/
structure SymbolTable where
  names : List Text := []
  ids : List (Text × Nat) := []

namespace SymbolTable

/-- Gives a name a symbol if it has none. -/
def intern (t : SymbolTable) (name : Text) : SymbolTable :=
  match t.ids.lookup (Text.fold name) with
  | some _ => t
  | none =>
    { names := t.names ++ [Text.fold name]
      ids := (Text.fold name, t.names.length + 1) :: t.ids }

/-- The name at the place that a word stands for as a signed number. -/
def spelling (t : SymbolTable) (id : UInt64) : Text :=
  let i := id.toInt64 - 1
  if 0 ≤ i ∧ i.toInt < t.names.length then t.names[i.toInt.toNat]?.getD [] else []

def ofAdditions (ws : List (Text × Meaning)) : SymbolTable :=
  ws.foldl (fun t w => t.intern w.1) {}

/-- The tables have the names of the dictionary, and give a name the symbol that is its place. -/
structure Agrees (t : SymbolTable) (d : Dictionary) : Prop where
  names : t.names = d.names
  ids : ∀ s id, t.ids.lookup s = some id ↔ 0 < id ∧ d.names[id - 1]? = some s

variable {t : SymbolTable} {d : Dictionary}

theorem Agrees.lookup_eq_none (h : t.Agrees d) {s : Text} :
    t.ids.lookup s = none ↔ s ∉ d.names := by
  constructor
  · intro hnone hmem
    obtain ⟨i, hi⟩ := List.mem_iff_getElem?.1 hmem
    have := (h.ids s (i + 1)).2 ⟨by omega, by simpa using hi⟩
    rw [hnone] at this
    cases this
  · intro hmem
    rcases hl : t.ids.lookup s with _ | id
    · rfl
    · exact absurd (List.mem_of_getElem? ((h.ids s id).1 hl).2) hmem

theorem Agrees.intern (h : t.Agrees d) (name : Text) : (t.intern name).Agrees (d.intern name) := by
  rcases hl : t.ids.lookup (Text.fold name) with _ | id
  · have hnew := h.lookup_eq_none.1 hl
    have ht : t.intern name = { names := t.names ++ [Text.fold name], ids :=
        (Text.fold name, t.names.length + 1) :: t.ids } := by
      simp only [SymbolTable.intern, hl]
    have hd : d.intern name = { d with names := d.names ++ [Text.fold name] } := by
      rw [Dictionary.intern, if_pos (Dictionary.symbol_eq_zero.2 hnew)]
    rw [ht, hd]
    refine ⟨by rw [h.names], fun s id => ?_⟩
    have hget : 0 < id → ((d.names ++ [Text.fold name])[id - 1]? = some s
        ↔ d.names[id - 1]? = some s ∨ id = d.names.length + 1 ∧ s = Text.fold name) := by
      intro hid
      rcases Nat.lt_trichotomy (id - 1) d.names.length with hlt | heq | hgt
      · rw [List.getElem?_append_left hlt]
        simp [show id ≠ d.names.length + 1 by omega]
      · rw [heq, List.getElem?_concat_length, List.getElem?_eq_none (Nat.le_refl _)]
        simp [show id = d.names.length + 1 by omega, eq_comm]
      · rw [List.getElem?_eq_none (by simp; omega), List.getElem?_eq_none (by omega)]
        simp [show id ≠ d.names.length + 1 by omega]
    by_cases hs : s = Text.fold name
    · subst hs
      rw [List.lookup_cons, beq_self_eq_true, h.names]
      constructor
      · intro hid
        obtain rfl := Option.some.inj hid
        exact ⟨by omega, (hget (by omega)).2 (.inr ⟨rfl, rfl⟩)⟩
      · rintro ⟨hpos, hid⟩
        rcases (hget hpos).1 hid with hid | ⟨rfl, -⟩
        · exact absurd (List.mem_of_getElem? hid) hnew
        · rfl
    · rw [List.lookup_cons, beq_eq_false_iff_ne.2 hs, h.ids]
      refine and_congr_right fun hpos => ?_
      rw [hget hpos]
      simp [hs]
  · have hold : Text.fold name ∈ d.names := by
      by_contra hmem
      rw [h.lookup_eq_none.2 hmem] at hl
      cases hl
    have ht : t.intern name = t := by simp only [SymbolTable.intern, hl]
    have hd : d.intern name = d := by
      rw [Dictionary.intern, if_neg (mt Dictionary.symbol_eq_zero.1 (not_not.2 hold))]
    rw [ht, hd]
    exact h

theorem ofAdditions_agrees (ws : List (Text × Meaning)) :
    (ofAdditions ws).Agrees (.ofAdditions ws) := by
  induction ws using List.reverseRecOn with
  | nil => exact ⟨rfl, by simp [ofAdditions, Dictionary.ofAdditions]⟩
  | append_singleton ws w ih =>
    obtain ⟨hnames, hids⟩ := ih.intern w.1
    rw [Dictionary.ofAdditions_concat,
      show ofAdditions (ws ++ [w]) = (ofAdditions ws).intern w.1 by simp [ofAdditions]]
    exact ⟨hnames, hids⟩

theorem Agrees.symbol_eq (h : t.Agrees d) (hd : d.names.Nodup) (name : Text) :
    d.symbol name = (t.ids.lookup (Text.fold name)).getD 0 := by
  rcases hl : t.ids.lookup (Text.fold name) with _ | id
  · rw [Dictionary.symbol_eq_zero.2 (h.lookup_eq_none.1 hl)]
    rfl
  · obtain ⟨hpos, hget⟩ := (h.ids _ _).1 hl
    obtain ⟨hpos', hle', hspell⟩ := Dictionary.spelling_symbol (List.mem_of_getElem? hget)
    obtain ⟨hlt, -⟩ := List.getElem?_eq_some_iff.1 hget
    have hid : 0 < id ∧ id ≤ d.names.length := by omega
    rw [Dictionary.getElem?_eq_spelling hid] at hget
    exact Dictionary.spelling_inj hd ⟨hpos', hle'⟩ hid (hspell.trans (Option.some.inj hget).symm)

/-- One less than a word, as a signed number. -/
theorem toInt_index (id : UInt64) : (id.toInt64 - 1).toInt
    = if id.toNat ≤ 0x8000000000000000 then (id.toNat : Int) - 1
      else (id.toNat : Int) - 1 - 0x10000000000000000 := by
  have hid := id.toNat_lt
  have hint : id.toInt64.toInt = (id.toNat : Int).bmod (2 ^ 64) := by
    exact BitVec.toInt_eq_toNat_bmod _
  rw [Int64.toInt_sub, hint, show (1 : Int64).toInt = 1 from rfl, Int.bmod_def, Int.bmod_def]
  split_ifs <;> omega

theorem Agrees.spelling_nil (h : t.Agrees d) {id : UInt64}
    (hs : ¬ (0 < id.toNat ∧ id.toNat ≤ d.names.length)) : t.spelling id = [] := by
  have hindex := toInt_index id
  have hid := id.toNat_lt
  unfold spelling
  simp only [Int64.le_iff_toInt_le, show (0 : Int64).toInt = 0 from rfl, h.names]
  rw [if_neg]
  split_ifs at hindex <;> omega

theorem Agrees.spelling_eq (h : t.Agrees d) (hlen : d.names.length < 0x8000000000000000)
    (id : UInt64) : t.spelling id = d.spelling id.toNat := by
  by_cases hs : 0 < id.toNat ∧ id.toNat ≤ d.names.length
  · have hindex := toInt_index id
    rw [if_pos (by omega)] at hindex
    unfold spelling
    simp only [Int64.le_iff_toInt_le, show (0 : Int64).toInt = 0 from rfl, h.names]
    rw [if_pos (by omega), hindex, show ((id.toNat : Int) - 1).toNat = id.toNat - 1 by omega,
      Dictionary.getElem?_eq_spelling hs, Option.getD_some]
  · rw [h.spelling_nil hs, Dictionary.spelling_eq_nil hs]

end SymbolTable

/-- What adding the words `ws` to an empty dictionary makes of its tables.  The names are kept once
and in lower case, each has its place for a symbol, and looking up a name, in any case, gives what
was last added under it. -/
structure Dictionary.Indexed (d : Dictionary) (ws : List (Text × Meaning)) : Prop where
  nodup : d.names.Nodup
  folded : ∀ s ∈ d.names, Text.fold s = s
  ids : ∀ s id, (SymbolTable.ofAdditions ws).ids.lookup s = some id
    ↔ 0 < id ∧ d.names[id - 1]? = some s
  symbol : ∀ name,
    d.symbol name = ((SymbolTable.ofAdditions ws).ids.lookup (Text.fold name)).getD 0
  symbol_spelling : ∀ id, 0 < id ∧ id ≤ d.names.length → d.symbol (d.spelling id) = id
  spelling_other : ∀ id, ¬ (0 < id ∧ id ≤ d.names.length) → d.spelling id = []
  /-- A list in memory is always that short, so that a 64-bit word is as good as any number. -/
  spelling_word : d.names.length < 0x8000000000000000 → ∀ id : UInt64,
    (SymbolTable.ofAdditions ws).spelling id = d.spelling id.toNat
  spelling_word_other : ∀ id : UInt64, ¬ (0 < id.toNat ∧ id.toNat ≤ d.names.length) →
    (SymbolTable.ofAdditions ws).spelling id = []
  entries : ∀ e ∈ d.entries, 0 < e.symbol ∧ e.symbol ≤ d.names.length
  lookup : ∀ name, (d.lookup name).map Entry.meaning
    = (ws.reverse.find? fun w => Text.fold w.1 = Text.fold name).map Prod.snd
  lookup_none : ∀ name, d.lookup name = none ↔ ∀ w ∈ ws, Text.fold w.1 ≠ Text.fold name

/-- Whatever is added under whatever names, the tables stay in step. -/
theorem ofAdditions_indexed (ws : List (Text × Meaning)) :
    (Dictionary.ofAdditions ws).Indexed ws := by
  have hwell := Dictionary.ofAdditions_wellFormed ws
  have hfold := Dictionary.ofAdditions_folded ws
  have hagrees := SymbolTable.ofAdditions_agrees ws
  exact {
    nodup := hwell.nodup
    folded := hfold
    ids := hagrees.ids
    symbol := hagrees.symbol_eq hwell.nodup
    symbol_spelling := fun id hid => Dictionary.symbol_spelling hwell.nodup hfold hid
    spelling_other := fun id hid => Dictionary.spelling_eq_nil hid
    spelling_word := hagrees.spelling_eq
    spelling_word_other := fun id hid => hagrees.spelling_nil hid
    entries := hwell.symbols
    lookup := Dictionary.lookup_ofAdditions ws
    lookup_none := Dictionary.lookup_ofAdditions_none ws }

end LineForth
