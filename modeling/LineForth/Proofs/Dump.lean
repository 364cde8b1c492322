import LineForth.Language.Dump
import LineForth.Proofs.Symbols

/-!
# Dumps and lookups

A dump goes through the entries from the newest to the oldest and marks those whose symbol it has
met before.  A lookup goes the same way, for one name, and stops at the first entry that has it.  So
an entry is marked exactly if a lookup of its name gives a later one (`shadowed_iff`), and the
entries without a mark are those that can be looked up, one for each name (`unshadowed_iff`,
`unshadowed_nodup`).
-/

namespace LineForth

theorem Numbered.addresses : ∀ {es : List Entry}, Numbered es →
    es.map Entry.address = (List.range' 1 es.length).reverse
  | [], _ => rfl
  | e :: older, h => by
    rw [List.map_cons, Numbered.addresses h.2, h.1, List.length_cons, List.range'_concat,
      List.reverse_append, Nat.one_mul, Nat.add_comm]
    rfl

/-- How a meaning is shown under a name: as a marker, as native, or as its code, of which there may
be none. -/
inductive Shows (name : Text) : Meaning → Text → Prop
  | marker (m : Marker) : Shows name (.marker m) (name ++ Text.ofString " control")
  | native (p : Primitive) : Shows name (.native p) (name ++ Text.ofString " native")
  | host (w : HostWord) : Shows name (.host w) (name ++ Text.ofString " native")
  | compiled (own : Text) (code : List Action) :
      Shows name (.compiled own code) (name ++ code.flatMap fun a => Text.space :: a.text)

theorem Meaning.listing_shows (name : Text) (m : Meaning) : Shows name m (m.listing name) := by
  cases m with
  | marker m => exact .marker m
  | native p => exact .native p
  | host w => exact .host w
  | compiled own code =>
    have hcode : Action.listing name code = name ++ code.flatMap fun a => Text.space :: a.text := by
      rw [Action.listing, Text.join, List.flatMap_map]
      rfl
    rw [Meaning.listing, hcode]
    exact .compiled own code

namespace Dictionary

/-- Looking up the name of an entry gives a later one. -/
def Shadowed (d : Dictionary) (e : Entry) : Prop :=
  ∃ later, d.lookup (d.nameOf e) = some later ∧ e.address < later.address

instance (d : Dictionary) (e : Entry) : Decidable (d.Shadowed e) :=
  inferInstanceAs
    (Decidable (∃ later, later ∈ d.lookup (d.nameOf e) ∧ e.address < later.address))

/-- The line for an entry: its position, what it is, and whether it is shadowed. -/
def Lists (d : Dictionary) (e : Entry) (line : Text) : Prop :=
  ∃ shown, Shows (d.nameOf e) e.meaning shown ∧
    line = Text.ofString "  @" ++
      Text.padLeft ((Decimal.ofNat d.entries.length).length + 1) (Decimal.ofNat e.address) ++
      Text.ofString " : " ++ shown ++
      (if d.Shadowed e then Text.ofString " (shadowed)" else []) ++ [Text.newline]

theorem not_shadowed_of_lookup {d : Dictionary} {e : Entry}
    (h : d.lookup (d.nameOf e) = some e) : ¬ d.Shadowed e := by
  rintro ⟨later, hlater, hlt⟩
  rw [h] at hlater
  obtain rfl := Option.some.inj hlater
  omega

section Shadows

variable {d : Dictionary} (hd : d.WellFormed) (hf : ∀ s ∈ d.names, Text.fold s = s)

include hd hf

theorem lookup_nameOf {e : Entry} (he : e ∈ d.entries) :
    d.lookup (d.nameOf e) = d.entries.find? fun e' => e'.symbol = e.symbol := by
  have hs := hd.symbols e he
  have hmem : d.nameOf e ∈ d.names := List.mem_of_getElem? (getElem?_eq_spelling hs)
  have hsymbol : d.symbol (d.nameOf e) = e.symbol := symbol_spelling hd.nodup hf hs
  rw [lookup_of_mem (by rwa [hf _ hmem]), hsymbol]

/-- An entry is found under its own name unless a newer one has the same symbol. -/
theorem lookup_nameOf_self {newer older : List Entry} {e : Entry}
    (h : d.entries = newer ++ e :: older) (hn : e.symbol ∉ newer.map Entry.symbol) :
    d.lookup (d.nameOf e) = some e := by
  have hnone : newer.find? (fun e' => e'.symbol = e.symbol) = none := by
    rw [List.find?_eq_none]
    intro e' he' hsymbol
    exact hn (List.mem_map.2 ⟨e', he', of_decide_eq_true hsymbol⟩)
  rw [lookup_nameOf hd hf (by simp [h]), h, List.find?_append, hnone, Option.none_or]
  simp

/-- The two ways through the entries agree: a later entry is found exactly if the symbol was met
before. -/
theorem shadowed_iff {newer older : List Entry} {e : Entry} (h : d.entries = newer ++ e :: older) :
    d.Shadowed e ↔ e.symbol ∈ newer.map Entry.symbol := by
  constructor
  · intro hshadowed
    by_contra hn
    exact not_shadowed_of_lookup (lookup_nameOf_self hd hf h hn) hshadowed
  · intro hm
    obtain ⟨e', he', hsymbol⟩ := List.mem_map.1 hm
    have hsome : (newer.find? fun e' => e'.symbol = e.symbol).isSome :=
      List.find?_isSome.2 ⟨e', he', by simpa using hsymbol⟩
    obtain ⟨later, hlater⟩ := Option.isSome_iff_exists.1 hsome
    have hnumbered : Numbered (newer ++ e :: older) := h ▸ hd.numbered
    have hbelow := hnumbered.lt_of_append (List.mem_of_find?_eq_some hlater)
    have haddress := hnumbered.of_append.1
    rw [List.length_cons] at hbelow
    refine ⟨later, ?_, by omega⟩
    rw [lookup_nameOf hd hf (by simp [h]), h, List.find?_append, hlater, Option.some_or]

theorem lookup_of_unshadowed {e : Entry} (he : e ∈ d.entries) (hs : ¬ d.Shadowed e) :
    d.lookup (d.nameOf e) = some e := by
  obtain ⟨newer, older, h⟩ := List.append_of_mem he
  exact lookup_nameOf_self hd hf h (mt (shadowed_iff hd hf h).2 hs)

/-- An entry is not shadowed exactly if some lookup gives it. -/
theorem unshadowed_iff {e : Entry} :
    e ∈ d.entries ∧ ¬ d.Shadowed e ↔ ∃ name, d.lookup name = some e := by
  constructor
  · rintro ⟨he, hs⟩
    exact ⟨d.nameOf e, lookup_of_unshadowed hd hf he hs⟩
  · rintro ⟨name, hname⟩
    obtain ⟨he, hown⟩ := nameOf_of_lookup hname
    have hself : d.lookup (d.nameOf e) = some e := by
      rw [lookup_eq_find hd, hown, Text.fold_fold, ← lookup_eq_find hd, hname]
    exact ⟨he, not_shadowed_of_lookup hself⟩

/-- No two entries without a mark have one name. -/
theorem unshadowed_nodup : ((d.entries.filter fun e => ¬ d.Shadowed e).map d.nameOf).Nodup := by
  have hnodup : d.entries.Nodup := by
    refine List.Nodup.of_map Entry.address ?_
    rw [hd.numbered.addresses, List.nodup_reverse]
    exact List.nodup_range'
  refine List.Nodup.map_on (fun e he e' he' heq => ?_) (hnodup.filter _)
  obtain ⟨hmem, hs⟩ := List.mem_filter.1 he
  obtain ⟨hmem', hs'⟩ := List.mem_filter.1 he'
  have hfound := lookup_of_unshadowed hd hf hmem (by simpa using hs)
  rw [heq, lookup_of_unshadowed hd hf hmem' (by simpa using hs')] at hfound
  exact (Option.some.inj hfound).symm

/-- The lines for the older entries, after those for the newer ones, whose symbols were met. -/
theorem entryLines_lists : ∀ {newer older : List Entry} {seen : List Nat},
    d.entries = newer ++ older → (∀ s, s ∈ seen ↔ s ∈ newer.map Entry.symbol) →
    List.Forall₂ d.Lists older
      (d.entryLines ((Decimal.ofNat d.entries.length).length + 1) seen older)
  | _, [], _, _, _ => .nil
  | newer, e :: older, seen, h, hseen => by
    have hmark : seen.contains e.symbol ↔ d.Shadowed e := by
      rw [shadowed_iff hd hf h, ← hseen, List.contains_iff_mem]
    have hrest : d.entries = (newer ++ [e]) ++ older := by simp [h]
    refine .cons ⟨e.meaning.listing (d.nameOf e), e.meaning.listing_shows _, ?_⟩
      (entryLines_lists hrest fun s => ?_)
    · rw [entryLine, ite_congr (propext hmark) (fun _ => rfl) (fun _ => rfl)]
      rfl
    · simp only [List.mem_cons, hseen, List.map_append, List.map_cons, List.map_nil,
        List.mem_append, List.not_mem_nil, or_false]
      exact or_comm

end Shadows

end Dictionary

/-- What a dump says before it comes to the dictionary does not depend on it. -/
theorem Interpreter.dump_front (i : Interpreter) :
    ∃ front, ∀ d : Dictionary, Interpreter.dump { i with dict := d } = front ++ d.dump := by
  obtain ⟨⟨inDefinition, current⟩, machine, dict⟩ := i
  refine ⟨Text.ofString "# Forth Dump\n" ++ Text.ofString "  stack: " ++ machine.stack.display ++
    [Text.newline] ++ current.elim [] fun draft =>
      Text.ofString "  defining: " ++ draft.listing ++ [Text.newline], fun d => ?_⟩
  cases current <;> rfl

end LineForth
