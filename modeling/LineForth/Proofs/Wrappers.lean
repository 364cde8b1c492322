import Mathlib.Data.List.Forall2
import Mathlib.Data.List.Infix
import LineForth.Program.Wrapper
import LineForth.Proofs.Pieces

/-!
# Wrappers pass on what they are given

The heading of a builder method is looked for by one pass over a line.  `Builder.Heads` says what is
found: of all ways to read the line as such a heading, the one with the shortest name, and with the
shortest parameters for that name.

`Builder.Parameter` is a parameter as it is written: a name, and behind it a type unless that is
shared.  The parameters of a heading are told apart again by their commas, and the name of each from
its type by the white space between them, so that the wrapper calls its method with the names in
their order (`Builder.Parameter.arguments?_list`).
-/

namespace LineForth

section Options

variable {α β : Type} {f : α → Option β}

theorem mapM_eq_some {xs : List α} {ys : List β} :
    xs.mapM f = some ys ↔ List.Forall₂ (fun x y => f x = some y) xs ys := by
  induction xs generalizing ys with
  | nil => simp [eq_comm]
  | cons x xs ih =>
    rw [List.mapM_cons, List.forall₂_cons_left_iff]
    simp only [Option.bind_eq_bind, Option.bind_eq_some_iff, ih, Option.pure_def, Option.some_inj,
      exists_and_left, eq_comm (b := ys)]

theorem mapM_eq_none {xs : List α} : xs.mapM f = none ↔ ∃ x ∈ xs, f x = none := by
  induction xs with
  | nil => simp
  | cons x xs ih =>
    rw [List.mapM_cons, List.exists_mem_cons_iff, ← ih]
    rcases hx : f x with _ | y <;> rcases hxs : xs.mapM f with _ | ys <;> simp

end Options

namespace Builder

section Shortest

variable {stop acc t u : Text} {b : UInt8}

/-- With `u` behind what was read there is something in front of `stop`. -/
def Ends (stop acc t u : Text) : Prop := (acc ≠ [] ∨ u ≠ []) ∧ u ++ stop <+: t

theorem Ends.cons (h : Ends stop (b :: acc) t u) : Ends stop acc (b :: t) (b :: u) :=
  ⟨.inr (by simp), List.cons_prefix_cons.2 ⟨rfl, h.2⟩⟩

/-- What is in front of `stop`, if `stop` does not come at once. -/
theorem Ends.read (h : Ends stop acc (b :: t) u) (hnow : ¬ Ends stop acc (b :: t) []) :
    ∃ v, u = b :: v ∧ Ends stop (b :: acc) t v := by
  rcases u with _ | ⟨b', v⟩
  · exact absurd h hnow
  · obtain ⟨rfl, hv⟩ := List.cons_prefix_cons.1 h.2
    exact ⟨v, rfl, .inl (by simp), hv⟩

theorem untilOnto_now (h : Ends stop acc (b :: t) []) :
    untilOnto stop acc (b :: t) = some acc.reverse := by
  rw [untilOnto, if_pos]
  simpa [Ends, Text.after?_isSome] using h

theorem untilOnto_later (h : ¬ Ends stop acc (b :: t) []) :
    untilOnto stop acc (b :: t) = untilOnto stop (b :: acc) t := by
  rw [untilOnto, if_neg]
  simpa [Ends, Text.after?_isSome] using h

theorem untilOnto_some : ∀ {t acc : Text}, untilOnto stop acc t = some u →
    ∃ v, u = acc.reverse ++ v ∧ Ends stop acc t v ∧ ∀ w, Ends stop acc t w → v.length ≤ w.length
  | [], _, h => by cases h
  | b :: t, acc, h => by
    by_cases hnow : Ends stop acc (b :: t) []
    · rw [untilOnto_now hnow] at h
      exact ⟨[], by simpa using h.symm, hnow, by simp⟩
    · rw [untilOnto_later hnow] at h
      obtain ⟨v, rfl, hv, hmin⟩ := untilOnto_some h
      refine ⟨b :: v, by simp, hv.cons, fun w hw => ?_⟩
      obtain ⟨w', rfl, hw'⟩ := hw.read hnow
      simpa using hmin w' hw'

theorem untilOnto_none (hstop : stop ≠ []) : ∀ {t acc : Text}, untilOnto stop acc t = none →
    ∀ w, ¬ Ends stop acc t w
  | [], _, _, _, hw => hstop (List.append_eq_nil_iff.1 (List.prefix_nil.1 hw.2)).2
  | b :: t, acc, h, w, hw => by
    by_cases hnow : Ends stop acc (b :: t) []
    · rw [untilOnto_now hnow] at h
      cases h
    · rw [untilOnto_later hnow] at h
      obtain ⟨w', -, hw'⟩ := hw.read hnow
      exact untilOnto_none hstop h w' hw'

theorem shortestBefore?_some (h : shortestBefore? stop t = some u) :
    u ≠ [] ∧ u ++ stop <+: t ∧ ∀ w, w ≠ [] → w ++ stop <+: t → u.length ≤ w.length := by
  obtain ⟨v, hu, hv, hmin⟩ := untilOnto_some h
  obtain rfl : u = v := by simpa using hu
  exact ⟨hv.1.resolve_left (· rfl), hv.2, fun w hw hw' => hmin w ⟨.inr hw, hw'⟩⟩

theorem shortestBefore?_none (hstop : stop ≠ []) (h : shortestBefore? stop t = none) {w : Text}
    (hw : w ≠ []) : ¬ w ++ stop <+: t :=
  fun hw' => untilOnto_none hstop h w ⟨.inr hw, hw'⟩

end Shortest

section Splitting

variable {t name params : Text} {b : UInt8}

/-- A name and parameters that a text starts with, with an opening parenthesis between them. -/
structure Splits (t name params : Text) : Prop where
  name_ne : name ≠ []
  params_ne : params ≠ []
  start : name ++ 0x28 :: (params ++ paramsEnd) <+: t

theorem paramsEnd_ne : paramsEnd ≠ [] := by decide

theorem not_paren (h : 0x28 ∉ name) : ∀ c ∈ name, decide (c ≠ 0x28) = true :=
  fun _ hc => decide_eq_true fun heq => h (heq ▸ hc)

theorem split?_name (h : 0x28 ∉ name) (rest : Text) :
    split? (b :: (name ++ 0x28 :: rest))
      = (shortestBefore? paramsEnd rest).map fun params => (b :: name, params) := by
  rw [split?, List.dropWhile_append_of_pos (not_paren h),
    List.takeWhile_append_of_pos (not_paren h)]
  simp

theorem split?_nameless (h : 0x28 ∉ name) : split? (b :: name) = none := by
  rw [split?, List.dropWhile_eq_nil_iff.2 (not_paren h)]

theorem prefix_at_first {c : UInt8} {u r : Text} : ∀ {n t : Text}, c ∉ n →
    t ++ c :: u <+: n ++ c :: r →
    t = n ∧ u <+: r ∨ ∃ m, t = n ++ c :: m ∧ m ++ c :: u <+: r
  | [], [], _, h => .inl ⟨rfl, (List.cons_prefix_cons.1 h).2⟩
  | [], x :: m, _, h => by
    obtain ⟨rfl, h⟩ := List.cons_prefix_cons.1 h
    exact .inr ⟨m, rfl, h⟩
  | x :: n, [], hn, h => absurd (List.cons_prefix_cons.1 h).1 (List.ne_of_not_mem_cons hn)
  | x :: n, y :: t, hn, h => by
    obtain ⟨rfl, htail⟩ := List.cons_prefix_cons.1 h
    rcases prefix_at_first (List.not_mem_of_not_mem_cons hn) htail with ⟨rfl, hu⟩ | ⟨m, rfl, hu⟩
    · exact .inl ⟨rfl, hu⟩
    · exact .inr ⟨m, rfl, hu⟩

/-- If parameters follow a later parenthesis, they follow the first one behind the first byte of the
name. -/
theorem Splits.first {n rest : Text} (hn : 0x28 ∉ n)
    (h : Splits (b :: (n ++ 0x28 :: rest)) name params) :
    ∃ params', params' ≠ [] ∧ params' ++ paramsEnd <+: rest
      ∧ (name = b :: n ∧ params' = params ∨ (b :: n).length < name.length) := by
  obtain ⟨hname, hparams, hstart⟩ := h
  obtain ⟨b', tail, rfl⟩ := List.exists_cons_of_ne_nil hname
  obtain ⟨rfl, htail⟩ := List.cons_prefix_cons.1 hstart
  rcases prefix_at_first hn htail with ⟨rfl, hrest⟩ | ⟨m, rfl, hrest⟩
  · exact ⟨params, hparams, hrest, .inl ⟨rfl, rfl⟩⟩
  · exact ⟨m ++ 0x28 :: params, by simp, by simpa using hrest, .inr (by simp)⟩

theorem split?_some (h : split? t = some (name, params)) : Splits t name params
    ∧ ∀ name' params', Splits t name' params' → name.length < name'.length
      ∨ name.length = name'.length ∧ params.length ≤ params'.length := by
  rcases t with _ | ⟨b, t⟩
  · cases h
  by_cases hmem : 0x28 ∈ t
  · obtain ⟨n, rest, rfl, hn⟩ := List.eq_append_cons_of_mem hmem
    rw [split?_name hn, Option.map_eq_some_iff] at h
    obtain ⟨params, hparams, heq⟩ := h
    obtain ⟨rfl, rfl⟩ := Prod.mk.inj heq
    obtain ⟨hne, hstart, hmin⟩ := shortestBefore?_some hparams
    refine ⟨⟨by simp, hne, ?_⟩, fun name' params' h' => ?_⟩
    · exact List.cons_prefix_cons.2 ⟨rfl,
        (List.prefix_append_right_inj n).2 (List.cons_prefix_cons.2 ⟨rfl, hstart⟩)⟩
    · obtain ⟨params'', hne', hstart', ⟨rfl, rfl⟩ | hlt⟩ := h'.first hn
      · exact .inr ⟨rfl, hmin _ hne' hstart'⟩
      · exact .inl hlt
  · rw [split?_nameless hmem] at h
    cases h

theorem split?_none (h : split? t = none) : ¬ Splits t name params := by
  intro hs
  rcases t with _ | ⟨b, t⟩
  · exact hs.name_ne (List.append_eq_nil_iff.1 (List.prefix_nil.1 hs.start)).1
  by_cases hmem : 0x28 ∈ t
  · obtain ⟨n, rest, rfl, hn⟩ := List.eq_append_cons_of_mem hmem
    obtain ⟨params', hne, hstart, -⟩ := hs.first hn
    rw [split?_name hn, Option.map_eq_none_iff] at h
    exact shortestBefore?_none paramsEnd_ne h hne hstart
  · obtain ⟨c, tail, rfl⟩ := List.exists_cons_of_ne_nil hs.name_ne
    exact hmem ((List.cons_prefix_cons.1 hs.start).2.subset (by simp))

end Splitting

section Headings

variable {line : Text}

/-- The start of the line that a method is declared in, up to its result. -/
def heading (b : Builder) : Text :=
  receiver ++ b.base ++ b.what ++ 0x28 :: (b.params ++ paramsEnd)

/-- The line can be read as the heading of this method. -/
structure Matches (b : Builder) (line : Text) : Prop where
  base : b.base ∈ bases
  what : b.what ≠ []
  params : b.params ≠ []
  start : b.heading <+: line

/-- The method whose heading the line is: the name is as short as can be, and then so are the
parameters. -/
def Heads (b : Builder) (line : Text) : Prop :=
  b.Matches line ∧ ∀ c : Builder, c.Matches line → b.what.length < c.what.length
    ∨ b.what.length = c.what.length ∧ b.params.length ≤ c.params.length

theorem bases_apart {base base' u v : Text} (h : base ∈ bases) (h' : base' ∈ bases)
    (heq : base ++ u = base' ++ v) : base = base' := by
  simp only [bases, List.mem_cons, List.not_mem_nil, or_false] at h h'
  rcases h with rfl | rfl <;> rcases h' with rfl | rfl
  · rfl
  · exact absurd (List.cons.inj heq).1 (by decide)
  · exact absurd (List.cons.inj heq).1 (by decide)
  · rfl

/-- A heading starts with the receiver and a base, and then there is a name with parameters. -/
theorem matches_iff {base t : Text} (h : base ∈ bases) (b : Builder) :
    b.Matches (receiver ++ (base ++ t)) ↔ b.base = base ∧ Splits t b.what b.params := by
  constructor
  · rintro ⟨hbase, hwhat, hparams, after, hstart⟩
    simp only [heading, List.append_assoc, List.append_cancel_left_eq] at hstart
    obtain rfl := bases_apart hbase h hstart
    exact ⟨rfl, hwhat, hparams, after, by simpa using hstart⟩
  · rintro ⟨rfl, hwhat, hparams, after, rfl⟩
    exact ⟨h, hwhat, hparams, after, by simp [heading]⟩

theorem Matches.start_base {b : Builder} (h : b.Matches line) :
    ∃ t, line = receiver ++ (b.base ++ t) := by
  obtain ⟨after, hline⟩ := h.start
  exact ⟨b.what ++ (0x28 :: (b.params ++ paramsEnd) ++ after), by
    rw [← hline]
    simp only [heading, List.append_assoc]⟩

theorem ofLine?_base {base : Text} (h : base ∈ bases) (t : Text) :
    ofLine? (receiver ++ (base ++ t))
      = (split? t).map fun (what, params) => ⟨base, what, params⟩ := by
  have hself : Text.after? base (base ++ t) = some t := Text.after?_eq_some.2 rfl
  have hother : ∀ base' ∈ bases, base' ≠ base → Text.after? base' (base ++ t) = none := by
    intro base' h' hne
    rw [Option.eq_none_iff_forall_ne_some]
    exact fun u hu => hne (bases_apart h' h (Text.after?_eq_some.1 hu).symm)
  rw [ofLine?, Text.after?_eq_some.2 rfl]
  simp only [bases, List.mem_cons, List.not_mem_nil, or_false] at h hother ⊢
  rcases h with rfl | rfl
  · simp only [List.findSome?_cons, hself, hother _ (.inr rfl) (by decide), List.findSome?_nil]
    rcases split? t with _ | ⟨what, params⟩ <;> rfl
  · simp only [List.findSome?_cons, hself, hother _ (.inl rfl) (by decide), List.findSome?_nil]
    rcases split? t with _ | ⟨what, params⟩ <;> rfl

theorem ofLine?_baseless (h : ∀ base ∈ bases, ∀ t, line ≠ receiver ++ (base ++ t)) :
    ofLine? line = none := by
  rw [ofLine?]
  split
  · rfl
  · rename_i rest hrest
    rw [List.findSome?_eq_none_iff]
    intro base hbase
    have hnone : Text.after? base rest = none := by
      rw [Option.eq_none_iff_forall_ne_some]
      intro t ht
      rw [Text.after?_eq_some.1 ht] at hrest
      exact h base hbase t (Text.after?_eq_some.1 hrest)
    rw [hnone]

/-- A method is found exactly where its heading is. -/
theorem ofLine?_spec (line : Text) :
    match ofLine? line with
    | some b => b.Heads line
    | none => ∀ b : Builder, ¬ b.Matches line := by
  by_cases h : ∃ base ∈ bases, ∃ t, line = receiver ++ (base ++ t)
  · obtain ⟨base, hbase, t, rfl⟩ := h
    rw [ofLine?_base hbase]
    rcases hs : split? t with _ | ⟨what, params⟩
    · exact fun b hb => split?_none hs ((matches_iff hbase b).1 hb).2
    · obtain ⟨hsplits, hmin⟩ := split?_some hs
      exact ⟨(matches_iff hbase _).2 ⟨rfl, hsplits⟩,
        fun c hc => hmin _ _ ((matches_iff hbase c).1 hc).2⟩
  · rw [ofLine?_baseless fun base hbase t heq => h ⟨base, hbase, t, heq⟩]
    intro b hb
    obtain ⟨t, ht⟩ := hb.start_base
    exact h ⟨b.base, hb.base, t, ht⟩

/-- A line is the heading of one method at most. -/
theorem Heads.unique {b c : Builder} (hb : b.Heads line) (hc : c.Heads line) : b = c := by
  have hbase : c.base = b.base := by
    obtain ⟨t, rfl⟩ := hb.1.start_base
    exact ((matches_iff hb.1.base c).1 hc.1).1
  have hle := hb.2 c hc.1
  have hge := hc.2 b hb.1
  have hwhat : b.what.length = c.what.length := by omega
  have hparams : b.params.length = c.params.length := by omega
  have hheading : b.heading = c.heading := by
    refine (List.prefix_of_prefix_length_le hb.1.start hc.1.start ?_).eq_of_length ?_ <;>
      simp [heading, hbase, hwhat, hparams]
  obtain ⟨base, what, params⟩ := b
  obtain ⟨base', what', params'⟩ := c
  obtain rfl : base' = base := hbase
  simp only [heading, List.append_assoc, List.append_cancel_left_eq] at hheading
  obtain ⟨rfl, htail⟩ := List.append_inj hheading hwhat
  obtain ⟨rfl, -⟩ := List.append_inj (List.cons.inj htail).2 hparams
  rfl

theorem ofLine?_eq_some {b : Builder} : ofLine? line = some b ↔ b.Heads line := by
  have hspec := ofLine?_spec line
  rcases h : ofLine? line with _ | c <;> rw [h] at hspec
  · simpa using fun hb => hspec b hb.1
  · rw [Option.some_inj]
    exact ⟨fun heq => heq ▸ hspec, fun hb => hspec.unique hb⟩

theorem ofLine?_eq_none : ofLine? line = none ↔ ∀ b : Builder, ¬ b.Matches line := by
  have hspec := ofLine?_spec line
  rcases h : ofLine? line with _ | c <;> rw [h] at hspec
  · simpa using hspec
  · simpa using ⟨c, hspec.1⟩

end Headings

section End

variable {params : Text}

/-- The end of the parameters starts with a parenthesis and has no other one of its kind. -/
theorem paramsEnd_head : ∃ tail, paramsEnd = 0x29 :: tail ∧ 0x29 ∉ tail :=
  ⟨paramsEnd.tail, by decide, by decide⟩

theorem infix_behind {c : UInt8} {x front back : Text} (h : c ∉ front)
    (hx : c :: x <:+: front ++ back) : c :: x <:+: back := by
  rcases List.infix_append_iff.1 hx with hx | hx | ⟨x₁, x₂, heq, h₁, h₂⟩
  · exact absurd (hx.subset List.mem_cons_self) h
  · exact hx
  · rcases x₁ with _ | ⟨c', x₁⟩
    · rw [heq]
      exact h₂.isInfix
    · obtain ⟨rfl, -⟩ := List.cons.inj heq
      exact absurd (h₁.subset List.mem_cons_self) h

/-- Parameters that do not hold their own end are not cut short. -/
theorem end_not_before {u after : Text} (hparams : ¬ paramsEnd <:+: params)
    (hu : u ++ paramsEnd <+: params ++ (paramsEnd ++ after)) : params.length ≤ u.length := by
  by_contra hlt
  obtain ⟨d, rfl⟩ : u <+: params := List.prefix_of_prefix_length_le
    ((List.prefix_append u paramsEnd).trans hu) (List.prefix_append _ _) (by omega)
  rw [List.append_assoc, List.prefix_append_right_inj] at hu
  by_cases hlen : paramsEnd.length ≤ d.length
  · have hd := List.prefix_of_prefix_length_le hu (List.prefix_append _ _) hlen
    exact hparams (hd.isInfix.trans (List.suffix_append u d).isInfix)
  · obtain ⟨e, he⟩ := List.prefix_of_prefix_length_le (List.prefix_append _ _) hu
      (Nat.le_of_not_le hlen)
    obtain ⟨tail, hend, htail⟩ := paramsEnd_head
    rw [← he, List.prefix_append_right_inj, he, hend] at hu
    rcases e with _ | ⟨c, e⟩
    · rw [List.append_nil] at he
      exact hlen (he ▸ le_rfl)
    · obtain ⟨rfl, -⟩ := List.cons_prefix_cons.1 hu
      rcases d with _ | ⟨c', d⟩
      · simp at hlt
      · rw [hend, List.cons_append] at he
        exact htail ((List.cons.inj he).2 ▸ by simp)

theorem heads_of_parts {base what : Text} (hbase : base ∈ bases) (hwhat : what ≠ [])
    (hname : 0x28 ∉ what) (hne : params ≠ []) (hparams : ¬ paramsEnd <:+: params) (after : Text) :
    (⟨base, what, params⟩ : Builder).Heads
      ((⟨base, what, params⟩ : Builder).heading ++ after) := by
  refine ⟨⟨hbase, hwhat, hne, List.prefix_append _ _⟩, fun c hc => ?_⟩
  simp only [heading, List.append_assoc] at hc
  have hstart := ((matches_iff hbase c).1 hc).2.start
  rw [List.cons_append, List.append_assoc] at hstart
  rcases prefix_at_first hname hstart with ⟨rfl, hrest⟩ | ⟨m, hm, -⟩
  · exact .inr ⟨rfl, end_not_before hparams hrest⟩
  · exact .inl (by simp [hm])

end End

/-- A parameter as it is written: a name, and its type if it is not shared with the next one. -/
structure Parameter where
  lead : Text
  name : Text
  gap : Text
  type : Text

namespace Parameter

def text (p : Parameter) : Text := p.lead ++ (p.name ++ (p.gap ++ p.type))

/-- The parameter takes any number of values. -/
def Variadic (p : Parameter) : Prop := dots <+: p.type

instance (p : Parameter) : Decidable p.Variadic := inferInstanceAs (Decidable (dots <+: p.type))

/-- What passes the parameter on: its name, spread if it takes any number of values. -/
def argument (p : Parameter) : Text := if p.Variadic then p.name ++ dots else p.name

structure WellFormed (p : Parameter) : Prop where
  lead : p.lead.isBlank
  name_ne : p.name ≠ []
  name_solid : ∀ g ∈ Text.glyphs p.name, g.isSpace = false
  name_comma : 0x2C ∉ p.name
  name_paren : 0x29 ∉ p.name
  gap : p.gap.isBlank
  type_solid : ∀ g, (Text.glyphs p.type).head? = some g → g.isSpace = false
  type_comma : 0x2C ∉ p.type
  type_end : ¬ paramsEnd <:+: p.type

instance (p : Parameter) : Decidable p.WellFormed :=
  decidable_of_iff (p.lead.isBlank ∧ p.name ≠ [] ∧ (∀ g ∈ Text.glyphs p.name, g.isSpace = false)
    ∧ 0x2C ∉ p.name ∧ 0x29 ∉ p.name ∧ p.gap.isBlank
    ∧ (∀ g, (Text.glyphs p.type).head? = some g → g.isSpace = false) ∧ 0x2C ∉ p.type
    ∧ ¬ paramsEnd <:+: p.type)
    ⟨fun ⟨lead, name_ne, name_solid, name_comma, name_paren, gap, type_solid, type_comma,
        type_end⟩ =>
      { lead, name_ne, name_solid, name_comma, name_paren, gap, type_solid, type_comma, type_end },
      fun h => ⟨h.lead, h.name_ne, h.name_solid, h.name_comma, h.name_paren, h.gap, h.type_solid,
        h.type_comma, h.type_end⟩⟩

/-- White space tells the name from the type. -/
def Spaced (p : Parameter) : Prop := p.gap ≠ [] ∨ p.type = []

instance (p : Parameter) : Decidable p.Spaced := inferInstanceAs (Decidable (_ ∨ _))

section Reading

variable {p : Parameter}

/-- The fields of a parameter are its name and those of its type. -/
theorem fields_text (h : p.WellFormed) (hspaced : p.Spaced) :
    Text.fields p.text = p.name :: Text.fields p.type := by
  have hhead := Text.blank_head h.gap hspaced
  have hglyphs : Text.glyphs p.text = Text.glyphs p.lead
      ++ (Text.glyphs p.name ++ (Text.glyphs p.gap ++ Text.glyphs p.type)) := by
    rw [text, Text.glyphs_blank h.lead, Text.glyphs_append_space hhead, Text.glyphs_blank h.gap]
  rw [Text.glyphs_blank h.gap] at hhead
  rw [Text.fields_eq, Text.fields_eq, hglyphs, Text.runs_spaces (Text.isBlank_iff.1 h.lead),
    Text.runs_append (Token.glyphs_ne_nil h.name_ne) h.name_solid hhead,
    Text.runs_spaces (Text.isBlank_iff.1 h.gap), List.map_cons, Text.bytes_glyphs]

theorem dots_solid : ∀ b ∈ dots, Text.Solid b := by decide +kernel

theorem argument?_text (h : p.WellFormed) (hspaced : p.Spaced) :
    argument? p.text = some p.argument := by
  rw [argument?, fields_text h hspaced]
  by_cases htype : p.type = []
  · have hvariadic : ¬ p.Variadic := by
      rw [Variadic, htype, List.prefix_nil]
      decide
    rw [argument, if_neg hvariadic, htype]
    rfl
  · obtain ⟨run, rest, hglyphs, hrun, hsolid, hrest⟩ :=
      Text.run_append_rest (Token.glyphs_ne_nil htype) h.type_solid
    have hfields : Text.fields p.type = Text.bytes run :: (Text.runs rest).map Text.bytes := by
      rw [Text.fields_eq, hglyphs, Text.runs_append hrun hsolid hrest, List.map_cons]
    rw [hfields, argument]
    simp only [Text.after?_isSome, Text.solid_prefix dots_solid hglyphs hrest]
    rfl

theorem text_comma (h : p.WellFormed) : 0x2C ∉ p.text := by
  have hcomma : Text.Solid 0x2C := by decide
  simp [text, hcomma.not_mem_blank h.lead, hcomma.not_mem_blank h.gap, h.name_comma, h.type_comma]

theorem text_ne (h : p.WellFormed) : p.text ≠ [] := by simp [text, h.name_ne]

theorem text_end (h : p.WellFormed) : ¬ paramsEnd <:+: p.text := by
  have hparen : Text.Solid 0x29 := by decide
  have hfront : 0x29 ∉ p.lead ++ (p.name ++ p.gap) := by
    simp [hparen.not_mem_blank h.lead, hparen.not_mem_blank h.gap, h.name_paren]
  obtain ⟨tail, hend, -⟩ := paramsEnd_head
  have htext : p.text = (p.lead ++ (p.name ++ p.gap)) ++ p.type := by simp [text]
  have htype := h.type_end
  rw [hend] at htype ⊢
  rw [htext]
  exact fun hx => htype (infix_behind hfront hx)

end Reading

section Lists

variable {ps : List Parameter}

/-- The parameters of a method, as they are written between its parentheses. -/
def list (ps : List Parameter) : Text := Text.join (Text.ofString ",") (ps.map text)

theorem splitOn_list (hne : ps ≠ []) (h : ∀ p ∈ ps, p.WellFormed) :
    Text.splitOn 0x2C (list ps) = ps.map text := by
  have hcomma : ∀ t ∈ ps.map text, 0x2C ∉ t := by
    intro t ht
    obtain ⟨p, hp, rfl⟩ := List.mem_map.1 ht
    exact text_comma (h p hp)
  rw [list, show Text.ofString "," = [0x2C] by decide,
    Text.splitOn_join (by simpa using hne) hcomma]

theorem arguments?_list (hne : ps ≠ []) (h : ∀ p ∈ ps, p.WellFormed)
    (hspaced : ∀ p ∈ ps, p.Spaced) : arguments? (list ps) = some (ps.map argument) := by
  rw [arguments?, splitOn_list hne h, mapM_eq_some, List.forall₂_map_left_iff,
    List.forall₂_map_right_iff, List.forall₂_same]
  exact fun p hp => argument?_text (h p hp) (hspaced p hp)

theorem list_ne (hne : ps ≠ []) (h : ∀ p ∈ ps, p.WellFormed) : list ps ≠ [] := by
  obtain ⟨p, ps, rfl⟩ := List.exists_cons_of_ne_nil hne
  simp [list, Text.join, text_ne (h p List.mem_cons_self)]

theorem list_end (h : ∀ p ∈ ps, p.WellFormed) : ¬ paramsEnd <:+: list ps := by
  intro hx
  obtain ⟨t, ht, hx⟩ := Text.infix_of_join paramsEnd_ne (by decide : 0x2C ∉ paramsEnd) hx
  obtain ⟨p, hp, rfl⟩ := List.mem_map.1 ht
  exact text_end (h p hp) hx

end Lists

end Parameter

end Builder

end LineForth
