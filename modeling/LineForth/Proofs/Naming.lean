import LineForth.Proofs.Binding

/-!
# Naming a line

Words that are written on a line can be run as they stand, or be given a name which is run later.
The two go through different code: running looks a word up and does what it finds, a definition
looks it up and keeps an action for when the name is called.  They come to the same reply and the
same stack, be it after success, after a failure half way or after a fault.

Each ordinary word is found alike by both (`Ordinary.found`), and its action does what the word does
(`perform_actionsOf`).  Numbers are not taken for markers, since only the builtin markers are
markers and their names start with a letter.
-/

namespace LineForth

open Dictionary

section Numbers

theorem Text.fold_cons {b : UInt8} (hb : b.toNat < 0x41) (t : Text) :
    Text.fold (b :: t) = b :: Text.fold t := by
  have hs : isScalar b.toNat := by
    simp only [isScalar, Bool.or_eq_true, decide_eq_true_eq]
    omega
  have hlower : lowerCode b.toNat = b.toNat := by
    unfold lowerCode
    rw [if_pos (by omega), if_neg (by omega)]
  have hbyte : (Glyph.char (Char.ofNat b.toNat)).lower.bytes = [b] := by
    simp only [Glyph.lower, toNat_ofNat hs, hlower, Glyph.bytes, charBytes, codeBytes]
    rw [if_pos (by omega), toUInt8_eq rfl]
  unfold Text.fold
  rw [Text.glyphs_cons (by omega), List.map_cons, Text.bytes, List.flatMap_cons, hbyte]
  rfl

theorem Decimal.toNat?_bytes {t : Text} {n : Nat} (h : Decimal.toNat? t = some n) :
    t ≠ [] ∧ ∀ b ∈ t, 0x30 ≤ b.toNat ∧ b.toNat ≤ 0x39 := by
  unfold Decimal.toNat? at h
  split_ifs at h with hall
  refine ⟨hall.1, fun b hb => ?_⟩
  have := List.all_eq_true.1 hall.2 b hb
  simpa [Decimal.isDigit] using this

/-- A number is written in digits, after a sign perhaps. -/
theorem Decimal.toInt?_bytes {t : Text} {n : Int} (h : Decimal.toInt? t = some n) :
    t ≠ [] ∧ ∀ b ∈ t, 0x2B ≤ b.toNat ∧ b.toNat ≤ 0x39 := by
  unfold Decimal.toInt? at h
  split at h
  · cases h
  · rename_i b rest
    refine ⟨by simp, fun b' hb' => ?_⟩
    have hdigits : ∀ {t : Text}, Decimal.toNat? t ≠ none → b' ∈ t →
        0x30 ≤ b'.toNat ∧ b'.toNat ≤ 0x39 := by
      intro t hne hb'
      obtain ⟨m, hm⟩ := Option.ne_none_iff_exists'.1 hne
      exact (Decimal.toNat?_bytes hm).2 b' hb'
    split_ifs at h with h1 h2
    · rcases List.mem_cons.1 hb' with rfl | hb'
      · rw [h1]
        decide
      · have := hdigits (by rintro hm; rw [hm] at h; cases h) hb'
        omega
    · rcases List.mem_cons.1 hb' with rfl | hb'
      · rw [h2]
        decide
      · have := hdigits (by rintro hm; rw [hm] at h; cases h) hb'
        omega
    · have := hdigits (by rintro hm; rw [hm] at h; cases h) hb'
      omega

/-- No number has the name of a marker. -/
theorem Cell.fold_ne_marker {t : Text} {c : Cell} (h : Cell.ofText? t = some c) (k : Marker) :
    Text.fold t ≠ k.text := by
  unfold Cell.ofText? at h
  split at h
  · cases h
  · rename_i n hn
    obtain ⟨hne, hbytes⟩ := Decimal.toInt?_bytes hn
    obtain ⟨b, rest, rfl⟩ := List.exists_cons_of_ne_nil hne
    have hb := hbytes b List.mem_cons_self
    rw [Text.fold_cons (by omega)]
    intro hk
    have hletter : k.text.head?.all fun x => 0x41 ≤ x.toNat := by
      cases k <;> decide
    rw [← hk, List.head?_cons, Option.all_some, decide_eq_true_eq] at hletter
    omega

end Numbers

section Words

/-- A word that means the same wherever it stands: one that is defined and no marker, a number, or
the semicolon. -/
def Ordinary (d : Dictionary) (x : Text) : Prop :=
  (∃ e, d.lookup x = some e ∧ e.meaning.marker? = none) ∨ (Cell.ofText? x).isSome
    ∨ x = Draft.semicolon

instance (d : Dictionary) (x : Text) : Decidable (Ordinary d x) :=
  decidable_of_iff ((∃ e ∈ (d.lookup x).toList, e.meaning.marker? = none)
    ∨ (Cell.ofText? x).isSome ∨ x = Draft.semicolon) (by simp [Ordinary])

/-- A marker is found under its own name only. -/
theorem fold_eq_marker {i : Interpreter} (hi : i.Sound) {x : Text} {e : Entry}
    (he : i.dict.lookup x = some e) {k : Marker} (hm : e.meaning = .marker k) :
    Text.fold x = k.text := by
  obtain ⟨hmem, hname⟩ := nameOf_of_lookup he
  rw [← hname]
  exact hi.markers e hmem k hm

theorem marker?_of_number {i : Interpreter} (hi : i.Sound) {x : Text} {c : Cell}
    (hx : Cell.ofText? x = some c) {e : Entry} (he : i.dict.lookup x = some e) :
    e.meaning.marker? = none := by
  rcases hm : e.meaning with k | p | w | ⟨name, code⟩
  · exact absurd (fold_eq_marker hi he hm) (Cell.fold_ne_marker hx k)
  · rfl
  · rfl
  · rfl

variable {d : Dictionary} {x : Text}

/-- The ways in which an ordinary word is found. -/
inductive Found (d : Dictionary) (x : Text) : Prop
  | entry {e : Entry} : d.lookup x = some e → e.meaning.marker? = none → Found d x
  | number {c : Cell} : d.lookup x = none → Cell.ofText? x = some c → Found d x
  | semicolon : d.lookup x = none → x = Draft.semicolon → Found d x

theorem Ordinary.found {i : Interpreter} (hi : i.Sound)
    (hsemi : i.dict.lookup Draft.semicolon = none) (h : Ordinary i.dict x) : Found i.dict x := by
  rcases h with ⟨e, he, hm⟩ | hnum | rfl
  · exact .entry he hm
  · obtain ⟨c, hc⟩ := Option.isSome_iff_exists.1 hnum
    rcases he : i.dict.lookup x with _ | e
    · exact .number he hc
    · exact .entry he (marker?_of_number hi hc he)
  · exact .semicolon hsemi rfl

theorem ofText?_semicolon : Cell.ofText? Draft.semicolon = none := by decide

theorem Found.accepted (h : Found d x) : Draft.rejection d (.word x) = none := by
  unfold Draft.rejection Draft.resolve
  cases h with
  | entry he hm => simp only [Token.word, he, hm]
  | number he hc => simp only [Token.word, he, hc]
  | semicolon he hx =>
    subst hx
    simp [Token.word, he, ofText?_semicolon]

/-- An ordinary word is run by its action, or has none and does nothing. -/
theorem Found.action (h : Found d x) :
    (∃ a : Action, a.isPlain ∧ Draft.actionOf d (.word x) = some a
        ∧ ∀ m, Interpreter.execute d (.word x) m = a.run d.run m)
      ∨ (Draft.actionOf d (.word x) = none
        ∧ ∀ m, Interpreter.execute d (.word x) m = (m, .done [])) := by
  unfold Draft.actionOf Draft.resolve Interpreter.execute
  cases h with
  | @entry e he hm =>
    refine .inl ⟨.call (Text.fold x) e.address, rfl, ?_, fun m => ?_⟩
    · simp only [Token.word, he, hm]
    · simp [Token.word, he, hm, Action.run]
  | @number c he hc =>
    refine .inl ⟨.push c, rfl, ?_, fun m => ?_⟩
    · simp only [Token.word, he, hc]
    · simp [Token.word, he, hc, Action.run]
  | semicolon he hx =>
    subst hx
    refine .inr ⟨?_, fun m => ?_⟩ <;> simp [Token.word, he, ofText?_semicolon]

end Words

section Runs

theorem runTokens_after (d : Dictionary) (ts : List Token) (m : Machine) :
    (Interpreter.runTokens d ts m).2.after [] = (Interpreter.runTokens d ts m).2 := by
  cases ts with
  | nil => rfl
  | cons t ts => exact andThen_after _ _

/-- Code that is kept for later does what its words do at once. -/
theorem perform_actionsOf (d : Dictionary) (name : Text) : ∀ (xs : List Text),
    (∀ x ∈ xs, Found d x) → ∀ m m' : Machine, SameStack m m' →
      Matching SameStack (perform d.run name [] [] (Draft.actionsOf d (xs.map .word)) m)
        (Interpreter.runTokens d (xs.map .word) m')
  | [], _, _, _, hm => ⟨hm, rfl⟩
  | x :: xs, hxs, m, m', hm => by
    have ih := perform_actionsOf d name xs fun y hy => hxs y (List.mem_cons_of_mem _ hy)
    unfold Draft.actionsOf at ih ⊢
    rw [List.map_cons, Interpreter.runTokens]
    rcases (hxs x List.mem_cons_self).action with ⟨a, ha, haction, hrun⟩ | ⟨haction, hrun⟩
    · have hstep : Matching SameStack (a.run d.run (m.event (.stepped name a))) (a.run d.run m') :=
        Action.run_sim simulation_sameStack a
          (fun _ k _ _ _ hn => runAt_sameStack d.entries k hn) hm
      rw [List.filterMap_cons_some haction, perform_live _ name ha rfl, hrun]
      exact hstep.andThen ih
    · rw [List.filterMap_cons_none haction, hrun, andThen_done, runTokens_after]
      exact ih m m' hm

/-- A word that was just defined runs its code in the dictionary it was defined in. -/
theorem execute_added (d : Dictionary) (w : Text) (code : List Action) (m : Machine) :
    Interpreter.execute (d.add w (.compiled w code)) (.word w) m = runCompiled d.run w code m := by
  have hlookup := lookup_add_self d w (.compiled w code)
  have hmark : (d.fresh w (.compiled w code)).meaning.marker? = none := rfl
  unfold Interpreter.execute
  simp only [Token.word, hlookup, hmark, Bool.false_eq_true, if_false]
  unfold Dictionary.run
  rw [add_entries, runAt_cons_self]
  rfl

theorem runCompiled_actionsOf (d : Dictionary) (name : Text) {xs : List Text}
    (hxs : ∀ x ∈ xs, Found d x) {m m' : Machine} (hm : SameStack m m') :
    Matching SameStack (runCompiled d.run name (Draft.actionsOf d (xs.map .word)) m)
      (Interpreter.runTokens d (xs.map .word) m') :=
  perform_actionsOf d name xs hxs { m with trace := m.trace.indent indentation } m' hm

end Runs

section Lines

open Interpreter

/-- The line that gives the name `w` to the words `xs`. -/
def naming (w : Text) (xs : List Text) : Text :=
  Text.join [Text.space] (Text.ofString ":" :: w :: (xs ++ [Draft.semicolon]))

def StartsWithColon (x : Text) : Prop := (Text.glyphs x).head? = some (.char ':')

instance (x : Text) : Decidable (StartsWithColon x) :=
  inferInstanceAs (Decidable (_ = _))

theorem isWord_colon : Token.IsWord (Text.ofString ":") := by decide

theorem isWord_semicolon : Token.IsWord Draft.semicolon := by decide

theorem naming_glyphs (w : Text) (xs : List Text) :
    Text.glyphs (naming w xs)
      = Text.glyphs (Text.ofString ":") ++ Token.spaced (w :: (xs ++ [Draft.semicolon])) :=
  Token.glyphs_join _ _

theorem naming_opens (w : Text) (xs : List Text) :
    Token.opensDefinition (Text.glyphs (naming w xs)) := by
  have hcolon : Text.glyphs (Text.ofString ":") = [.char ':'] := by decide
  have hspace : Glyph.isSpace (.char ':') = false := by decide
  rw [naming_glyphs, hcolon]
  simp [Token.opensDefinition, hspace]

theorem naming_closes (w : Text) (xs : List Text) :
    Token.closesDefinition (Text.glyphs (naming w xs)) := by
  have hsemi : Text.glyphs Draft.semicolon = [.char ';'] := by decide
  have hspace : Glyph.isSpace (.char ';') = false := by decide
  rw [naming_glyphs]
  simp [Token.closesDefinition, Token.spaced, hsemi, hspace]

theorem naming_heading {w : Text} (hw : Token.IsWord w) (xs : List Text) :
    heading (Text.glyphs (naming w xs)) = .ok (w, Token.spaced (xs ++ [Draft.semicolon])) := by
  have hname : Token.next (Token.spaced (w :: (xs ++ [Draft.semicolon])))
      = (.ok (.word w), Token.spaced (xs ++ [Draft.semicolon])) := by
    rw [show Token.spaced (w :: (xs ++ [Draft.semicolon]))
      = .char ' ' :: (Text.glyphs w ++ Token.spaced (xs ++ [Draft.semicolon])) from rfl,
      Token.next_space, Token.next_word hw (Token.spaced_head _)]
  unfold heading
  rw [naming_glyphs, Token.next_word isWord_colon (Token.spaced_head _)]
  simp only [hname]
  rfl

theorem word_opens {x : Text} (hx : Token.IsWord x) (hcolon : ¬ StartsWithColon x)
    (rest : List Glyph) : Token.opensDefinition (Text.glyphs x ++ rest) = false := by
  unfold StartsWithColon at hcolon
  rw [Token.opensDefinition]
  rcases hg : Text.glyphs x with _ | ⟨g, gs⟩
  · exact absurd hg (Token.glyphs_ne_nil hx.nonempty)
  · have hspace := hx.noSpace g (by rw [hg]; exact List.mem_cons_self)
    rw [hg] at hcolon
    simpa [hspace] using hcolon

theorem join_opens {xs : List Text} (hxs : ∀ x ∈ xs, Token.IsWord x)
    (hfirst : ∀ x, xs.head? = some x → ¬ StartsWithColon x) :
    Token.opensDefinition (Text.glyphs (Text.join [Text.space] xs)) = false := by
  rcases xs with _ | ⟨x, xs⟩
  · decide
  · rw [Token.glyphs_join]
    exact word_opens (hxs x List.mem_cons_self) (hfirst x rfl) _

variable {xs : List Text} {w : Text}

theorem body_accepted {d : Dictionary} (hsemi : d.lookup Draft.semicolon = none)
    (hxs : ∀ x ∈ xs, Token.IsWord x) (hfound : ∀ x ∈ xs, Found d x) :
    Draft.bodyFailure d (Token.spaced (xs ++ [Draft.semicolon])) = none
      ∧ Draft.actionsOf d (Token.scan (Token.spaced (xs ++ [Draft.semicolon]))).tokens
        = Draft.actionsOf d (xs.map .word) := by
  have hwords : ∀ x ∈ xs ++ [Draft.semicolon], Token.IsWord x ∧ Found d x := by
    intro x hx
    rcases List.mem_append.1 hx with hx | hx
    · exact ⟨hxs x hx, hfound x hx⟩
    · rw [List.mem_singleton.1 hx]
      exact ⟨isWord_semicolon, .semicolon hsemi rfl⟩
  have hscan := Token.scan_spaced (xs ++ [Draft.semicolon]) fun x hx => (hwords x hx).1
  have hnothing : Draft.actionOf d (.word Draft.semicolon) = none := by
    simp [Draft.actionOf, Draft.resolve, Token.word, hsemi, ofText?_semicolon]
  constructor
  · unfold Draft.bodyFailure
    rw [hscan, Option.or_none, List.findSome?_eq_none_iff]
    intro t ht
    obtain ⟨x, hx, rfl⟩ := List.mem_map.1 ht
    exact (hwords x hx).2.accepted
  · rw [hscan]
    unfold Draft.actionsOf
    simp [hnothing]

theorem scan_word (hw : Token.IsWord w) : Token.scan (Text.glyphs w) = ⟨[.word w], none⟩ := by
  have h := Token.scan_join [w] (by simpa using hw)
  simpa [Text.join] using h

theorem runTokens_one (d : Dictionary) (t : Token) (m : Machine) :
    runTokens d [t] m = ((execute d t m).1, (execute d t m).2.after []) := by
  rw [runTokens]
  rcases execute d t m with ⟨m', out | ⟨out, f⟩ | ⟨word, place⟩⟩ <;> simp [runTokens]

end Lines

/-- Defining ordinary words under a name and then running the name is running the words: the answer
or the fault is the same, and so is the stack.  The definition leaves one entry behind. -/
theorem named_line {i : Interpreter} (hi : i.Reachable) (hmode : i.inDefinition = false)
    (hsemi : i.dict.lookup Draft.semicolon = none) {xs : List Text}
    (hxs : ∀ x ∈ xs, Token.IsWord x ∧ Ordinary i.dict x)
    (hfirst : ∀ x, xs.head? = some x → ¬ StartsWithColon x) {w : Text} (hw : Token.IsWord w)
    (hcolon : ¬ StartsWithColon w) :
    let defined := i.readLine (naming w xs)
    let named := defined.1.readLine w
    let direct := i.readLine (Text.join [Text.space] xs)
    defined.2 = .answer (Text.ofString "  ok")
      ∧ named.2 = direct.2 ∧ named.1.stack = direct.1.stack
      ∧ direct.1.dict = i.dict
      ∧ ∃ code e, named.1.dict = i.dict.add w (.compiled w code)
        ∧ named.1.dict.entries = e :: i.dict.entries ∧ named.1.dict.nameOf e = Text.fold w := by
  intro defined named direct
  have hwords : ∀ x ∈ xs, Token.IsWord x := fun x hx => (hxs x hx).1
  have hfound : ∀ x ∈ xs, Found i.dict x := fun x hx => (hxs x hx).2.found hi.sound hsemi
  obtain ⟨hbody, hcode⟩ := body_accepted hsemi hwords hfound
  obtain ⟨hstack₁, hdict₁, hmode₁, hreply₁⟩ := (Interpreter.readLine_effect i _).of_closed
    (naming_opens w xs) (naming_heading hw xs) hbody (naming_closes w xs)
  rw [hcode] at hdict₁
  have hopens := word_opens hw hcolon []
  rw [List.append_nil] at hopens
  obtain ⟨m₁, hm₁, hstack₂, hdict₂, -, hreply₂⟩ :=
    (Interpreter.readLine_effect defined.1 w).of_immediate hopens
      (congrArg Mode.inDefinition hmode₁)
  obtain ⟨m₂, hm₂, hstack₃, hdict₃, -, hreply₃⟩ :=
    (Interpreter.readLine_effect i (Text.join [Text.space] xs)).of_immediate
      (join_opens hwords hfirst) hmode
  rw [scan_word hw, hdict₁, runTokens_one, execute_added] at hstack₂ hreply₂
  rw [Token.scan_join xs hwords] at hstack₃ hreply₃
  rw [Interpreter.ofOutcome_after] at hreply₂
  have hsame : SameStack m₁ m₂ := by
    unfold SameStack
    rw [hm₁, hm₂]
    exact hstack₁
  obtain ⟨hstack, houtcome⟩ := runCompiled_actionsOf i.dict w hfound hsame
  have hdict : named.1.dict = _ := hdict₂.trans hdict₁
  refine ⟨hreply₁, ?_, ?_, hdict₃, Draft.actionsOf i.dict (xs.map .word), ?_⟩
  · rw [hreply₂, hreply₃, houtcome]
  · rw [hstack₂, hstack₃]
    exact hstack
  · rw [hdict]
    exact ⟨_, rfl, add_entries _ _ _, nameOf_fresh _ _ _⟩

/-- The name is one of the words, in another case, and the words end in a failure. -/
theorem named_line_double :
    let i := (Session.new []).core.readLines [Text.ofString ": double dup + ;"]
    let xs := ["3", "double", ";", ".", "7", "0", "/"].map Text.ofString
    let w := Text.ofString "Double"
    ((i.readLine (naming w xs)).1.readLine w).2
        = .answer (Text.space :: Failure.divisionByZero.message)
      ∧ ((i.readLine (naming w xs)).1.readLine w).2 = (i.readLine (Text.join [Text.space] xs)).2
      ∧ ((i.readLine (naming w xs)).1.readLine w).1.stack
        = (i.readLine (Text.join [Text.space] xs)).1.stack := by
  intro i xs w
  have hdirect : (i.readLine (Text.join [Text.space] xs)).2
      = .answer (Text.space :: Failure.divisionByZero.message) := by decide +kernel
  have hi : i.Reachable := ⟨[], Stack.listing, _, rfl⟩
  obtain ⟨-, hreply, hstack, -⟩ := named_line hi
    (show i.inDefinition = false by decide +kernel)
    (show i.dict.lookup Draft.semicolon = none by decide +kernel)
    (show ∀ x ∈ xs, Token.IsWord x ∧ Ordinary i.dict x by decide +kernel)
    (show ∀ x, xs.head? = some x → ¬ StartsWithColon x by
      intro x hx
      obtain rfl := Option.some.inj hx
      decide)
    (show Token.IsWord w by decide) (show ¬ StartsWithColon w by decide)
  exact ⟨hreply.trans hdirect, hreply, hstack⟩

end LineForth
