import LineForth.Proofs.Binding
import LineForth.Proofs.LowerCase
import LineForth.Proofs.Naming
import LineForth.Proofs.Writing

/-!
# Listings are source

The listing of a definition is a line that compiles to the same code, in the dictionary in which the
definition was compiled.  An action is listed as a token (`Action.token`), which need not be the
token it came from: a name is in lower case by then, and a quoted text that happens to be a name, a
number or a marker has become one.

What the listing has to rely on is said of the tokens that can be read at all (`Token.Readable`):
a quoted text has no double quote in it.  A name could be anything, since a quoted text can be made
a name too; the names are asked to be words.  Then each token of the listing is read back and stands
for the action it was written for (`Resolves.token`).
-/

namespace LineForth

open Dictionary

namespace Token

section Readable

/-- A token that is read from some place in some line. -/
def Readable (t : Token) : Prop :=
  ∃ (line : Text) (rest : List Glyph), rest <:+ Text.glyphs line ∧ (next rest).1 = .ok t

theorem readable_of_mem_scan {line : Text} {t : Token} (h : t ∈ (scan (Text.glyphs line)).tokens) :
    t.Readable := by
  have hscan : ∀ {rest s}, Scans rest s → rest <:+ Text.glyphs line → t ∈ s.tokens →
      t.Readable := by
    intro rest s hs
    induction hs with
    | ended => simp
    | failed => simp
    | @token rest rest' t' s hmore hnext _ ih =>
      intro hsuffix ht
      rcases List.mem_cons.1 ht with rfl | ht
      · exact ⟨line, rest, hsuffix, by rw [hnext]⟩
      · have hrest := next_suffix rest
        rw [hnext] at hrest
        exact ih (hrest.trans hsuffix) ht
  exact hscan (scans_scan _) (List.suffix_refl _) h

theorem Readable.nonempty {t : Token} (h : t.Readable) : t.text ≠ [] := by
  obtain ⟨line, rest, -, hnext⟩ := h
  unfold next at hnext
  simp only [] at hnext
  split at hnext <;> obtain ⟨hne, rfl⟩ := make_ok hnext <;> exact Text.bytes_ne_nil hne

/-- A quoted text ends before the first double quote. -/
theorem Readable.noQuote {t : Token} (h : t.Readable) (hq : t.quoted) : quote ∉ t.text := by
  obtain ⟨line, rest, hsuffix, hnext⟩ := h
  unfold next at hnext
  simp only [] at hnext
  split at hnext
  · rename_i body hl
    obtain ⟨-, rfl⟩ := make_ok hnext
    intro hmem
    obtain ⟨g, hg, hb⟩ := List.mem_flatMap.1 hmem
    have hbody : body <:+ Text.glyphs line :=
      (literal?_suffix hl).trans ((skip_suffix rest false).trans hsuffix)
    have hline : g ∈ Text.glyphs line :=
      hbody.subset ((List.takeWhile_prefix _).subset hg)
    have hne := List.mem_takeWhile_imp hg
    rw [Text.eq_char_of_mem_bytes hline (by decide) hb] at hne
    revert hne
    decide
  · obtain ⟨-, rfl⟩ := make_ok hnext
    cases hq

end Readable

end Token

section Numbers

theorem glyphs_digits : ∀ {t : Text}, (∀ b ∈ t, 0x2B ≤ b.toNat ∧ b.toNat ≤ 0x39) →
    ∀ g ∈ Text.glyphs t, g.isSpace = false
  | [], _, g, hg => by cases hg
  | b :: t, h, g, hg => by
    have hb := h b List.mem_cons_self
    rw [Text.glyphs_cons (by omega)] at hg
    rcases List.mem_cons.1 hg with rfl | hg
    · have hs : isScalar b.toNat := by
        simp only [isScalar, Bool.or_eq_true, decide_eq_true_eq]
        omega
      simp only [Glyph.isSpace, Text.toNat_ofNat hs, isSpaceCode, Bool.or_eq_false_iff,
        Bool.and_eq_false_iff, decide_eq_false_iff_not, beq_eq_false_iff_ne]
      omega
    · exact glyphs_digits (fun b' hb' => h b' (List.mem_cons_of_mem _ hb')) g hg

variable {t : Text} {c : Cell}

theorem Cell.toInt?_of_ofText? (h : Cell.ofText? t = some c) :
    Decimal.toInt? t = some c.toInt ∧ c.text = t := by
  unfold Cell.ofText? at h
  split at h
  · cases h
  · rename_i n hn
    split_ifs at h with hrange
    obtain ⟨hmin, hmax, htext⟩ := hrange
    obtain rfl := Option.some.inj h
    rw [Int64.toInt_minValue] at hmin
    rw [Int64.toInt_maxValue] at hmax
    have hc : (Int64.ofInt n).toInt = n := Int64.toInt_ofInt_of_le hmin (by omega)
    exact ⟨by rw [hn, hc], by rw [Cell.text, hc, htext]⟩

theorem Cell.isWord_of_ofText? (h : Cell.ofText? t = some c) : Token.IsWord t := by
  obtain ⟨hne, hbytes⟩ := Decimal.toInt?_bytes (Cell.toInt?_of_ofText? h).1
  refine ⟨hne, glyphs_digits hbytes, ?_, ?_⟩
  · rintro rfl
    revert hbytes
    decide
  · rintro rfl
    revert hbytes
    decide

end Numbers

/-- The token as which an action is listed. -/
def Action.token : Action → Token
  | .call name _ => .word name
  | .push c => .word c.text
  | .print t => .string t
  | .mark m => .word m.text

section Listing

theorem Action.text_eq (a : Action) : a.text = a.token.written := by
  cases a <;> rfl

/-- The listing of code without a name is a row, with a space in front of every token. -/
theorem listing_eq (code : List Action) :
    Action.listing [] code = (Token.Row.plain (code.map Action.token)).text := by
  simp [Action.listing, Text.join, Token.Row.text, Token.Row.plain, List.flatMap_map,
    Action.text_eq]

end Listing

section Resolving

/-- The ways in which a token comes to stand for an action. -/
inductive Resolves (d : Dictionary) (t : Token) : Action → Prop
  | mark {e : Entry} {m : Marker} : d.lookup t.text = some e → e.meaning = .marker m →
      Resolves d t (.mark m)
  | call {e : Entry} : d.lookup t.text = some e → e.meaning.marker? = none →
      Resolves d t (.call (Text.fold t.text) e.address)
  | push {c : Cell} : d.lookup t.text = none → Cell.ofText? t.text = some c →
      Resolves d t (.push c)
  | print : d.lookup t.text = none → Cell.ofText? t.text = none → t.quoted →
      Resolves d t (.print t.text)

theorem resolve_iff {d : Dictionary} {t : Token} {a : Action} :
    Draft.resolve d t = .ok (some a) ↔ Resolves d t a := by
  constructor
  · intro h
    unfold Draft.resolve at h
    split at h
    · rename_i e he
      rcases hm : e.meaning with m | p | w | ⟨name, code⟩ <;>
        simp only [hm, Meaning.marker?, Except.ok.injEq, Option.some.injEq] at h <;> subst h
      · exact .mark he hm
      · exact .call he (by rw [hm]; rfl)
      · exact .call he (by rw [hm]; rfl)
      · exact .call he (by rw [hm]; rfl)
    · rename_i he
      split at h
      · rename_i c hc
        simp only [Except.ok.injEq, Option.some.injEq] at h
        subst h
        exact .push he hc
      · rename_i hc
        split_ifs at h with hq
        · simp only [Except.ok.injEq, Option.some.injEq] at h
          subst h
          exact .print he hc hq
        · cases h
  · intro h
    unfold Draft.resolve
    cases h with
    | mark he hm => simp [he, hm, Meaning.marker?]
    | call he hm => simp [he, hm]
    | push he hc => simp [he, hc]
    | print he hc hq => simp [he, hc, hq]

theorem lookup_congr (d : Dictionary) {s t : Text} (h : Text.fold s = Text.fold t) :
    d.lookup s = d.lookup t := by
  simp only [lookup, symbol, h]

/-- Every name can be read as a word. -/
def Dictionary.WordNames (d : Dictionary) : Prop :=
  ∀ s ∈ d.names, (∀ g ∈ Text.glyphs s, g.isSpace = false) ∧ s ≠ Text.ofString ".\""
    ∧ s ≠ Text.ofString "("

instance (d : Dictionary) : Decidable d.WordNames :=
  inferInstanceAs (Decidable (∀ s ∈ d.names, (∀ g ∈ Text.glyphs s, g.isSpace = false)
    ∧ s ≠ Text.ofString ".\"" ∧ s ≠ Text.ofString "("))

theorem isWord_of_lookup {d : Dictionary} (hd : d.WordNames) {t : Text} (ht : t ≠ []) {e : Entry}
    (he : d.lookup t = some e) : Token.IsWord (Text.fold t) := by
  obtain ⟨hspace, hliteral, hcomment⟩ := hd _ (fold_mem_of_lookup he)
  refine ⟨?_, hspace, hliteral, hcomment⟩
  exact Text.bytes_ne_nil (by simpa using Token.glyphs_ne_nil ht)

/-- The token as which an action is listed can be written, and stands for the action. -/
theorem Resolves.token {i : Interpreter} (hi : i.Sound) (hnames : i.dict.WordNames) {t : Token}
    (ht : t.Readable) {a : Action} (h : Resolves i.dict t a) :
    a.token.Writable ∧ Resolves i.dict a.token a := by
  cases h with
  | @mark e m he hm =>
    have hname := fold_eq_marker hi he hm
    have hfold : Text.fold m.text = Text.fold t.text := by rw [← hname, Text.fold_fold]
    refine ⟨?_, .mark ((lookup_congr i.dict hfold).trans he) hm⟩
    cases m <;> decide
  | @call e he hm =>
    have hfold : Text.fold (Text.fold t.text) = Text.fold t.text := Text.fold_fold _
    have hcall := Resolves.call (t := .word (Text.fold t.text))
      ((lookup_congr i.dict hfold).trans he) hm
    rw [show (Token.word (Text.fold t.text)).text = Text.fold t.text from rfl, hfold] at hcall
    exact ⟨isWord_of_lookup hnames ht.nonempty he, hcall⟩
  | @push c he hc =>
    have htext : (Action.push c).token = .word t.text := by
      rw [Action.token, (Cell.toInt?_of_ofText? hc).2]
    rw [htext]
    exact ⟨Cell.isWord_of_ofText? hc, .push he hc⟩
  | print he hc hq => exact ⟨⟨ht.nonempty, ht.noQuote hq⟩, .print he hc rfl⟩

end Resolving

section Recompiling

namespace Draft

theorem of_addAll {d : Dictionary} {ts : List Token} {draft draft' : Draft} {trace trace' : Trace}
    (h : addAll d ts draft trace = (draft', trace', none)) :
    ts.findSome? (rejection d) = none
      ∧ draft'.code.toList = draft.code.toList ++ actionsOf d ts := by
  rcases hf : ts.findSome? (rejection d) with _ | f
  · obtain ⟨draft₁, trace₁, hall, -, hcode⟩ := addAll_accepted d ts draft trace hf
    rw [h] at hall
    obtain ⟨rfl, -⟩ := Prod.mk.inj hall
    exact ⟨rfl, hcode⟩
  · obtain ⟨draft₁, trace₁, hall⟩ := addAll_rejected d ts draft trace hf
    rw [h] at hall
    cases hall

theorem resolves_of_mem {d : Dictionary} {ts : List Token} {a : Action} (h : a ∈ actionsOf d ts) :
    ∃ t ∈ ts, Resolves d t a := by
  obtain ⟨t, ht, ha⟩ := List.mem_filterMap.1 h
  refine ⟨t, ht, resolve_iff.1 ?_⟩
  unfold actionOf at ha
  split at ha
  · cases ha
  · rename_i hr
    rw [hr, ha]

end Draft

variable {d : Dictionary}

theorem Resolves.accepted {t : Token} {a : Action} (h : Resolves d t a) :
    Draft.rejection d t = none ∧ Draft.actionOf d t = some a := by
  have hr := resolve_iff.2 h
  simp [Draft.rejection, Draft.actionOf, hr]

/-- Code whose actions resolve back is the code of its own listing. -/
theorem actionsOf_listed : ∀ {code : List Action}, (∀ a ∈ code, Resolves d a.token a) →
    (code.map Action.token).findSome? (Draft.rejection d) = none
      ∧ Draft.actionsOf d (code.map Action.token) = code
  | [], _ => ⟨rfl, rfl⟩
  | a :: code, h => by
    obtain ⟨hrejection, haction⟩ := (h a List.mem_cons_self).accepted
    obtain ⟨hnone, hcode⟩ := actionsOf_listed fun a' ha' => h a' (List.mem_cons_of_mem _ ha')
    unfold Draft.actionsOf at hcode ⊢
    constructor
    · rw [List.map_cons, List.findSome?_cons, hrejection]
      exact hnone
    · rw [List.map_cons, List.filterMap_cons, haction, hcode]

theorem scan_listing {code : List Action} (h : ∀ a ∈ code, a.token.Writable) :
    Token.scan (Text.glyphs (Action.listing [] code)) = ⟨code.map Action.token, none⟩ := by
  rw [listing_eq, Token.scan_row (Token.Row.plain_spaced _), Token.Row.plain_tokens]
  intro t ht
  rw [Token.Row.plain_tokens] at ht
  obtain ⟨a, ha, rfl⟩ := List.mem_map.1 ht
  exact h a ha

end Recompiling

/-- In every state whose names are words, the listing of a definition is read without a failure and
compiles to the code that is listed, whatever the tokens were that it was compiled from. -/
theorem listing_recompiles {i : Interpreter} (hi : i.Reachable) (hnames : i.dict.WordNames)
    {ts : List Token} (hts : ∀ t ∈ ts, t.Readable) {name : Text} {draft : Draft}
    {trace trace' : Trace}
    (hdraft : Draft.addAll i.dict ts { name } trace = (draft, trace', none)) :
    (Token.scan (Text.glyphs (Action.listing [] draft.code.toList))).failure = none
      ∧ ∀ (name₂ : Text) (trace₂ : Trace), ∃ draft₂ trace₂',
        Draft.addAll i.dict
            (Token.scan (Text.glyphs (Action.listing [] draft.code.toList))).tokens
            { name := name₂ } trace₂ = (draft₂, trace₂', none)
          ∧ draft₂.code = draft.code := by
  obtain ⟨-, hcode⟩ := Draft.of_addAll hdraft
  have hback : ∀ a ∈ draft.code.toList, a.token.Writable ∧ Resolves i.dict a.token a := by
    intro a ha
    rw [hcode, List.nil_append] at ha
    obtain ⟨t, ht, hr⟩ := Draft.resolves_of_mem ha
    exact hr.token hi.sound hnames (hts t ht)
  rw [scan_listing fun a ha => (hback a ha).1]
  refine ⟨rfl, fun name₂ trace₂ => ?_⟩
  obtain ⟨hnone, hagain⟩ := actionsOf_listed fun a ha => (hback a ha).2
  obtain ⟨draft₂, trace₂', hall, -, hcode₂⟩ :=
    Draft.addAll_accepted i.dict (draft.code.toList.map Action.token) { name := name₂ } trace₂ hnone
  refine ⟨draft₂, trace₂', hall, Array.toList_inj.1 ?_⟩
  rw [hcode₂, hagain, List.nil_append]

/-- Names in capitals, and quoted texts that are a name, a marker and a number. -/
theorem listing_recompiles_double :
    let i := (Session.new []).core.readLines [Text.ofString ": double dup + ;"]
    let line := Text.ofString "DOUBLE ( twice ) IF .\" a  text\" .\" Dup\" .\" THEN\" .\" -7\" ;"
    let code := Draft.actionsOf i.dict (Token.scan (Text.glyphs line)).tokens
    Action.listing [] code = Text.ofString " double if .\" a  text\" dup then -7"
      ∧ (Token.scan (Text.glyphs (Action.listing [] code))).failure = none
      ∧ ∃ draft trace, Draft.addAll i.dict
          (Token.scan (Text.glyphs (Action.listing [] code))).tokens { name := [] } {}
          = (draft, trace, none) ∧ draft.code.toList = code := by
  intro i line code
  obtain ⟨draft, trace, hdraft, -, hcode⟩ := Draft.addAll_accepted i.dict
    (Token.scan (Text.glyphs line)).tokens { name := Text.ofString "w" } {} (by decide +kernel)
  rw [List.nil_append] at hcode
  obtain ⟨hfailure, hagain⟩ := listing_recompiles (i := i) ⟨[], _, _, rfl⟩ (by decide +kernel)
    (fun t ht => Token.readable_of_mem_scan ht) hdraft
  obtain ⟨draft₂, trace₂, hall, hsame⟩ := hagain [] {}
  rw [hcode] at hfailure hall
  exact ⟨by decide +kernel, hfailure, draft₂, trace₂, hall, by rw [hsame, hcode]⟩

end LineForth
