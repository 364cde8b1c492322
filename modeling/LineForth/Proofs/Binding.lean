import LineForth.Proofs.Dictionary
import LineForth.Proofs.Reachable

/-!
# Static binding

A call in a definition stands for the entry that was the newest of its name when the token was
resolved, and that entry lies below the one that the definition becomes.  So of every entry, each
call is bound to the newest entry of that name among the older ones (`Bound`), and this holds in
every state of an interpreter (`Reachable.sound`): a definition that is open keeps it while the
dictionary stands still, and one that is finished keeps it whatever is added on top.

It follows that calls lead downwards only.  No word calls itself, directly or through others; every
word finishes (`finishes_iff`), and it does the same in every later dictionary.
-/

namespace LineForth

open Dictionary

section Bound

/-- Every call in `code` is bound to the newest of the `older` entries with its name. -/
def BoundTo (d : Dictionary) (older : List Entry) (code : List Action) : Prop :=
  ∀ a k, Action.call a k ∈ code →
    ∃ e, older.find? (fun e => d.nameOf e = a) = some e ∧ e.address = k ∧ e.meaning.marker? = none

/-- The code of every entry is bound to the entries below it. -/
def Bound (d : Dictionary) : List Entry → Prop
  | [] => True
  | e :: older => (∀ code, e.meaning.code? = some code → BoundTo d older code) ∧ Bound d older

variable {d d' : Dictionary}

theorem BoundTo.nil (older : List Entry) : BoundTo d older [] := by
  intro a k h
  cases h

theorem BoundTo.append {older : List Entry} {code code' : List Action} (h : BoundTo d older code)
    (h' : BoundTo d older code') : BoundTo d older (code ++ code') := by
  intro a k hk
  rcases List.mem_append.1 hk with hk | hk
  · exact h a k hk
  · exact h' a k hk

theorem BoundTo.congr {older : List Entry} (hn : ∀ e ∈ older, d'.nameOf e = d.nameOf e)
    {code : List Action} (h : BoundTo d older code) : BoundTo d' older code := by
  intro a k hk
  obtain ⟨e, hfind, he⟩ := h a k hk
  refine ⟨e, ?_, he⟩
  rw [← hfind, ← List.head?_filter, ← List.head?_filter]
  exact congrArg List.head? (List.filter_congr fun x hx => by rw [hn x hx])

theorem Bound.congr : ∀ {es : List Entry}, (∀ e ∈ es, d'.nameOf e = d.nameOf e) → Bound d es →
    Bound d' es
  | [], _, _ => trivial
  | _ :: older, hn, h => by
    have hn' : ∀ e ∈ older, d'.nameOf e = d.nameOf e :=
      fun e he => hn e (List.mem_cons_of_mem _ he)
    exact ⟨fun code hc => (h.1 code hc).congr hn', Bound.congr hn' h.2⟩

theorem Bound.of_append : ∀ {newer older : List Entry}, Bound d (newer ++ older) → Bound d older
  | [], _, h => h
  | _ :: _, _, h => Bound.of_append h.2

theorem actionsOf_bound (hd : d.WellFormed) (ts : List Token) :
    BoundTo d d.entries (Draft.actionsOf d ts) := by
  intro a k hk
  obtain ⟨t, -, ht⟩ := List.mem_filterMap.1 hk
  unfold Draft.actionOf at ht
  split at ht
  · cases ht
  · rename_i b hres
    subst ht
    unfold Draft.resolve at hres
    split at hres
    · rename_i e hlookup
      split at hres
      · cases hres
      · rename_i hmark
        simp only [Except.ok.injEq, Option.some.injEq, Action.call.injEq] at hres
        obtain ⟨rfl, rfl⟩ := hres
        rw [lookup_eq_find hd] at hlookup
        exact ⟨e, hlookup, rfl, hmark⟩
    · split at hres
      · cases hres
      · split_ifs at hres <;> cases hres

end Bound

namespace Interpreter

/-- What holds of the dictionary and of the definition in progress between two lines. -/
structure Sound (i : Interpreter) : Prop where
  wellFormed : i.dict.WellFormed
  bound : Bound i.dict i.dict.entries
  coherent : i.toMode.Coherent
  current : ∀ draft, i.current = some draft → BoundTo i.dict i.dict.entries draft.code.toList
  markers : ∀ e ∈ i.dict.entries, ∀ k, e.meaning = .marker k → i.dict.nameOf e = k.text

section Steps

theorem Sound.blank {i : Interpreter} (h : i.Blank) : i.Sound where
  wellFormed := by
    rw [h.1]
    exact ⟨List.nodup_nil, by simp, trivial⟩
  bound := by
    rw [h.1]
    trivial
  coherent := h.2 ▸ Mode.coherent_closed
  current := by simp [h.2]
  markers := by simp [h.1]

/-- Adding an entry whose code is bound keeps all but the definition in progress. -/
theorem Sound.add {i i' : Interpreter} {name : Text} {meaning : Meaning} (h : i.Sound)
    (hdict : i'.dict = i.dict.add name meaning) (hmode : i'.toMode = {})
    (hcode : ∀ code, meaning.code? = some code → BoundTo i.dict i.dict.entries code)
    (hmark : ∀ k, meaning = .marker k → Text.fold name = k.text) : i'.Sound := by
  have hnames : ∀ e ∈ i.dict.entries, (i.dict.add name meaning).nameOf e = i.dict.nameOf e :=
    fun e he => nameOf_of_extends h.wellFormed (add_extends _ _ _) he
  refine ⟨?_, ?_, hmode ▸ Mode.coherent_closed, by simp [hmode], ?_⟩ <;> rw [hdict]
  · exact h.wellFormed.add name meaning
  · rw [add_entries]
    exact ⟨fun code hc => (hcode code hc).congr hnames, h.bound.congr hnames⟩
  · intro e he k hk
    rw [add_entries] at he
    rcases List.mem_cons.1 he with rfl | he
    · rw [nameOf_fresh]
      exact hmark k hk
    · rw [hnames e he]
      exact h.markers e he k hk

theorem Sound.native {i : Interpreter} (h : i.Sound) (hmode : i.toMode = {}) (name : Text)
    (p : Primitive) : (i.install name (.native p)).Sound :=
  h.add rfl hmode (fun _ hc => by cases hc) (fun _ hk => by cases hk)

theorem Sound.marker {i : Interpreter} (h : i.Sound) (hmode : i.toMode = {}) {name : Text}
    {k : Marker} (hname : Text.fold name = k.text) : (i.install name (.marker k)).Sound := by
  refine h.add rfl hmode (fun _ hc => by cases hc) fun k' hk => ?_
  cases hk
  exact hname

theorem Sound.defines {i : Interpreter} (h : i.Sound) {line body : List Glyph} {draft : Draft}
    (hd : i.Defines line draft body) : BoundTo i.dict i.dict.entries draft.code.toList := by
  cases hd with
  | opened => exact BoundTo.nil _
  | continued _ _ hdraft => exact h.current draft hdraft

theorem Sound.keep {i i' : Interpreter} (h : i.Sound) (hdict : i'.dict = i.dict)
    (hmode : i'.toMode.Coherent) (hcurrent : ∀ draft, i'.current = some draft →
      BoundTo i.dict i.dict.entries draft.code.toList) : i'.Sound := by
  refine ⟨?_, ?_, hmode, ?_, ?_⟩ <;> rw [hdict]
  · exact h.wellFormed
  · exact h.bound
  · exact hcurrent
  · exact h.markers

theorem Sound.of_effect {i i' : Interpreter} (h : i.Sound) {line : List Glyph} {s : Stack}
    {d : Dictionary} {mode : Mode} {reply : Reply} (he : i.Effect line s d mode reply)
    (hdict : i'.dict = d) (hmode : i'.toMode = mode) : i'.Sound := by
  have hcoherent : i'.toMode.Coherent := hmode ▸ he.coherent h.coherent
  cases he with
  | nameless | rejected | noDraftFailed => exact h.keep hdict hcoherent (by simp [hmode])
  | continued hd _ _ _ hcode =>
    refine h.keep hdict hcoherent fun draft' heq => ?_
    rw [hmode] at heq
    obtain rfl := Option.some.inj heq
    rw [hcode]
    exact (h.defines hd).append (actionsOf_bound h.wellFormed _)
  | compiled hd _ _ _ hcode =>
    refine h.add hdict hmode (fun code hc => ?_) (fun k hk => by cases hk)
    obtain rfl := Option.some.inj hc
    rw [hcode]
    exact (h.defines hd).append (actionsOf_bound h.wellFormed _)
  | ran | noDraft => exact h.keep hdict hcoherent (hmode ▸ h.current)

theorem Sound.line {i : Interpreter} (h : i.Sound) (line : Text) : (i.readLine line).1.Sound :=
  h.of_effect (readLine_effect i line) rfl rfl

theorem Reachable.sound {i : Interpreter} (h : i.Reachable) : i.Sound :=
  reachable_induction (P := Sound) (fun _ => Sound.blank)
    (fun _ name p hmode hi => hi.native hmode name p)
    (fun _ _ _ hmode hname hi => hi.marker hmode hname)
    (fun _ line hi => hi.line line) h

theorem Effect.extends {i : Interpreter} {line : List Glyph} {s : Stack} {d : Dictionary}
    {mode : Mode} {reply : Reply} (he : i.Effect line s d mode reply) : Extends i.dict d := by
  cases he with
  | compiled => exact add_extends _ _ _
  | nameless | rejected | continued | ran | noDraft | noDraftFailed => exact Extends.refl _

theorem readLines_extends (i : Interpreter) (lines : List Text) :
    Extends i.dict (i.readLines lines).dict :=
  readLines_induction (P := fun i' => Extends i.dict i'.dict)
    (fun i' line hi => hi.trans (readLine_effect i' line).extends) (Extends.refl _) lines

end Steps

end Interpreter

section Calls

variable {d : Dictionary}

theorem Bound.lt_of_call {older : List Entry} (hn : Numbered older) {code : List Action}
    (h : BoundTo d older code) {a : Text} {k : Nat} (hk : Action.call a k ∈ code) :
    ∃ e ∈ older, e.address = k ∧ k ≤ older.length := by
  obtain ⟨e, hfind, rfl, -⟩ := h a k hk
  have he := List.mem_of_find?_eq_some hfind
  exact ⟨e, he, rfl, (hn.address_le e he).2⟩

/-- An entry runs its code with every call answered by the dictionary it stands in. -/
theorem runAt_entry {es : List Entry} (hn : Numbered es) (hb : Bound d es) {e : Entry}
    (he : e ∈ es) (m : Machine) : runAt es e.address m = e.meaning.run (runAt es) m := by
  obtain ⟨newer, older, rfl⟩ := List.append_of_mem he
  have hold : Numbered (e :: older) := hn.of_append
  have haddr : e.address ≤ (e :: older).length := by
    have := hold.1
    simp only [List.length_cons]
    omega
  rw [runAt_append hn haddr, runAt_cons_self]
  refine Prod.ext_iff.2 (Meaning.run_sim simulation_eq _ (fun code hc a k hk m m' hm => ?_) rfl)
  obtain ⟨-, -, -, hle⟩ := Bound.lt_of_call hold.2 (hb.of_append.1 code hc) hk
  have hsame : runAt (newer ++ e :: older) k = runAt older k := by
    rw [show newer ++ e :: older = (newer ++ [e]) ++ older by simp]
    exact runAt_append (by simpa using hn) hle
  rw [hsame, hm]
  exact ⟨rfl, rfl⟩

theorem Numbered.le_of_find {p : Entry → Bool} {x e : Entry} : ∀ {es : List Entry}, Numbered es →
    es.find? p = some e → x ∈ es → p x → x.address ≤ e.address
  | top :: older, hn, hf, hx, hp => by
    rw [List.find?_cons] at hf
    split at hf
    · obtain rfl := Option.some.inj hf
      have := (Numbered.address_le hn x hx).2
      have htop := hn.1
      simp only [List.length_cons] at this
      omega
    · rename_i htop
      rcases List.mem_cons.1 hx with rfl | hx
      · rw [htop] at hp
        cases hp
      · exact Numbered.le_of_find hn.2 hf hx hp

/-- `e` is the newest of the entries named `a` with an address below `k`. -/
structure Dictionary.Latest (d : Dictionary) (k : Nat) (a : Text) (e : Entry) : Prop where
  mem : e ∈ d.entries
  older : e.address < k
  name : d.nameOf e = a
  newest : ∀ x ∈ d.entries, x.address < k → d.nameOf x = a → x.address ≤ e.address

theorem latest_of_call (hn : Numbered d.entries) (hb : Bound d d.entries) {e : Entry}
    (he : e ∈ d.entries) {code : List Action} (hc : e.meaning.code? = some code) {a : Text}
    {k : Nat} (hk : Action.call a k ∈ code) :
    ∃ e', d.Latest e.address a e' ∧ e'.address = k ∧ e'.meaning.marker? = none := by
  obtain ⟨newer, older, hes⟩ := List.append_of_mem he
  rw [hes] at hn hb
  have hold : Numbered (e :: older) := hn.of_append
  have htop := hold.1
  obtain ⟨e', hfind, haddr, hmark⟩ := hb.of_append.1 code hc a k hk
  have hmem := List.mem_of_find?_eq_some hfind
  have hle := (hold.2.address_le e' hmem).2
  refine ⟨e', ⟨?_, by omega, ?_, ?_⟩, haddr, hmark⟩
  · rw [hes]
    exact List.mem_append_right _ (List.mem_cons_of_mem _ hmem)
  · have := List.find?_some hfind
    exact of_decide_eq_true this
  · intro x hx hlt hname
    have hxold : x ∈ older := by
      rw [hes] at hx
      rcases List.mem_append.1 hx with hx | hx
      · have := Numbered.lt_of_append hn hx
        simp only [List.length_cons] at this
        omega
      · rcases List.mem_cons.1 hx with rfl | hx
        · omega
        · exact hx
    exact hold.2.le_of_find hfind hxold (decide_eq_true hname)

end Calls

section Recursion

variable {d : Dictionary}

/-- The word at `k` calls the one at `j`. -/
def Dictionary.Callee (d : Dictionary) (j k : Nat) : Prop :=
  ∃ e ∈ d.entries, e.address = k ∧ ∃ code, e.meaning.code? = some code
    ∧ ∃ a, Action.call a j ∈ code

theorem callee_lt (hn : Numbered d.entries) (hb : Bound d d.entries) {j k : Nat}
    (h : d.Callee j k) : j < k := by
  obtain ⟨e, he, rfl, code, hc, a, hj⟩ := h
  obtain ⟨e', hlatest, rfl, -⟩ := latest_of_call hn hb he hc hj
  exact hlatest.older

theorem not_transGen_callee (hn : Numbered d.entries) (hb : Bound d d.entries) (k : Nat) :
    ¬ Relation.TransGen d.Callee k k := by
  have hlt : ∀ {j k}, Relation.TransGen d.Callee j k → j < k := by
    intro j k h
    induction h with
    | single h => exact callee_lt hn hb h
    | tail _ h ih => exact Nat.lt_trans ih (callee_lt hn hb h)
  exact fun h => Nat.lt_irrefl k (hlt h)

/-- The word at an address finishes on a machine with a result.  Calls may go to any entry of the
dictionary; a derivation is finite, so it exists only where they come to an end. -/
inductive Dictionary.Finishes (d : Dictionary) : Nat → Machine → Machine × Outcome → Prop
  | word {e : Entry} {calls : Calls} (he : e ∈ d.entries)
      (hcalls : ∀ code, e.meaning.code? = some code → ∀ a k, Action.call a k ∈ code →
        ∀ m, Finishes d k m (calls k m)) (m : Machine) :
      Finishes d e.address m (e.meaning.run calls m)

theorem finishes_run (hn : Numbered d.entries) (hb : Bound d d.entries) {e : Entry}
    (he : e ∈ d.entries) (m : Machine) : d.Finishes e.address m (d.run e.address m) := by
  induction hk : e.address using Nat.strongRecOn generalizing e m with
  | ind k ih =>
    subst hk
    unfold Dictionary.run
    rw [runAt_entry hn hb he]
    refine .word he (fun code hc a k hk m' => ?_) m
    obtain ⟨e', hlatest, rfl, -⟩ := latest_of_call hn hb he hc hk
    exact ih e'.address hlatest.older hlatest.mem m' rfl

theorem finishes_iff (hn : Numbered d.entries) (hb : Bound d d.entries) {e : Entry}
    (he : e ∈ d.entries) {m : Machine} {r : Machine × Outcome} :
    d.Finishes e.address m r ↔ r = d.run e.address m := by
  refine ⟨fun h => ?_, fun h => h ▸ finishes_run hn hb he m⟩
  generalize e.address = k at h
  induction h with
  | @word e' calls he' _ m ih =>
    unfold Dictionary.run at ih ⊢
    rw [runAt_entry hn hb he']
    refine Prod.ext_iff.2 (Meaning.run_sim simulation_eq _ (fun code hc a k hk m m' hm => ?_) rfl)
    rw [hm, ih code hc a k hk]
    exact ⟨rfl, rfl⟩

end Recursion

/-- What static binding makes of a dictionary. -/
structure Dictionary.StaticallyBound (d : Dictionary) : Prop where
  /-- The entries are numbered in the order in which they were added. -/
  numbered : Numbered d.entries
  /-- A call goes to the newest entry of its name that is older than the caller, and no marker. -/
  bound : ∀ e ∈ d.entries, ∀ code, e.meaning.code? = some code →
    ∀ a k, Action.call a k ∈ code →
      ∃ e', d.Latest e.address a e' ∧ e'.address = k ∧ e'.meaning.marker? = none
  /-- Running an address runs the word of the entry with that address, calls included. -/
  runs : ∀ e ∈ d.entries, ∀ m, d.run e.address m = e.meaning.run d.run m
  /-- No word calls itself, directly or through others. -/
  acyclic : ∀ k, ¬ Relation.TransGen d.Callee k k
  /-- Every word finishes, on every machine. -/
  finishes : ∀ e ∈ d.entries, ∀ m r, d.Finishes e.address m r ↔ r = d.run e.address m

/-- In every state the dictionary is statically bound, the tokens of every line come to an end, and
whatever lines are read later, every entry stays where it is and its word does the same. -/
theorem static_binding (trees : List SettingTree) (listing : Stack → Text) (past : List Text) :
    let i := (Session.new trees listing).core.readLines past
    i.dict.StaticallyBound
      ∧ (∀ line s, Token.Scans line s ↔ s = Token.scan line)
      ∧ ∀ later : List Text, Extends i.dict (i.readLines later).dict
        ∧ ∀ e ∈ i.dict.entries, ∀ m,
          (i.readLines later).dict.run e.address m = i.dict.run e.address m := by
  intro i
  have hi : i.Sound := Interpreter.Reachable.sound ⟨trees, listing, past, rfl⟩
  have hn := hi.wellFormed.numbered
  refine ⟨⟨hn, fun e he code hc a k hk => latest_of_call hn hi.bound he hc hk,
    fun e he m => runAt_entry hn hi.bound he m, not_transGen_callee hn hi.bound,
    fun e he m r => finishes_iff hn hi.bound he⟩, fun line s => Token.scans_iff, fun later => ?_⟩
  have hlater : (i.readLines later).Sound :=
    Interpreter.Reachable.sound
      ⟨trees, listing, past ++ later, by rw [Interpreter.readLines_append]⟩
  have hext := Interpreter.readLines_extends i later
  refine ⟨hext, fun e he m => ?_⟩
  rw [run_of_extends hlater.wellFormed hext (hn.address_le e he).2]

end LineForth
