import Mathlib.Logic.Relation
import LineForth.Proofs.Binding

/-!
# The cells below

A word works on the top of the stack.  Where a run does not want for cells, cells put under the
stack change nothing: the run ends in the same way with the same output, and the cells are there
afterwards, under what the run leaves (`Framed`).  The one word that looks at the whole stack is the
one that displays it, so this is said of the words that do not come to call it
(`Dictionary.Avoids`).

Of the primitives it is seen from the few shapes they have (`Primitive.Local`).  A definition adds
to what it calls only the pops of its conditionals, and none of these fails unless the definition
fails for it (`perform_framed`).  Calls lead downwards, so it holds of all words by going up the
dictionary (`run_framed`).
-/

namespace LineForth

open Dictionary

/-- `s'` is `s` with the cells `below` under it. -/
def Stack.Over (below : List Cell) (s s' : Stack) : Prop := s'.cells = s.cells ++ below

section Stack

variable {below : List Cell} {s s' : Stack}

theorem Stack.over_iff_values {b : List Cell} :
    Stack.Over b.reverse s s' ↔ s'.values = b ++ s.values := by
  unfold Stack.Over Stack.values
  constructor
  · intro h
    simp [h]
  · intro h
    have := congrArg List.reverse h
    simpa using this

theorem Stack.Over.push (h : Stack.Over below s s') (c : Cell) :
    Stack.Over below (s.push c) (s'.push c) := by
  unfold Stack.Over at h ⊢
  simp [Stack.push, h]

theorem Stack.Over.pushAll (h : Stack.Over below s s') : ∀ cs : List Cell,
    Stack.Over below (s.pushAll cs) (s'.pushAll cs) := by
  intro cs
  unfold Stack.pushAll
  induction cs generalizing s s' with
  | nil => exact h
  | cons c cs ih => exact ih (h.push c)

/-- A cell that can be popped is the same with cells below. -/
theorem Stack.Over.pop {c : Cell} {t : Stack} (h : Stack.Over below s s')
    (hp : s.pop? = some (c, t)) : ∃ t', s'.pop? = some (c, t') ∧ Stack.Over below t t' := by
  unfold Stack.Over at h
  unfold Stack.pop? at hp ⊢
  rcases hs : s.cells with _ | ⟨d, cs⟩ <;> rw [hs] at hp h
  · simp at hp
  · simp only [Option.some.injEq, Prod.mk.injEq] at hp
    obtain ⟨rfl, rfl⟩ := hp
    simp [h, Stack.Over]

end Stack

namespace Primitive

/-- What the word does on a stack where it does not underflow, it does with cells below as well. -/
def Local (run : Stack → Effect) : Prop :=
  ∀ below s s', Stack.Over below s s' → (run s).2 ≠ .error .stackUnderflow →
    (run s').2 = (run s).2 ∧ Stack.Over below (run s).1 (run s').1

theorem binary_local (op : Cell → Cell → Except Failure (List Cell)) : Local (binary op) := by
  intro below s s' hs hne
  unfold binary at hne ⊢
  rcases hb : s.pop? with _ | ⟨b, t⟩
  · simp [hb] at hne
  obtain ⟨t', hb', ht⟩ := hs.pop hb
  rcases ha : t.pop? with _ | ⟨a, u⟩
  · simp [hb, ha] at hne
  obtain ⟨u', ha', hu⟩ := ht.pop ha
  simp only [hb', ha, ha']
  rcases op a b with f | cs
  · exact ⟨rfl, hu⟩
  · exact ⟨rfl, hu.pushAll cs⟩

theorem unary_local (op : Cell → Except Failure Text) : Local (unary op) := by
  intro below s s' hs hne
  unfold unary at hne ⊢
  rcases hc : s.pop? with _ | ⟨c, t⟩
  · simp [hc] at hne
  obtain ⟨t', hc', ht⟩ := hs.pop hc
  rw [hc']
  exact ⟨rfl, ht⟩

theorem rearrange_local {op : List Cell → Option (List Cell)}
    (hop : ∀ {cs cs'} below, op cs = some cs' → op (cs ++ below) = some (cs' ++ below)) :
    Local (rearrange op) := by
  intro below s s' hs hne
  unfold Stack.Over at hs
  unfold rearrange at hne ⊢
  rcases hc : op s.cells with _ | cs
  · simp [hc] at hne
  · rw [hs, hop below hc]
    exact ⟨rfl, rfl⟩

theorem run_local : ∀ {p : Primitive}, p ≠ .dotS → Local p.run
  | .dotS, hp => absurd rfl hp
  | .dot, _ => unary_local _
  | .add, _ => binary_local _
  | .mul, _ => binary_local _
  | .div, _ => binary_local _
  | .divMod, _ => binary_local _
  | .mod, _ => binary_local _
  | .eq, _ => binary_local _
  | .lt, _ => binary_local _
  | .gt, _ => binary_local _
  | .emit, _ => unary_local _
  | .spaces, _ => unary_local _
  | .swap, _ => rearrange_local fun {cs cs'} below h => by
    rcases cs with _ | ⟨b, _ | ⟨a, cs⟩⟩ <;> cases h
    rfl
  | .dup, _ => rearrange_local fun {cs cs'} below h => by
    rcases cs with _ | ⟨a, cs⟩ <;> cases h
    rfl
  | .over, _ => rearrange_local fun {cs cs'} below h => by
    rcases cs with _ | ⟨b, _ | ⟨a, cs⟩⟩ <;> cases h
    rfl
  | .rot, _ => rearrange_local fun {cs cs'} below h => by
    rcases cs with _ | ⟨c, _ | ⟨b, _ | ⟨a, cs⟩⟩⟩ <;> cases h
    rfl
  | .drop, _ => rearrange_local fun {cs cs'} below h => by
    rcases cs with _ | ⟨a, cs⟩ <;> cases h
    rfl

end Primitive

section Runs

/-- Unless `r` ran out of cells, `r'` ended as it did and left `below` under what it left. -/
def Framed (below : List Cell) (r r' : Machine × Outcome) : Prop :=
  (∀ out, r.2 ≠ .failed out .stackUnderflow) →
    r'.2 = r.2 ∧ Stack.Over below r.1.stack r'.1.stack

/-- How a word is called with cells below and without. -/
def FramedCall (below : List Cell) (call : Machine → Machine × Outcome) : Prop :=
  ∀ m m', Stack.Over below m.stack m'.stack → Framed below (call m) (call m')

variable {below : List Cell}

theorem primitive_eq (m : Machine) (p : Primitive) :
    m.primitive p = ({ m with stack := (p.run m.stack).1 },
      match (p.run m.stack).2 with
      | .ok out => .done out
      | .error f => .failed [] f) := by
  unfold Machine.primitive
  rcases p.run m.stack with ⟨s, f | out⟩ <;> rfl

theorem primitive_framed {p : Primitive} (hp : p ≠ .dotS) :
    FramedCall below fun m => m.primitive p := by
  intro m m' hm hne
  simp only [primitive_eq] at hne ⊢
  have hrun : (p.run m.stack).2 ≠ .error .stackUnderflow := by
    intro h
    exact hne [] (by rw [h])
  obtain ⟨hout, hs⟩ := Primitive.run_local hp below m.stack m'.stack hm hrun
  exact ⟨by rw [hout], hs⟩

theorem host_framed (w : HostWord) : FramedCall below fun m => m.host w :=
  fun _ _ hm _ => ⟨rfl, hm.push w.cell⟩

theorem Action.run_framed {call : Calls} (a : Action)
    (hc : ∀ key k, a = .call key k → FramedCall below (call k)) :
    FramedCall below (a.run call) := by
  cases a with
  | call key k => exact hc key k rfl
  | push c => exact fun m m' hm _ => ⟨rfl, hm.push c⟩
  | print t => exact fun m m' hm _ => ⟨rfl, hm⟩
  | mark k => exact fun m m' hm _ => ⟨rfl, hm⟩

/-- Performing code keeps the cells below if the calls in it do, whatever frames it starts under. -/
theorem perform_framed {call : Calls} (name : Text) : ∀ (code : List Action),
    (∀ key k, .call key k ∈ code → FramedCall below (call k)) →
    ∀ (fs : List Frame) (out : List Text), FramedCall below (perform call name fs out code)
  | [], _, fs, out => by
    intro m m' hm _
    cases fs <;> exact ⟨rfl, hm⟩
  | a :: code, hc, fs, out => by
    intro m m' hm
    have ih := perform_framed name code fun key k hk => hc key k (List.mem_cons_of_mem _ hk)
    rcases a.plain_or_mark with ha | ⟨_ | _ | _, rfl⟩
    · have hstep : Framed below (a.run call (m.event (.stepped name a)))
          (a.run call (m'.event (.stepped name a))) :=
        Action.run_framed a (fun key k hk => hc key k (hk ▸ List.mem_cons_self)) _ _ hm
      simp only [perform_plain _ name ha]
      split
      · rcases hr : a.run call (m.event (.stepped name a)) with ⟨n, t | ⟨t, f⟩ | ⟨word, place⟩⟩ <;>
          rcases hr' : a.run call (m'.event (.stepped name a)) with ⟨n', o'⟩ <;>
          rw [hr, hr'] at hstep
        · obtain ⟨rfl, hn⟩ := hstep (by simp)
          exact ih fs (t :: out) n n' hn
        · intro hne
          obtain ⟨rfl, hn⟩ := hstep fun u hu => hne [] (by rw [(Outcome.failed.inj hu).2])
          exact ⟨rfl, hn⟩
        · obtain ⟨rfl, hn⟩ := hstep (by simp)
          exact fun _ => ⟨rfl, hn⟩
      · exact ih fs out m m' hm
    · simp only [perform_fork]
      split
      · rcases hp : m.stack.pop? with _ | ⟨c, s⟩
        · intro hne
          exact absurd rfl (hne [])
        · obtain ⟨s', hp', hs⟩ := hm.pop hp
          simp only [hp']
          exact ih _ out { m with stack := s } { m' with stack := s' } hs
      · exact ih _ out m m' hm
    · cases fs with
      | nil => exact fun _ => ⟨rfl, hm⟩
      | cons f fs => exact ih _ out m m' hm
    · cases fs with
      | nil => exact fun _ => ⟨rfl, hm⟩
      | cons f fs => exact ih fs out m m' hm

theorem Meaning.run_framed {call : Calls} {e : Meaning} (he : e ≠ .native .dotS)
    (hc : ∀ code, e.code? = some code → ∀ key k, .call key k ∈ code → FramedCall below (call k)) :
    FramedCall below (e.run call) := by
  cases e with
  | marker k => exact fun m m' hm _ => ⟨rfl, hm⟩
  | native p => exact primitive_framed fun hp => he (by rw [hp])
  | host w => exact host_framed w
  | compiled name code =>
    intro m m' hm
    exact perform_framed name code (hc code rfl) [] []
      { m with trace := m.trace.indent indentation }
      { m' with trace := m'.trace.indent indentation } hm

end Runs

section Words

variable {d : Dictionary}

/-- The address that an action calls. -/
def Action.callee? : Action → Option Nat
  | .call _ k => some k
  | _ => none

/-- The word at `k` is not `p`, and does not call it, directly or through others. -/
def Dictionary.Avoids (d : Dictionary) (p : Primitive) (k : Nat) : Prop :=
  ∀ e ∈ d.entries, e.meaning = .native p → ¬ Relation.ReflTransGen d.Callee e.address k

theorem Dictionary.Avoids.callee {p : Primitive} {j k : Nat} (h : d.Avoids p k)
    (hj : d.Callee j k) : d.Avoids p j :=
  fun e he hp hreach => h e he hp (hreach.tail hj)

/-- A word avoids what lies outside of some words that call only each other. -/
theorem Dictionary.Avoids.of_closed {p : Primitive} {k : Nat} (ks : List Nat) (hk : k ∈ ks)
    (hclosed : ∀ e ∈ d.entries, e.address ∈ ks → e.meaning ≠ .native p
      ∧ ∀ j ∈ (e.meaning.code?.getD []).filterMap Action.callee?, j ∈ ks) : d.Avoids p k := by
  have hreach : ∀ {j}, Relation.ReflTransGen d.Callee j k → j ∈ ks := by
    intro j h
    induction h using Relation.ReflTransGen.head_induction_on with
    | refl => exact hk
    | head h _ ih =>
      obtain ⟨e, he, rfl, code, hc, a, hj⟩ := h
      refine (hclosed e he ih).2 _ (List.mem_filterMap.2 ⟨.call a _, ?_, rfl⟩)
      rw [hc]
      exact hj
  exact fun e he hp h => (hclosed e he (hreach h)).1 hp

theorem run_framed (hn : Numbered d.entries) (hb : Bound d d.entries) {below : List Cell}
    {e : Entry} (he : e ∈ d.entries) (havoid : d.Avoids .dotS e.address) :
    FramedCall below (d.run e.address) := by
  induction hk : e.address using Nat.strongRecOn generalizing e with
  | ind k ih =>
    subst hk
    have hdot : e.meaning ≠ .native .dotS := fun h => havoid e he h .refl
    intro m m' hm
    unfold Dictionary.run
    rw [runAt_entry hn hb he, runAt_entry hn hb he]
    refine Meaning.run_framed hdot (fun code hc a k hk => ?_) m m' hm
    have hcallee : d.Callee k e.address := ⟨e, he, rfl, code, hc, a, hk⟩
    obtain ⟨e', hlatest, rfl, -⟩ := latest_of_call hn hb he hc hk
    exact ih e'.address hlatest.older hlatest.mem (havoid.callee hcallee) rfl

end Words

/-- In every state, a word that does not come to display the stack works on the top of it: unless
it runs out of cells, any cells below are kept and make no difference. -/
theorem run_keeps_below {i : Interpreter} (hi : i.Reachable) {e : Entry} (he : e ∈ i.dict.entries)
    (havoid : i.dict.Avoids .dotS e.address) {m : Machine}
    (hend : ∀ out, (i.dict.run e.address m).2 ≠ .failed out .stackUnderflow)
    (below : List Cell) {m' : Machine} (hm : m'.stack.values = below ++ m.stack.values) :
    (i.dict.run e.address m').2 = (i.dict.run e.address m).2
      ∧ (i.dict.run e.address m').1.stack.values
        = below ++ (i.dict.run e.address m).1.stack.values := by
  have hframed : FramedCall below.reverse (i.dict.run e.address) :=
    run_framed hi.sound.wellFormed.numbered hi.sound.bound he havoid
  obtain ⟨hout, hover⟩ := hframed m m' (Stack.over_iff_values.2 hm) hend
  exact ⟨hout, Stack.over_iff_values.1 hover⟩

/-- A word with a conditional and calls of its own, on a cell more than it needs. -/
theorem run_keeps_below_ratio :
    let i := (Session.new []).core.readLines
      [Text.ofString ": half 2 / ;", Text.ofString ": ratio dup if / half . else drop then ;"]
    let m : Machine := { stack := { cells := [3, 24] } }
    let m' : Machine := { stack := { cells := [3, 24, 5, 7] } }
    (i.dict.run 24 m').2 = .done (Text.ofString "4 ")
      ∧ (i.dict.run 24 m').1.stack.values = [7, 5] ++ (i.dict.run 24 m).1.stack.values := by
  intro i m m'
  have hi : i.Reachable := ⟨[], _, _, rfl⟩
  obtain ⟨e, he, haddr⟩ : ∃ e ∈ i.dict.entries, e.address = 24 := by decide +kernel
  have hout : (i.dict.run 24 m).2 = .done (Text.ofString "4 ") := by decide +kernel
  have havoid : i.dict.Avoids .dotS 24 :=
    .of_closed [24, 23, 1, 5, 13, 16] (by decide) (by decide +kernel)
  have hend : ∀ out, (i.dict.run 24 m).2 ≠ .failed out .stackUnderflow := by
    rw [hout]
    simp
  rw [← haddr] at havoid hend hout ⊢
  obtain ⟨hsame, hstack⟩ := run_keeps_below hi he havoid hend [7, 5]
    (show m'.stack.values = [7, 5] ++ m.stack.values by decide)
  exact ⟨hsame.trans hout, hstack⟩

end LineForth
