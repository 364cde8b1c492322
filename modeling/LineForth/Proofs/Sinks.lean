import Mathlib.Data.List.Basic
import Mathlib.Data.List.Infix
import LineForth.Proofs.Ansi

/-!
# What sinks receive

An outlet stands between a session and a sink, and may hold bytes back.  What has gone into it is
`Outlet.carried`: the bytes of the sink and then those held back.  Writing adds the bytes that were
taken, and nothing else changes that: a buffer that is sent on, even one that is refused halfway,
only moves bytes from one part to the other (`drain_grew`).  A sink that reports a problem whenever
it takes fewer bytes than it is given takes all of them otherwise (`Sink.Honest`), and so does its
outlet (`write_took`, `deliver_took`).

A channel leads to several outlets.  A text that is sent through it arrives at each of them, or only
a first part of it at some, and then a problem is reported (`Outlets.Grown`).  The problem is one
that a sink has reported (`Sink.Reports`, `Outlets.Sent`).
-/

namespace LineForth

namespace Sink

/-- Reports a problem whenever it takes fewer bytes than it is given. -/
def Honest (s : Sink) : Prop :=
  s.bounded → (s.room.isSome → s.refusal.isSome) ∧ ∀ t ∈ s.turns, t.most.isSome → t.problem.isSome

/-- Every problem that it can report is as `Q` says. -/
def Reports (Q : Problem → Prop) (s : Sink) : Prop :=
  s.bounded → (s.room.isSome → ∀ q ∈ s.refusal, Q q) ∧ (∀ q ∈ s.flushRefusal, Q q)
    ∧ ∀ t ∈ s.turns, ∀ q ∈ t.problem, Q q

theorem keep_eq (s : Sink) (p : Text) : s.keep p = { s with stored := (s.keep p).stored } := by
  unfold keep
  split_ifs <;> rfl

theorem keep_data {s : Sink} (h : s.kind ≠ .discard) (p : Text) :
    (s.keep p).data = s.data ++ p := by
  rw [keep, if_neg h]
  exact s.stored.bytes_append p

/-- What a write does that takes the first bytes of `p`, as many as it reports. -/
structure Took (p : Text) (s : Sink) (r : Sink × Written) : Prop where
  kind : r.1.kind = s.kind
  data : s.kind ≠ .discard → r.1.data = s.data ++ p.take r.2.count
  count_le : r.2.count ≤ p.length
  honest : s.Honest → r.1.Honest
  whole : s.Honest → r.2.problem = none → r.2.count = p.length
  reports : ∀ Q, s.Reports Q → r.1.Reports Q ∧ ∀ q ∈ r.2.problem, Q q

theorem Took.of_keep {s s' : Sink} {p taken : Text} {w : Written} (hs : s'.kind = s.kind)
    (hdata : s'.data = (s.keep taken).data) (htaken : taken = p.take w.count)
    (hle : w.count ≤ p.length) (hhonest : s.Honest → s'.Honest)
    (hwhole : s.Honest → w.problem = none → w.count = p.length)
    (hreports : ∀ Q, s.Reports Q → s'.Reports Q ∧ ∀ q ∈ w.problem, Q q) : Took p s (s', w) :=
  ⟨hs, fun h => by rw [hdata, keep_data h, htaken], hle, hhonest, hwhole, hreports⟩

theorem fit_took (s : Sink) (p : Text) : Took p s (s.fit p) := by
  have hkeep : ∀ q, (s.keep q).kind = s.kind := fun q => by rw [keep_eq]
  unfold fit
  split
  · refine .of_keep (hkeep p) rfl (by simp) (Nat.le_refl _) (fun h => ?_) (fun _ _ => rfl)
      fun Q h => ⟨?_, by simp⟩
    all_goals
      rw [keep_eq]
      exact h
  · rename_i room hsome
    have hbound : s.bounded := by
      by_contra hbound
      rw [if_neg hbound] at hsome
      cases hsome
    rw [if_pos hbound] at hsome
    have hroom : s.room.isSome := by simp [hsome]
    have hhonest : ∀ q left, s.Honest → ({ s.keep q with room := some left } : Sink).Honest := by
      intro q left h hb
      rw [keep_eq] at hb ⊢
      exact ⟨fun _ => (h hbound).1 hroom, (h hbound).2⟩
    have hreports : ∀ Q q left, s.Reports Q →
        ({ s.keep q with room := some left } : Sink).Reports Q := by
      intro Q q left h hb
      rw [keep_eq] at hb ⊢
      exact ⟨fun _ => (h hbound).1 hroom, (h hbound).2⟩
    split_ifs with hfits
    · exact .of_keep (hkeep p) rfl (by simp) (Nat.le_refl _) (hhonest p _) (fun _ _ => rfl)
        fun Q h => ⟨hreports Q p _ h, by simp⟩
    · refine .of_keep (hkeep _) rfl rfl (by simp only []; omega) (hhonest _ 0) (fun h hnone => ?_)
        fun Q h => ⟨hreports Q _ 0 h, (h hbound).1 hroom⟩
      have := (h hbound).1 hroom
      rw [show s.refusal = none from hnone] at this
      cases this

theorem write_took (s : Sink) (p : Text) : Took p s (s.write p) := by
  unfold write
  split
  · exact s.fit_took p
  · rename_i t turns hturns
    have hbound : s.bounded := by
      by_contra hbound
      rw [if_neg hbound] at hturns
      cases hturns
    rw [if_pos hbound] at hturns
    have hmem : ∀ u ∈ turns, u ∈ s.turns := fun u hu => by simp [hturns, hu]
    refine .of_keep (by rw [keep_eq]) rfl (by simp) (List.length_take_le' _ _) (fun h hb => ?_)
      (fun h hnone => ?_) fun Q h => ⟨fun hb => ?_, (h hbound).2.2 t (by simp [hturns])⟩
    · rw [keep_eq]
      exact ⟨(h hbound).1, fun u hu => (h hbound).2 u (hmem u hu)⟩
    · rcases hmost : t.most with _ | n
      · simp
      · have := (h hbound).2 t (by simp [hturns]) (by simp [hmost])
        rw [show t.problem = none from hnone] at this
        cases this
    · rw [keep_eq]
      exact ⟨(h hbound).1, (h hbound).2.1, fun u hu => (h hbound).2.2 u (hmem u hu)⟩

theorem flush_kept (s : Sink) : s.flush.1.kind = s.kind ∧ s.flush.1.data = s.data
    ∧ (s.Honest → s.flush.1.Honest)
    ∧ ∀ Q, s.Reports Q → s.flush.1.Reports Q ∧ ∀ q ∈ s.flush.2, Q q := by
  unfold flush
  split_ifs with hkind
  · have hbound : s.bounded := by simp [bounded, hkind]
    split
    · exact ⟨rfl, rfl, id, fun Q h => ⟨h, (h hbound).2.1⟩⟩
    · rename_i t turns hturns
      have hmem : ∀ u ∈ turns, u ∈ s.turns := fun u hu => by simp [hturns, hu]
      refine ⟨rfl, rfl, fun h hb => ⟨(h hb).1, fun u hu => (h hb).2 u (hmem u hu)⟩, fun Q h => ?_⟩
      obtain ⟨hroom, hflush, hall⟩ := h hbound
      exact ⟨fun _ => ⟨hroom, hflush, fun u hu => hall u (hmem u hu)⟩, hall t (by simp [hturns])⟩
  · exact ⟨rfl, rfl, id, fun Q h => ⟨h, by simp⟩⟩

end Sink

namespace Outlet

/-- All that has gone into an outlet: what its sink holds, and what is held back. -/
def carried (o : Outlet) : Text := o.sink.data ++ o.pending.bytes

/-- The sink keeps what it takes and is honest; without a buffer nothing is held back. -/
structure Ready (o : Outlet) : Prop where
  keeps : o.sink.kind ≠ .discard
  honest : o.sink.Honest
  direct : o.buffered = false → o.pending.bytes = []

def Settled (o : Outlet) : Prop := o.pending.bytes = []

/-- Every problem that it can report, or is stuck with, is as `Q` says. -/
def Reports (Q : Problem → Prop) (o : Outlet) : Prop := o.sink.Reports Q ∧ ∀ q ∈ o.stuck, Q q

/-- The bytes `u` have gone into an outlet, after what was there before. -/
structure Grew (u : Text) (o o' : Outlet) : Prop where
  ready : o'.Ready
  buffered : o'.buffered = o.buffered
  carried : o'.carried = o.carried ++ u
  kept : o.sink.data <+: o'.sink.data
  reports : ∀ Q, o.Reports Q → o'.Reports Q

/-- An outlet was given `p` and took the bytes that it reports. -/
structure Took (p : Text) (o : Outlet) (r : Outlet × Written) : Prop where
  grew : Grew (p.take r.2.count) o r.1
  count_le : r.2.count ≤ p.length
  whole : r.2.problem = none → r.2.count = p.length
  reports : ∀ Q, o.Reports Q → ∀ q ∈ r.2.problem, Q q

variable {o o' o'' : Outlet} {p u v : Text}

theorem Grew.refl (h : o.Ready) : Grew [] o o := ⟨h, rfl, by simp, List.prefix_rfl, fun _ => id⟩

theorem Grew.trans (h : Grew u o o') (h' : Grew v o' o'') : Grew (u ++ v) o o'' :=
  ⟨h'.ready, h'.buffered.trans h.buffered, by rw [h'.carried, h.carried, List.append_assoc],
    h.kept.trans h'.kept, fun Q hq => h'.reports Q (h.reports Q hq)⟩

theorem buffered_congr (h : o'.sink.kind = o.sink.kind) : o'.buffered = o.buffered := by
  simp only [buffered, h]

theorem Ready.sink_write (h : o.Ready) (hempty : o.pending.bytes = []) (p : Text)
    {stuck : Option Problem} (hstuck : ∀ Q, o.Reports Q → ∀ q ∈ stuck, Q q) :
    Grew (p.take (o.sink.write p).2.count) o { o with sink := (o.sink.write p).1, stuck } := by
  have ht := o.sink.write_took p
  have hdata := ht.data h.keeps
  refine ⟨⟨ht.kind.trans_ne h.keeps, ht.honest h.honest, fun _ => hempty⟩,
    buffered_congr ht.kind, ?_, ?_, fun Q hq => ⟨(ht.reports Q hq.1).1, hstuck Q hq⟩⟩
  · simp [carried, hempty, hdata]
  · rw [hdata]
    exact List.prefix_append _ _

theorem Ready.append (h : o.Ready) (hb : o.buffered) (p : Text) :
    Grew p o { o with pending := o.pending.append p } := by
  refine ⟨⟨h.keeps, h.honest, fun hn => ?_⟩, rfl, by simp [carried], List.prefix_rfl, fun _ => id⟩
  rw [show o.buffered = false from hn] at hb
  cases hb

theorem bytes_of_size (h : o.pending.size = 0) : o.pending.bytes = [] := by
  rw [Buffer.size_eq_length] at h
  exact List.length_eq_zero_iff.1 h

/-- Sending the buffer on moves bytes to the sink; all of them, unless the outlet gets stuck. -/
theorem drain_grew (h : o.Ready) (hb : o.buffered) :
    Grew [] o o.drain ∧ (o.drain.stuck = none → o.drain.pending.size = 0) := by
  have ht := o.sink.write_took o.pending.bytes
  have hdata := ht.data h.keeps
  have hkept : o.sink.data <+: (o.sink.write o.pending.bytes).1.data := by
    rw [hdata]
    exact List.prefix_append _ _
  have hready : ∀ pending stuck,
      Ready { sink := (o.sink.write o.pending.bytes).1, pending, stuck } := by
    refine fun pending stuck => ⟨ht.kind.trans_ne h.keeps, ht.honest h.honest, fun hn => ?_⟩
    rw [buffered_congr (o := o) ht.kind, hb] at hn
    cases hn
  unfold drain
  split_ifs with hidle
  · refine ⟨.refl h, fun hn => ?_⟩
    simpa [hn] using hidle
  · simp only []
    rw [Buffer.size_eq_length]
    split_ifs with hall
    · refine ⟨⟨hready _ _, buffered_congr ht.kind, ?_, hkept,
        fun Q hq => ⟨(ht.reports Q hq.1).1, by simp⟩⟩, fun _ => rfl⟩
      simp [carried, hdata, hall.2]
    · refine ⟨⟨hready _ _, buffered_congr ht.kind, ?_, hkept, fun Q hq => ?_⟩,
        fun hn => by cases hn⟩
      · simp [carried, hdata]
      · obtain ⟨hsink, hproblem⟩ := ht.reports Q hq.1
        refine ⟨hsink, ?_⟩
        rcases hn : (o.sink.write o.pending.bytes).2.problem with _ | e
        · exact absurd ⟨by simp [hn], ht.whole h.honest hn⟩ hall
        · simpa using hproblem e hn

/-- After `n` bytes that were taken before, an outlet was given `p` and took some of it. -/
def Filled (n : Nat) (p : Text) (o : Outlet) (r : Outlet × Written) : Prop :=
  ∃ k, r.2.count = n + k ∧ k ≤ p.length ∧ Grew (p.take k) o r.1
    ∧ (r.2.problem = none → k = p.length) ∧ ∀ Q, o.Reports Q → ∀ q ∈ r.2.problem, Q q

theorem Filled.took {r : Outlet × Written} (h : Filled 0 p o r) : Took p o r := by
  obtain ⟨k, hcount, hle, hgrew, hwhole, hreports⟩ := h
  rw [Nat.zero_add] at hcount
  subst hcount
  exact ⟨hgrew, hle, hwhole, hreports⟩

theorem Filled.after {n k : Nat} {r : Outlet × Written} (hgrew : Grew (p.take k) o o')
    (hk : k ≤ p.length) (h : Filled (n + k) (p.drop k) o' r) : Filled n p o r := by
  obtain ⟨k', hcount, hle, hgrew', hwhole, hreports⟩ := h
  rw [List.length_drop] at hle hwhole
  refine ⟨k + k', by omega, by omega, ?_, fun hn => ?_,
    fun Q hq => hreports Q (hgrew.reports Q hq)⟩
  · rw [List.take_add]
    exact hgrew.trans hgrew'
  · have := hwhole hn
    omega

theorem fill_stuck (direct : Bool) (fuel n : Nat) (p : Text) (h : o.Ready)
    (hstuck : o.stuck.isSome) : Filled n p o (fill direct fuel n p o) := by
  have heq : fill direct fuel n p o = (o, ⟨n, o.stuck⟩) := by
    cases fuel with
    | zero => rfl
    | succ fuel => rw [fill, if_pos hstuck]
  rw [heq]
  refine ⟨0, rfl, Nat.zero_le _, .refl h, fun hn => ?_, fun Q hq => hq.2⟩
  rw [show o.stuck = none from hn] at hstuck
  cases hstuck

theorem free_pos (h : o.pending.size = 0) : o.free ≠ 0 := by
  simp [free, h, capacity]

/-- Storing goes on until everything is taken or the outlet is stuck.  A buffer that is full takes
nothing in the first round, which only makes room in it. -/
theorem fill_filled (direct : Bool) : ∀ (fuel n : Nat) (p : Text) {o : Outlet}, o.Ready →
    o.buffered → p.length + (if o.free = 0 then 2 else 1) ≤ fuel →
    Filled n p o (fill direct fuel n p o)
  | 0, n, p, o, h, hb, hfuel => by
    split_ifs at hfuel <;> omega
  | fuel + 1, n, p, o, h, hb, hfuel => by
    by_cases hstuck : o.stuck.isSome
    · exact fill_stuck direct _ n p h hstuck
    rw [fill, if_neg hstuck]
    split_ifs with hfits hdirect
    · exact ⟨p.length, rfl, Nat.le_refl _, by simpa using h.append hb p, fun _ => rfl, by simp⟩
    · have hempty : o.pending.size = 0 := by
        simp only [Bool.and_eq_true, decide_eq_true_eq] at hdirect
        exact hdirect.2
      have ht := o.sink.write_took p
      have hgrew := h.sink_write (bytes_of_size hempty) p fun Q hq => (ht.reports Q hq.1).2
      generalize o.sink.write p = r at ht hgrew ⊢
      rcases r with ⟨sink, ⟨k, _ | e⟩⟩
      · have hall : k = p.length := ht.whole h.honest rfl
        refine .after hgrew ht.count_le ?_
        refine fill_filled direct fuel _ _ hgrew.ready (hgrew.buffered.trans hb) ?_
        have hfree : ({ o with sink, stuck := none } : Outlet).free ≠ 0 := free_pos hempty
        rw [if_neg (free_pos hempty)] at hfuel
        simp only [if_neg hfree, List.length_drop]
        omega
      · exact .after hgrew ht.count_le (fill_stuck direct _ _ _ hgrew.ready rfl)
    · have happend := h.append hb (p.take o.free)
      obtain ⟨hdrain, hsent⟩ := drain_grew happend.ready (happend.buffered.trans hb)
      have hgrew := happend.trans hdrain
      rw [List.append_nil] at hgrew
      refine .after hgrew (by omega) ?_
      rcases hw : ({ o with pending := o.pending.append (p.take o.free) } : Outlet).drain.stuck
        with _ | e
      · refine fill_filled direct fuel _ _ hgrew.ready (hgrew.buffered.trans hb) ?_
        rw [if_neg (free_pos (hsent hw)), List.length_drop]
        split_ifs at hfuel <;> omega
      · exact fill_stuck direct _ _ _ hgrew.ready (by simp [hw])

theorem store_took (h : o.Ready) (hb : o.buffered) (direct : Bool) (p : Text) :
    Took p o (o.store direct p) := by
  refine (fill_filled direct _ 0 p h hb ?_).took
  split_ifs <;> omega

theorem storeCharacter_took (h : o.Ready) (hb : o.buffered) (p : Text) :
    Took p o (o.storeCharacter p) := by
  have hstuck : ∀ {o' : Outlet}, Grew [] o o' → o'.stuck.isSome → Took p o (o', ⟨0, o'.stuck⟩) := by
    intro o' hgrew hs
    refine ⟨hgrew, Nat.zero_le _, fun hn => ?_, fun Q hq => (hgrew.reports Q hq).2⟩
    rw [show o'.stuck = none from hn] at hs
    cases hs
  have hroom : Grew [] o (if o.free < 4 then o.drain else o) := by
    split_ifs
    · exact (drain_grew h hb).1
    · exact .refl h
  unfold storeCharacter
  by_cases h1 : o.stuck.isSome
  · rw [if_pos h1]
    exact hstuck (.refl h) h1
  · rw [if_neg h1]
    generalize (if o.free < 4 then o.drain else o) = o' at hroom ⊢
    simp only []
    split_ifs with h2
    · exact hstuck hroom h2
    · have := hroom.trans (hroom.ready.append (hroom.buffered.trans hb) p)
      exact ⟨by simpa using this, Nat.le_refl _, fun _ => rfl, by simp⟩

theorem writeSink_took (h : o.Ready) (hb : o.buffered = false) (p : Text) :
    Took p o (o.writeSink p) := by
  have ht := o.sink.write_took p
  exact ⟨h.sink_write (h.direct hb) p fun Q hq => hq.2, ht.count_le, ht.whole h.honest,
    fun Q hq => (ht.reports Q hq.1).2⟩

theorem write_took (h : o.Ready) (p : Text) : Took p o (o.write p) := by
  unfold write
  split_ifs with hb
  · exact store_took h hb true p
  · exact writeSink_took h (by simpa using hb) p

theorem deliver_took (h : o.Ready) (p : Piece) : Took p.bytes o (o.deliver p) := by
  unfold deliver
  split_ifs with hb
  · cases p with
    | run bytes => exact store_took h hb _ bytes
    | control bytes => exact store_took h hb true bytes
    | character bytes => exact storeCharacter_took h hb bytes
  · exact writeSink_took h (by simpa using hb) p.bytes

theorem flush_grew (h : o.Ready) :
    Grew [] o o.flush.1 ∧ (o.flush.2 = none → o.flush.1.pending.bytes = [])
      ∧ ∀ Q, o.Reports Q → ∀ q ∈ o.flush.2, Q q := by
  unfold flush
  split_ifs with hb
  · obtain ⟨hgrew, hsent⟩ := drain_grew h hb
    exact ⟨hgrew, fun hn => bytes_of_size (hsent hn), fun Q hq => (hgrew.reports Q hq).2⟩
  · obtain ⟨hkind, hdata, hhonest, hreports⟩ := o.sink.flush_kept
    have hempty := h.direct (by simpa using hb)
    refine ⟨⟨⟨hkind.trans_ne h.keeps, hhonest h.honest, fun _ => hempty⟩, buffered_congr hkind, ?_,
      ?_, fun Q hq => ⟨(hreports Q hq.1).1, hq.2⟩⟩, fun _ => hempty,
      fun Q hq => (hreports Q hq.1).2⟩
    · simp [carried, hdata]
    · rw [hdata]

end Outlet

namespace Outlets

/-- The outlets that the leaves lead to are as `P` says. -/
def Each (P : Outlet → Prop) (ls : List Leaf) (os : Outlets) : Prop :=
  ∀ j, .outlet j ∈ ls → ∀ o, os[j]? = some o → P o

/-- The leaves lead to different outlets. -/
def Distinct (ls : List Leaf) : Prop := ls.Pairwise fun l m => l = .discard ∨ l ≠ m

/-- The text `t`, or a first part of it unless `whole` holds, has gone into each outlet that the
leaves lead to; the other outlets are as they were. -/
structure Grown (ls : List Leaf) (t : Text) (whole : Prop) (os os' : Outlets) : Prop where
  length : os'.length = os.length
  leaf : ∀ j, .outlet j ∈ ls → ∀ o, os[j]? = some o →
    ∃ o' u, os'[j]? = some o' ∧ u <+: t ∧ (whole → u = t) ∧ o.Grew u o'
  other : ∀ j, .outlet j ∉ ls → os'[j]? = os[j]?

/-- The text `t` was sent; all of it, if no problem is reported. -/
structure Sent (ls : List Leaf) (t : Text) (os : Outlets) (r : Delivery) : Prop where
  grown : Grown ls t (r.2.problem = none) os r.1
  whole : r.2.problem = none → r.2.count = t.length
  reports : ∀ Q, Each (Outlet.Reports Q) ls os → ∀ q ∈ r.2.problem, Q q

variable {ls : List Leaf} {l : Leaf} {t t' : Text} {whole whole' : Prop} {os os₁ os₂ : Outlets}

theorem Each.mono {P : Outlet → Prop} {ls' : List Leaf} (h : Each P ls os)
    (hsub : ∀ l ∈ ls', l ∈ ls) : Each P ls' os := fun j hj => h j (hsub _ hj)

theorem Grown.before (h : Grown ls t whole os os₁) {j : Nat} (hj : .outlet j ∈ ls) {o₁ : Outlet}
    (ho₁ : os₁[j]? = some o₁) : ∃ o u, os[j]? = some o ∧ o.Grew u o₁ := by
  have hlt : j < os.length := by
    rw [← h.length]
    exact (List.getElem?_eq_some_iff.1 ho₁).1
  obtain ⟨o₁', u, ho₁', -, -, hgrew⟩ := h.leaf j hj _ (List.getElem?_eq_getElem hlt)
  rw [ho₁] at ho₁'
  cases ho₁'
  exact ⟨_, u, List.getElem?_eq_getElem hlt, hgrew⟩

theorem Grown.ready (h : Grown ls t whole os os₁) : Each Outlet.Ready ls os₁ := by
  intro j hj o₁ ho₁
  obtain ⟨o, u, -, hgrew⟩ := h.before hj ho₁
  exact hgrew.ready

theorem Grown.reports {Q : Problem → Prop} (h : Grown ls t whole os os₁)
    (hq : Each (Outlet.Reports Q) ls os) : Each (Outlet.Reports Q) ls os₁ := by
  intro j hj o₁ ho₁
  obtain ⟨o, u, ho, hgrew⟩ := h.before hj ho₁
  exact hgrew.reports Q (hq j hj o ho)

/-- What was done through the first leaf leaves the other outlets as they were. -/
theorem Grown.each_tail {P : Outlet → Prop} (h : Grown [l] t whole os os₁) (hfirst : Each P [l] os₁)
    (hall : Each P (l :: ls) os) : Each P ls os₁ := by
  intro j hj o ho
  by_cases hjl : .outlet j ∈ [l]
  · exact hfirst j hjl o ho
  · rw [h.other j hjl] at ho
    exact hall j (List.mem_cons_of_mem _ hj) o ho

theorem Grown.ready_tail (h : Grown [l] t whole os os₁) (hready : Each Outlet.Ready (l :: ls) os) :
    Each Outlet.Ready ls os₁ := h.each_tail h.ready hready

theorem Grown.reports_tail {Q : Problem → Prop} (h : Grown [l] t whole os os₁)
    (hq : Each (Outlet.Reports Q) (l :: ls) os) : Each (Outlet.Reports Q) ls os₁ :=
  h.each_tail (h.reports (hq.mono (by simp))) hq

theorem Grown.refl (h : Each Outlet.Ready ls os) (t : Text) : Grown ls t (t = []) os os :=
  ⟨rfl, fun j hj o ho => ⟨o, [], ho, List.nil_prefix, fun ht => ht.symm, .refl (h j hj o ho)⟩,
    fun _ _ => rfl⟩

theorem Grown.imp (h : Grown ls t whole os os₁) (hw : whole' → whole) :
    Grown ls t whole' os os₁ := by
  refine ⟨h.length, fun j hj o ho => ?_, h.other⟩
  obtain ⟨o₁, u, ho₁, hpre, hall, hgrew⟩ := h.leaf j hj o ho
  exact ⟨o₁, u, ho₁, hpre, fun h' => hall (hw h'), hgrew⟩

theorem Grown.trans (h : Grown ls t True os os₁) (h' : Grown ls t' whole os₁ os₂) :
    Grown ls (t ++ t') whole os os₂ := by
  refine ⟨h'.length.trans h.length, fun j hj o ho => ?_, fun j hj => ?_⟩
  · obtain ⟨o₁, u, ho₁, -, hall, hgrew⟩ := h.leaf j hj o ho
    obtain rfl := hall trivial
    obtain ⟨o₂, v, ho₂, hpre, hall', hgrew'⟩ := h'.leaf j hj o₁ ho₁
    refine ⟨o₂, u ++ v, ho₂, (List.prefix_append_right_inj u).2 hpre, fun hw => ?_,
      hgrew.trans hgrew'⟩
    rw [hall' hw]
  · rw [h'.other j hj, h.other j hj]

theorem Grown.extend (h : Grown ls t whole os os₁) (t' : Text) :
    Grown ls (t ++ t') False os os₁ := by
  refine ⟨h.length, fun j hj o ho => ?_, h.other⟩
  obtain ⟨o₁, u, ho₁, hpre, -, hgrew⟩ := h.leaf j hj o ho
  exact ⟨o₁, u, ho₁, hpre.trans (List.prefix_append _ _), False.elim, hgrew⟩

theorem Grown.cons (hl : ∀ m ∈ ls, l = .discard ∨ l ≠ m) (h : Grown [l] t True os os₁)
    (h' : Grown ls t whole os₁ os₂) : Grown (l :: ls) t whole os os₂ := by
  refine ⟨h'.length.trans h.length, fun j hj o ho => ?_, fun j hj => ?_⟩
  · rcases List.mem_cons.1 hj with rfl | hj
    · have hnot : .outlet j ∉ ls := fun hmem => by simpa using hl _ hmem
      obtain ⟨o₁, u, ho₁, hpre, hall, hgrew⟩ := h.leaf j (by simp) o ho
      exact ⟨o₁, u, (h'.other j hnot).trans ho₁, hpre, fun _ => hall trivial, hgrew⟩
    · have hnot : .outlet j ∉ [l] := fun hmem => by
        rw [← List.mem_singleton.1 hmem] at hl
        simpa using hl _ hj
      exact h'.leaf j hj o ((h.other j hnot).trans ho)
  · rw [List.mem_cons, not_or] at hj
    rw [h'.other j hj.2, h.other j (by simpa using hj.1)]

theorem Grown.stop (hready : Each Outlet.Ready (l :: ls) os) (h : Grown [l] t whole os os₁) :
    Grown (l :: ls) t False os os₁ := by
  refine ⟨h.length, fun j hj o ho => ?_, fun j hj => ?_⟩
  · by_cases hjl : .outlet j ∈ [l]
    · obtain ⟨o₁, u, ho₁, hpre, -, hgrew⟩ := h.leaf j hjl o ho
      exact ⟨o₁, u, ho₁, hpre, False.elim, hgrew⟩
    · exact ⟨o, [], (h.other j hjl).trans ho, List.nil_prefix, False.elim,
        .refl (hready j hj o ho)⟩
  · rw [List.mem_cons, not_or] at hj
    exact h.other j (by simpa using hj.1)

theorem Grown.set {j : Nat} {o o' : Outlet} {u : Text} (ho : os[j]? = some o) (hpre : u <+: t)
    (hall : whole → u = t) (hgrew : o.Grew u o') :
    Grown [.outlet j] t whole os (os.set j o') := by
  have hlt := (List.getElem?_eq_some_iff.1 ho).1
  refine ⟨List.length_set, fun k hk o₀ ho₀ => ?_, fun k hk => ?_⟩
  · obtain rfl : k = j := by simpa using hk
    rw [ho] at ho₀
    cases ho₀
    exact ⟨o', u, List.getElem?_set_self hlt, hpre, hall, hgrew⟩
  · refine List.getElem?_set_ne fun hjk => ?_
    rw [hjk] at hk
    simp at hk

theorem Grown.absent {j : Nat} (ho : os[j]? = none) : Grown [.outlet j] t whole os os := by
  refine ⟨rfl, fun k hk o hk' => ?_, fun _ _ => rfl⟩
  obtain rfl : k = j := by simpa using hk
  rw [ho] at hk'
  cases hk'

theorem Grown.discard : Grown [.discard] t whole os os :=
  ⟨rfl, fun j hj => by simp at hj, fun _ _ => rfl⟩

end Outlets

section Leaves

open Outlets

variable {os : Outlets} {p : Text}

theorem Leaf.onOutlet_none {α : Type} {j : Nat} (h : os[j]? = none) (f : Outlet → Outlet × α)
    (absent : α) : onOutlet os j f absent = (os, absent) := by
  simp only [onOutlet, h]

theorem Leaf.onOutlet_some {α : Type} {j : Nat} {o : Outlet} (h : os[j]? = some o)
    (f : Outlet → Outlet × α) (absent : α) :
    onOutlet os j f absent = (os.set j (f o).1, (f o).2) := by
  simp only [onOutlet, h]

theorem Leaf.onOutlet_sent {f : Outlet → Outlet × Written} {j : Nat}
    (hf : ∀ o : Outlet, o.Ready → o.Took p (f o)) (hready : Each Outlet.Ready [.outlet j] os) :
    Sent [.outlet j] p os (onOutlet os j f ⟨p.length, none⟩) := by
  rcases ho : os[j]? with _ | o
  · rw [onOutlet_none ho]
    exact ⟨.absent ho, fun _ => rfl, by simp⟩
  · rw [onOutlet_some ho]
    have ht := hf o (hready j (by simp) o ho)
    refine ⟨.set ho (List.take_prefix _ _) (fun hn => ?_) ht.grew, ht.whole,
      fun Q hq => ht.reports Q (hq j (by simp) o ho)⟩
    rw [ht.whole hn, List.take_length]

theorem Leaf.write_sent {l : Leaf} (hready : Each Outlet.Ready [l] os) (p : Text) :
    Sent [l] p os (l.write os p) := by
  cases l with
  | discard => exact ⟨.discard, fun _ => rfl, by simp [write]⟩
  | outlet j => exact onOutlet_sent (fun o ho => o.write_took ho p) hready

theorem Leaf.deliver_sent {l : Leaf} (hready : Each Outlet.Ready [l] os) (p : Piece) :
    Sent [l] p.bytes os (l.deliver os p) := by
  cases l with
  | discard => exact ⟨.discard, fun _ => rfl, by simp [deliver]⟩
  | outlet j => exact onOutlet_sent (fun o ho => o.deliver_took ho p) hready

theorem Leaf.flush_grown {l : Leaf} (hready : Each Outlet.Ready [l] os) :
    Grown [l] [] True os (l.flush os).1
      ∧ ((l.flush os).2 = none → Each Outlet.Settled [l] (l.flush os).1)
      ∧ ∀ Q, Each (Outlet.Reports Q) [l] os → ∀ q ∈ (l.flush os).2, Q q := by
  cases l with
  | discard => exact ⟨.discard, fun _ j hj => by simp at hj, by simp [flush]⟩
  | outlet j =>
    change Grown [.outlet j] [] True os (onOutlet os j (·.flush) none).1
      ∧ ((onOutlet os j (·.flush) none).2 = none
        → Each Outlet.Settled [.outlet j] (onOutlet os j (·.flush) none).1)
      ∧ ∀ Q, Each (Outlet.Reports Q) [.outlet j] os → ∀ q ∈ (onOutlet os j (·.flush) none).2, Q q
    rcases ho : os[j]? with _ | o
    · rw [onOutlet_none ho]
      refine ⟨.absent ho, fun _ k hk o hk' => ?_, by simp⟩
      obtain rfl : k = j := by simpa using hk
      rw [ho] at hk'
      cases hk'
    · rw [onOutlet_some ho]
      obtain ⟨hgrew, hsent, hreports⟩ := o.flush_grew (hready j (by simp) o ho)
      refine ⟨.set ho List.nil_prefix (fun _ => rfl) hgrew, fun hn k hk o' ho' => ?_,
        fun Q hq => hreports Q (hq j (by simp) o ho)⟩
      obtain rfl : k = j := by simpa using hk
      rw [List.getElem?_set_self (List.getElem?_eq_some_iff.1 ho).1] at ho'
      cases ho'
      exact hsent hn

end Leaves

namespace Channel

open Outlets

variable {os : Outlets}

theorem writeAll_sent (p : Text) : ∀ {ls : List Leaf} {os : Outlets}, Distinct ls →
    Each Outlet.Ready ls os → Sent ls p os (writeAll p os ls)
  | [], os, _, hready =>
    ⟨⟨rfl, fun j hj => by simp at hj, fun _ _ => rfl⟩, fun _ => rfl, by simp [writeAll]⟩
  | l :: ls, os, hdistinct, hready => by
    obtain ⟨hl, hls⟩ := List.pairwise_cons.1 hdistinct
    have hfirst : Each Outlet.Ready [l] os := hready.mono (by simp)
    have hsent := Leaf.write_sent hfirst p
    rw [writeAll]
    rcases hw : l.write os p with ⟨os₁, ⟨n, _ | e⟩⟩ <;> rw [hw] at hsent
    · have hcount : n = p.length := hsent.whole rfl
      have hgrown := hsent.grown.imp fun _ : True => rfl
      have ih := writeAll_sent p hls (hgrown.ready_tail hready)
      simp only [if_pos hcount]
      exact ⟨hgrown.cons hl ih.grown, ih.whole,
        fun Q hq => ih.reports Q (hgrown.reports_tail hq)⟩
    · refine ⟨(hsent.grown.stop hready).imp (by simp), by simp, fun Q hq => ?_⟩
      exact hsent.reports Q (hq.mono (by simp))

theorem deliver_sent {c : Channel} (hdistinct : Distinct c.leaves)
    (hready : Each Outlet.Ready c.leaves os) (p : Piece) :
    Sent c.leaves p.bytes os (c.deliver os p) := by
  unfold deliver
  split
  · rename_i l hl
    rw [hl] at hready ⊢
    exact Leaf.deliver_sent hready p
  · exact writeAll_sent p.bytes hdistinct hready

theorem flushAll_grown : ∀ {ls : List Leaf} {os : Outlets} (p : Option Problem), Distinct ls →
    Each Outlet.Ready ls os → Grown ls [] True os (flushAll p os ls).1
      ∧ ((flushAll p os ls).2 = none → p = none ∧ Each Outlet.Settled ls (flushAll p os ls).1)
      ∧ ∀ Q, Each (Outlet.Reports Q) ls os → (∀ q ∈ p, Q q) → ∀ q ∈ (flushAll p os ls).2, Q q
  | [], os, p, _, hready =>
    ⟨⟨rfl, fun j hj => by simp at hj, fun _ _ => rfl⟩, fun hn => ⟨hn, fun j hj => by simp at hj⟩,
      fun _ _ hp => hp⟩
  | l :: ls, os, p, hdistinct, hready => by
    obtain ⟨hl, hls⟩ := List.pairwise_cons.1 hdistinct
    have hfirst : Each Outlet.Ready [l] os := hready.mono (by simp)
    obtain ⟨hgrown, hsettled, hreports⟩ := Leaf.flush_grown hfirst
    obtain ⟨ih, ihsettled, ihreports⟩ :=
      flushAll_grown (p.or (l.flush os).2) hls (hgrown.ready_tail hready)
    rw [flushAll]
    refine ⟨hgrown.cons hl ih, fun hn => ?_, fun Q hq hp => ?_⟩
    · obtain ⟨hp, hrest⟩ := ihsettled hn
      rw [Option.or_eq_none_iff] at hp
      refine ⟨hp.1, fun j hj o ho => ?_⟩
      by_cases hjls : .outlet j ∈ ls
      · exact hrest j hjls o ho
      · have hsame := ih.other j hjls
        rw [show (flushAll _ _ ls).1[j]? = _ from hsame] at ho
        exact hsettled hp.2 j (by simpa [hjls] using hj) o ho
    · refine ihreports Q (hgrown.reports_tail hq) fun q hmem => ?_
      rcases Option.or_eq_some_iff.1 hmem with h | ⟨-, h⟩
      · exact hp q h
      · exact hreports Q (hq.mono (by simp)) q h

end Channel

section Texts

open Outlets

theorem Ansi.sendAll_sent {c : Channel} (hdistinct : Distinct c.leaves) :
    ∀ (ps : List Piece) (n : Nat) {os : Outlets}, Each Outlet.Ready c.leaves os →
      Grown c.leaves (ps.flatMap Piece.bytes) ((sendAll c.deliver n os ps).2.problem = none) os
          (sendAll c.deliver n os ps).1
        ∧ ((sendAll c.deliver n os ps).2.problem = none →
          (sendAll c.deliver n os ps).2.count = n + (ps.flatMap Piece.bytes).length)
        ∧ ∀ Q, Each (Outlet.Reports Q) c.leaves os →
          ∀ q ∈ (sendAll c.deliver n os ps).2.problem, Q q
  | [], n, os, hready => ⟨(Grown.refl hready []).imp fun _ => rfl, fun _ => rfl, by simp [sendAll]⟩
  | p :: ps, n, os, hready => by
    have hsent := c.deliver_sent hdistinct hready p
    rw [sendAll]
    rcases hw : c.deliver os p with ⟨os₁, ⟨k, _ | e⟩⟩ <;> rw [hw] at hsent
    · have hcount : k = p.bytes.length := hsent.whole rfl
      obtain ⟨ih, ihcount, ihreports⟩ := sendAll_sent hdistinct ps (n + k) hsent.grown.ready
      refine ⟨(hsent.grown.imp fun _ => rfl).trans ih, fun hn => ?_,
        fun Q hq => ihreports Q (hsent.grown.reports hq)⟩
      rw [ihcount hn, hcount]
      simp [Nat.add_assoc]
    · exact ⟨(hsent.grown.extend _).imp (by simp), by simp, hsent.reports⟩

/-- A text goes out in its output form. -/
theorem Ansi.write_sent {c : Channel} {os : Outlets} (hdistinct : Distinct c.leaves)
    (hready : Each Outlet.Ready c.leaves os) (t : Text) :
    Sent c.leaves (form t) os (write c os t) := by
  obtain ⟨hgrown, hcount, hreports⟩ := sendAll_sent hdistinct (pieces t) 0 hready
  rw [pieces_bytes] at hgrown hcount
  rw [Nat.zero_add] at hcount
  exact ⟨hgrown, hcount, hreports⟩

end Texts

end LineForth
