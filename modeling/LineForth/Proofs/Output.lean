import Mathlib.Data.List.Basic
import Mathlib.Data.List.Infix
import LineForth.Proofs.Rounds
import LineForth.Proofs.Sinks

/-!
# The output of a session

What a session has to write is settled by what it reads: `Session.ideal` gives, for each line up to
the first that breaks off or cannot be read, the output form of its response.  A run writes that and
nothing else, until something cannot be written, to each of its sinks (`Runs.grown`).

In a new session the sinks are those of its settings, in their order (`attached_new`).  Whatever
goes wrong with one of them, and when, each holds a first part of the ideal output in the end.
-/

namespace LineForth

namespace Session

open Outlets

section Ideal

/-- What is to be written for a line. -/
def answered (echo : Bool) (line response : Text) : Text :=
  let t := if echo then line ++ response else response
  if t = [] then [] else Ansi.form t ++ [Text.newline]

/-- What is to be written for all that is read, until a line breaks off or cannot be read. -/
def idealFrom (echo : Bool) : Interpreter → List (Except Problem Text) → Text
  | i, .ok line :: ds =>
    match i.readLine line with
    | (i, .answer response) => answered echo line response ++ idealFrom echo i ds
    | (_, .fault _) => []
  | _, _ => []

def ideal (s : Session) : Text := idealFrom s.echo s.core s.deliveries

theorem idealFrom_alike (echo : Bool) : ∀ (ds : List (Except Problem Text)) {i j : Interpreter},
    i.Alike j → idealFrom echo i ds = idealFrom echo j ds
  | [], _, _, _ => rfl
  | .error _ :: _, _, _, _ => rfl
  | .ok line :: ds, i, j, h => by
    obtain ⟨halike, hreply⟩ := h.readLine line
    rw [idealFrom, idealFrom]
    rcases hi : i.readLine line with ⟨i', r⟩
    rcases hj : j.readLine line with ⟨j', r'⟩
    rw [hi, hj] at halike hreply
    obtain rfl : r = r' := hreply
    cases r with
    | answer response => simp only [idealFrom_alike echo ds halike]
    | fault f => rfl

theorem record_form (echo : Bool) (line response : Text) :
    ((record echo line response).map Ansi.form).getD [] = answered echo line response := by
  unfold record answered
  simp only [List.isEmpty_iff]
  generalize (if echo then line ++ response else response) = t
  split_ifs <;> simp [Ansi.form_newline]

end Ideal

section Writing

variable {s s₁ s' : Session} {line response : Text} {lines : List Text} {e : Ending}

theorem flush_grown (hdistinct : Distinct s.out.leaves)
    (hready : Each Outlet.Ready s.out.leaves s.outlets) :
    Grown s.out.leaves [] True s.outlets s.flush.1.outlets
      ∧ (s.flush.2 = none → Each Outlet.Settled s.out.leaves s.flush.1.outlets)
      ∧ ∀ Q, Each (Outlet.Reports Q) s.out.leaves s.outlets → ∀ q ∈ s.flush.2, Q q := by
  obtain ⟨hgrown, hsettled, hreports⟩ := Channel.flushAll_grown none hdistinct hready
  exact ⟨hgrown, fun hn => (hsettled hn).2, fun Q hq => hreports Q hq (by simp)⟩

/-- Responding writes what is to be written for the line, all of it unless a problem is reported. -/
theorem respond_grown {p : Option Problem} (hdistinct : Distinct s.out.leaves)
    (hready : Each Outlet.Ready s.out.leaves s.outlets)
    (h : s.respond line response = (s', p)) :
    Grown s.out.leaves (answered s.echo line response) (p = none) s.outlets s'.outlets
      ∧ ∀ Q, Each (Outlet.Reports Q) s.out.leaves s.outlets → ∀ q ∈ p, Q q := by
  have hform := record_form s.echo line response
  unfold respond at h
  rcases hrec : record s.echo line response with _ | t <;> rw [hrec] at h hform
  · cases h
    rw [← hform]
    exact ⟨(Grown.refl hready []).imp fun _ => rfl, by simp⟩
  · have hsent := Ansi.write_sent hdistinct hready t
    rw [Option.map_some, Option.getD_some] at hform
    rw [hform] at hsent
    simp only [] at h
    rcases hw : Ansi.write s.out s.outlets t with ⟨os, ⟨n, _ | q⟩⟩ <;> rw [hw] at h hsent
    · have hflush := flush_grown (s := { s with outlets := os }) hdistinct hsent.grown.ready
      rw [show ({ s with outlets := os } : Session).flush = (s', p) from h] at hflush
      have hall := (hsent.grown.imp fun _ : True => rfl).trans hflush.1
      rw [List.append_nil] at hall
      exact ⟨hall.imp fun _ => trivial, fun Q hq => hflush.2.2 Q (hsent.grown.reports hq)⟩
    · cases h
      exact ⟨hsent.grown.imp (by simp), hsent.reports⟩

theorem ideal_line {r : Reply} (h : s.Hears line s₁ r) : s.ideal
    = match r with
      | .answer response => answered s.echo line response ++ s₁.ideal
      | .fault _ => [] := by
  obtain ⟨halike, hreply⟩ := h.core
  rw [ideal, h.deliveries, idealFrom]
  rcases hread : s.core.readLine line with ⟨i, r'⟩
  rw [hread] at halike hreply
  obtain rfl : r' = r := hreply
  cases r' with
  | answer response =>
    simp only [ideal, h.keeps.2.2, idealFrom_alike s.echo s₁.deliveries halike]
  | fault f => rfl

theorem ideal_unread {p : Problem} (h : s.fetch = (s', .error p)) : s.ideal = [] := by
  unfold ideal
  rcases fetch_deliveries h with h | ⟨h, -⟩ <;> rw [h] <;> rfl

theorem respond_ideal {p : Option Problem} (h : s.respond line response = (s', p)) :
    s'.ideal = s.ideal := by
  rw [respond_eq h]
  rfl

theorem Hears.grown {p : Option Problem} (hh : s.Hears line s₁ (.answer response))
    (hr : s₁.respond line response = (s', p)) (hdistinct : Distinct s.out.leaves)
    (hready : Each Outlet.Ready s.out.leaves s.outlets) :
    s'.out = s.out
      ∧ Grown s.out.leaves (answered s.echo line response) (p = none) s.outlets s'.outlets
      ∧ ∀ Q, Each (Outlet.Reports Q) s.out.leaves s.outlets → ∀ q ∈ p, Q q := by
  obtain ⟨hout, houtlets, hecho⟩ := hh.keeps
  rw [← hout] at hdistinct
  rw [← hout, ← houtlets] at hready
  have hgrown := respond_grown hdistinct hready hr
  rw [hout, houtlets, hecho] at hgrown
  refine ⟨?_, hgrown⟩
  rw [respond_eq hr]
  exact hout

/-- A run writes what it has to, all of it unless it ends because something cannot be written. -/
theorem Runs.grown (h : Runs s lines s' e) (hdistinct : Distinct s.out.leaves)
    (hready : Each Outlet.Ready s.out.leaves s.outlets) :
    s'.out = s.out
      ∧ Grown s.out.leaves s.ideal (∀ p, e ≠ .unwritten p) s.outlets s'.outlets
      ∧ ∀ Q, Each (Outlet.Reports Q) s.out.leaves s.outlets → ∀ q, e = .unwritten q → Q q := by
  induction h with
  | @unread s s' p hf =>
    obtain ⟨-, hout, houtlets, -⟩ := s.fetch_keeps
    rw [hf] at hout houtlets
    rw [ideal_unread hf, houtlets]
    exact ⟨hout, (Grown.refl hready []).imp fun _ => rfl, by simp⟩
  | broken hh =>
    rw [ideal_line hh, hh.keeps.2.1]
    exact ⟨hh.keeps.1, (Grown.refl hready []).imp fun _ => rfl, by simp⟩
  | unwritten hh hr =>
    obtain ⟨hout, hgrown, hreports⟩ := hh.grown hr hdistinct hready
    rw [ideal_line hh]
    refine ⟨hout, (hgrown.extend _).imp fun hne => hne _ rfl, fun Q hq q he => ?_⟩
    cases he
    exact hreports Q hq _ rfl
  | answered hh hr _ ih =>
    obtain ⟨hout, hgrown, -⟩ := hh.grown hr hdistinct hready
    rw [hout] at ih
    obtain ⟨ihout, ihgrown, ihreports⟩ := ih hdistinct hgrown.ready
    rw [ideal_line hh, ← respond_ideal hr]
    exact ⟨ihout, (hgrown.imp fun _ : True => rfl).trans ihgrown,
      fun Q hq => ihreports Q (hgrown.reports hq)⟩

end Writing

end Session

section Attaching

def Setting.isSink : Setting → Bool
  | .output _ | .tee _ => true
  | _ => false

namespace Session

open Outlets

/-- The output leads to these sinks, in order, and nothing was written yet. -/
structure Attached (sinks : List Sink) (s : Session) : Prop where
  outlets : s.outlets = sinks.map fun k => { sink := k }
  leaves : s.out.leaves = (List.range sinks.length).map Leaf.outlet

variable {s : Session} {sinks tees : List Sink} {first k : Sink}

theorem apply_other (s : Session) {x : Setting} (h : x.isSink = false) :
    (s.apply x).outlets = s.outlets ∧ (s.apply x).out = s.out := by
  cases x with
  | output | tee => cases h
  | lines source =>
    simp only [apply, addSource]
    split_ifs <;> exact ⟨rfl, rfl⟩
  | _ => exact ⟨rfl, rfl⟩

theorem Attached.other (h : Attached sinks s) {x : Setting} (hx : x.isSink = false) :
    Attached sinks (s.apply x) := by
  obtain ⟨houtlets, hout⟩ := s.apply_other hx
  exact ⟨houtlets.trans h.outlets, by rw [hout, h.leaves]⟩

theorem Attached.tee (h : Attached sinks s) (hk : k.kind ≠ .discard) :
    Attached (sinks ++ [k]) (s.apply (.tee k)) := by
  refine ⟨?_, ?_⟩
  · simp [apply, addTee, Channel.attach, h.outlets]
  · simp [apply, addTee, Channel.attach, Channel.tee, h.outlets, h.leaves, hk, List.range_succ]

/-- Each tee adds its sink behind those that are there. -/
theorem Attached.applyAll : ∀ (xs : List Setting) {tees sinks : List Sink} {s : Session},
    Attached sinks s → (∀ k ∈ tees, k.kind ≠ .discard) →
    xs.filter Setting.isSink = tees.map .tee → Attached (sinks ++ tees) (s.applyAll xs)
  | [], tees, sinks, s, h, _, hxs => by
    obtain rfl : tees = [] := by simpa using hxs
    rwa [List.append_nil]
  | x :: xs, tees, sinks, s, h, hkinds, hxs => by
    rcases hx : x.isSink
    · rw [List.filter_cons_of_neg (by simp [hx])] at hxs
      exact Attached.applyAll xs (h.other hx) hkinds hxs
    · rw [List.filter_cons_of_pos hx] at hxs
      rcases tees with _ | ⟨k, tees⟩
      · cases hxs
      · obtain ⟨rfl, hrest⟩ := List.cons.inj hxs
        rw [← List.singleton_append, ← List.append_assoc]
        exact Attached.applyAll xs (h.tee (hkinds k (by simp)))
          (fun k' hk' => hkinds k' (by simp [hk'])) hrest

theorem attached_output (hout : s.out = .discard) (houtlets : s.outlets = [])
    (hk : first.kind ≠ .discard) : Attached [first] (s.apply (.output first)) := by
  have hflush : s.flush.1.outlets = [] := by
    simp [flush, Channel.flush, hout, Channel.discard, Channel.flushAll, Leaf.flush, houtlets]
  refine ⟨?_, ?_⟩
  · simp [apply, setOutput, hflush, Channel.attach]
  · simp [apply, setOutput, hflush, Channel.attach, hk]

theorem attached_applyAll : ∀ (xs : List Setting) {s : Session}, s.out = .discard →
    s.outlets = [] → (∀ k ∈ first :: tees, k.kind ≠ .discard) →
    xs.filter Setting.isSink = .output first :: tees.map .tee →
    Attached (first :: tees) (s.applyAll xs)
  | [], s, _, _, _, hxs => by cases hxs
  | x :: xs, s, hout, houtlets, hkinds, hxs => by
    rcases hx : x.isSink
    · rw [List.filter_cons_of_neg (by simp [hx])] at hxs
      obtain ⟨houtlets', hout'⟩ := s.apply_other hx
      exact attached_applyAll xs (hout'.trans hout) (houtlets'.trans houtlets) hkinds hxs
    · rw [List.filter_cons_of_pos hx] at hxs
      obtain ⟨rfl, hrest⟩ := List.cons.inj hxs
      exact (attached_output hout houtlets (hkinds first (by simp))).applyAll xs
        (fun k hk => hkinds k (by simp [hk])) hrest

theorem Attached.distinct (h : Attached sinks s) : Distinct s.out.leaves := by
  rw [h.leaves, Distinct, List.pairwise_map]
  exact List.nodup_range.imp fun hne => .inr fun heq => hne (Leaf.outlet.inj heq)

theorem Attached.each (h : Attached sinks s) {P : Outlet → Prop}
    (hP : ∀ k ∈ sinks, P { sink := k }) : Each P s.out.leaves s.outlets := by
  intro j _ o ho
  rw [h.outlets, List.getElem?_map, Option.map_eq_some_iff] at ho
  obtain ⟨k, hk, rfl⟩ := ho
  exact hP k (List.mem_of_getElem? hk)

theorem Attached.withCore (h : Attached sinks s) (core : Interpreter) :
    Attached sinks { s with core } := ⟨h.outlets, h.leaves⟩

theorem attached_new {trees : List SettingTree} {listing : Stack → Text}
    (hkinds : ∀ k ∈ first :: tees, k.kind ≠ .discard)
    (hsinks : (Settings.combine (SettingTree.values trees)).toList.filter Setting.isSink
      = .output first :: tees.map .tee) : Attached (first :: tees) (new trees listing) := by
  have h := attached_applyAll (s := blank listing) _ rfl rfl hkinds hsinks
  unfold new ofSettings
  exact h.withCore _

/-- An outlet of a sink that has taken in the text `u` has passed on a first part of it. -/
theorem passed_on {k : Sink} {o : Outlet} {u : Text} (h : Outlet.Grew u { sink := k } o) :
    ∃ t, o.sink.data = k.data ++ t ∧ t <+: u ∧ (o.Settled → t = u) := by
  obtain ⟨t, ht⟩ := h.kept
  have hcarried : t ++ o.pending.bytes = u := by
    have := h.carried
    simp only [Outlet.carried, ← ht, List.append_assoc] at this
    simpa using this
  refine ⟨t, ht.symm, ⟨_, hcarried⟩, fun hs => ?_⟩
  rw [← hcarried, show o.pending.bytes = [] from hs, List.append_nil]

end Session

end Attaching

namespace Session

/-- After a call each sink of a new session, whatever its interpreter, holds a first part of the
ideal output behind what it held before.  It holds all of it if nothing went wrong with the output,
and with sinks that never report a problem nothing does. -/
theorem sinks_hold_ideal (trees : List SettingTree) (listing : Stack → Text) (core : Interpreter)
    (first : Sink) (tees : List Sink)
    (hsinks : (Settings.combine (SettingTree.values trees)).toList.filter Setting.isSink
      = .output first :: tees.map .tee)
    (hkinds : ∀ k ∈ first :: tees, k.kind ≠ .discard) (hhonest : ∀ k ∈ first :: tees, k.Honest) :
    let s : Session := { new trees listing with core }
    ∃ lines s' e, Runs s lines s' e ∧ (s.interpret none).1 = s'.flush.1
      ∧ ((∀ k ∈ first :: tees, k.Reports fun _ => False) →
        (∀ p, e ≠ .unwritten p) ∧ s'.flush.2 = none)
      ∧ ∀ (j : Nat) k, (first :: tees)[j]? = some k →
        ∃ o t, s'.flush.1.outlets[j]? = some o ∧ o.sink.data = k.data ++ t ∧ t <+: s.ideal
          ∧ ((∀ p, e ≠ .unwritten p) → s'.flush.2 = none → t = s.ideal) := by
  intro s
  have hattached : Attached (first :: tees) s := (attached_new hkinds hsinks).withCore core
  clear_value s
  have hdistinct := hattached.distinct
  have hready : Outlets.Each Outlet.Ready s.out.leaves s.outlets :=
    hattached.each fun k hk => ⟨hkinds k hk, hhonest k hk, fun _ => rfl⟩
  obtain ⟨lines, s', e, hruns, hcall⟩ := s.interpret_runs
  obtain ⟨hout, hgrown, hreports⟩ := hruns.grown hdistinct hready
  rw [← hout] at hdistinct
  obtain ⟨hflushed, hsettled, hflushes⟩ := flush_grown hdistinct (hout ▸ hgrown.ready)
  rw [hout] at hflushed hsettled hflushes
  refine ⟨lines, s', e, hruns, by rw [hcall], fun hw => ?_, fun j k hk => ?_⟩
  · have hnever : Outlets.Each (Outlet.Reports fun _ => False) s.out.leaves s.outlets :=
      hattached.each fun k hk => ⟨hw k hk, by simp⟩
    exact ⟨hreports _ hnever, Option.eq_none_iff_forall_not_mem.2
      (hflushes _ (hgrown.reports hnever))⟩
  · have hleaf : .outlet j ∈ s.out.leaves := by
      rw [hattached.leaves]
      exact List.mem_map_of_mem (List.mem_range.2 (List.getElem?_eq_some_iff.1 hk).1)
    have ho : s.outlets[j]? = some { sink := k } := by
      rw [hattached.outlets, List.getElem?_map, hk]
      rfl
    obtain ⟨o, u, ho', hpre, hall, hgrew⟩ := hgrown.leaf j hleaf _ ho
    obtain ⟨o', v, ho'', -, hnil, hgrew'⟩ := hflushed.leaf j hleaf o ho'
    obtain rfl := hnil trivial
    have hboth := hgrew.trans hgrew'
    rw [List.append_nil] at hboth
    obtain ⟨t, hdata, htu, hwhole⟩ := passed_on hboth
    refine ⟨o', t, ho'', hdata, htu.trans hpre, fun he hf => ?_⟩
    rw [hwhole (hsettled hf j hleaf o' ho''), hall he]

/-- The first sink refuses the second answer halfway, which then does not reach the other one. -/
theorem sinks_hold_ideal_cut :
    let cut : Sink := { kind := .flusher, room := some 8, refusal := some .shortWrite }
    let whole : Sink := { kind := .buffer }
    let trees : List SettingTree :=
      [.one (.input { lines := [[0x31], [0x32]] }), .one (.output cut),
        .group [.one (.echo true), .absent, .one (.tee whole)]]
    let s : Session := { new trees with core := {} }
    (Settings.combine (SettingTree.values trees)).toList.filter Setting.isSink
        = .output cut :: [whole].map .tee
      ∧ (∀ k ∈ [cut, whole], k.kind ≠ .discard) ∧ (∀ k ∈ [cut, whole], k.Honest)
      ∧ (s.interpret none).1.outlets.map (·.sink.data)
        = [[0x31, 0x20, 0x20, 0x6F, 0x6B, 0x0A, 0x32, 0x20], [0x31, 0x20, 0x20, 0x6F, 0x6B, 0x0A]]
      ∧ (∃ lines s' e, Runs s lines s' e ∧ (s.interpret none).1 = s'.flush.1
        ∧ ∀ (j : Nat) k, [cut, whole][j]? = some k →
          ∃ o t, s'.flush.1.outlets[j]? = some o ∧ o.sink.data = k.data ++ t ∧ t <+: s.ideal) := by
  intro cut whole trees s
  have hsinks : (Settings.combine (SettingTree.values trees)).toList.filter Setting.isSink
      = .output cut :: [whole].map .tee := by decide
  have hkinds : ∀ k ∈ [cut, whole], k.kind ≠ .discard := by decide
  have hhonest : ∀ k ∈ [cut, whole], k.Honest := by simp [cut, whole, Sink.Honest, Sink.bounded]
  refine ⟨hsinks, hkinds, hhonest, by decide, ?_⟩
  obtain ⟨lines, s', e, hruns, hcall, -, hdata⟩ :=
    sinks_hold_ideal trees Stack.listing {} cut [whole] hsinks hkinds hhonest
  refine ⟨lines, s', e, hruns, hcall, fun j k hk => ?_⟩
  obtain ⟨o, t, ho, hstored, hpre, -⟩ := hdata j k hk
  exact ⟨o, t, ho, hstored, hpre⟩

end Session

end LineForth
