import Mathlib.Data.List.Basic
import LineForth.Proofs.Output

/-!
# When a call succeeds

A call succeeds when reading comes to the end of input.  Then every line was answered, every answer
was taken in full and flushed, and no stream or source had a problem (`Session.Completes`).  For
that the problems of the surroundings must not look like the end of input themselves
(`Session.Unambiguous`): one that has it among its causes is not reported.

The flush after the last round does not count.  A call has ended for a reason by then, and only that
reason is reported.
-/

namespace LineForth

namespace Session

open Outlets

section Building

/-- A session that was set up with honest sinks, and then called and changed in any way that leaves
its output alone. -/
inductive Built : Session → Prop
  | blank : Built {}
  | output {s : Session} {k : Sink} : s.Built → k.Honest → Built (s.apply (.output k))
  | tee {s : Session} {k : Sink} : s.Built → k.Honest → Built (s.apply (.tee k))
  | called {s : Session} {halt : Option Problem} : s.Built → Built (s.interpret halt).1
  | changed {s s' : Session} : s.Built → s'.out = s.out → s'.outlets = s.outlets → Built s'

/-- The output leads to different outlets, all of them there and ready. -/
structure Wired (s : Session) : Prop where
  distinct : Distinct s.out.leaves
  ready : Each Outlet.Ready s.out.leaves s.outlets
  inside : ∀ j, .outlet j ∈ s.out.leaves → j < s.outlets.length

variable {s s' : Session} {k : Sink}

theorem Wired.grown {t : Text} {whole : Prop} (h : s.Wired) (hout : s'.out = s.out)
    (hgrown : Grown s.out.leaves t whole s.outlets s'.outlets) : s'.Wired :=
  ⟨hout ▸ h.distinct, hout ▸ hgrown.ready, by rw [hout, hgrown.length]; exact h.inside⟩

theorem Wired.flush (h : s.Wired) : s.flush.1.Wired :=
  h.grown rfl (flush_grown h.distinct h.ready).1

theorem Wired.interpret (h : s.Wired) (halt : Option Problem) : (s.interpret halt).1.Wired := by
  rcases halt with _ | p
  · obtain ⟨lines, s', e, hruns, hcall⟩ := s.interpret_runs
    obtain ⟨hout, hgrown, -⟩ := hruns.grown h.distinct h.ready
    rw [hcall]
    exact (h.grown hout hgrown).flush
  · exact h.flush

/-- A sink that is attached gets an outlet of its own; a leaf leads there if it keeps anything. -/
theorem attach_leaf (os : Outlets) (k : Sink) :
    ∃ l, Channel.attach os k = (os ++ [{ sink := k }], ⟨[l]⟩)
      ∧ ∀ j, l = .outlet j → k.kind ≠ .discard ∧ j = os.length := by
  unfold Channel.attach
  split_ifs with hk
  · exact ⟨.discard, rfl, by simp⟩
  · refine ⟨.outlet os.length, rfl, fun j hj => ⟨hk, ?_⟩⟩
    exact (Leaf.outlet.inj hj).symm

theorem Wired.attach (h : s.Wired) (hk : k.Honest)
    (houtlets : s'.outlets = (Channel.attach s.outlets k).1)
    (hleaves : s'.out.leaves = s.out.leaves ++ (Channel.attach s.outlets k).2.leaves) :
    s'.Wired := by
  obtain ⟨l, hattach, hl⟩ := attach_leaf s.outlets k
  rw [hattach] at houtlets hleaves
  refine ⟨?_, fun j hj o ho => ?_, fun j hj => ?_⟩
  · rw [hleaves, Distinct, List.pairwise_append]
    refine ⟨h.distinct, List.pairwise_singleton _ _, fun m hm n hn => ?_⟩
    obtain rfl := List.mem_singleton.1 hn
    cases m with
    | discard => exact .inl rfl
    | outlet j => exact .inr fun heq => Nat.ne_of_lt (h.inside j hm) (hl j heq.symm).2
  · rw [houtlets] at ho
    rw [hleaves, List.mem_append] at hj
    rcases hj with hj | hj
    · rw [List.getElem?_append_left (h.inside j hj)] at ho
      exact h.ready j hj o ho
    · obtain ⟨hkind, rfl⟩ := hl j (List.mem_singleton.1 hj).symm
      rw [List.getElem?_concat_length] at ho
      cases ho
      exact ⟨hkind, hk, fun _ => rfl⟩
  · rw [hleaves, List.mem_append] at hj
    rw [houtlets, List.length_append, List.length_singleton]
    rcases hj with hj | hj
    · exact Nat.lt_succ_of_lt (h.inside j hj)
    · exact Nat.lt_succ_of_le (Nat.le_of_eq (hl j (List.mem_singleton.1 hj).symm).2)

theorem tee_leaves (c : Channel) (os : Outlets) (k : Sink) :
    (Channel.tee [some c, some (Channel.attach os k).2]).leaves
      = c.leaves ++ (Channel.attach os k).2.leaves := by
  obtain ⟨l, hattach, -⟩ := attach_leaf os k
  simp [Channel.tee, hattach]

theorem Built.wired (h : s.Built) : s.Wired := by
  induction h with
  | blank =>
    refine ⟨List.pairwise_singleton _ _, fun j hj => ?_, fun j hj => ?_⟩ <;>
      simp [Channel.discard] at hj
  | @output s k _ hk ih =>
    have hnone : Wired { s.flush.1 with out := ⟨[]⟩ } :=
      ⟨List.Pairwise.nil, fun j hj => by simp at hj, fun j hj => by simp at hj⟩
    exact hnone.attach hk rfl rfl
  | @tee s k _ hk ih => exact ih.attach hk rfl (tee_leaves s.out s.outlets k)
  | called _ ih => exact ih.interpret _
  | changed _ hout houtlets ih =>
    exact ⟨hout ▸ ih.distinct, by rw [hout, houtlets]; exact ih.ready,
      by rw [hout, houtlets]; exact ih.inside⟩

theorem Built.applyAll : ∀ (xs : List Setting) {s : Session}, s.Built →
    (∀ k, .output k ∈ xs ∨ .tee k ∈ xs → k.Honest) → (s.applyAll xs).Built
  | [], _, h, _ => h
  | x :: xs, s, h, hhonest => by
    refine Built.applyAll xs ?_ fun k hk => hhonest k (by simpa using hk.imp .inr .inr)
    cases x with
    | output k => exact h.output (hhonest k (by simp))
    | tee k => exact h.tee (hhonest k (by simp))
    | _ => exact h.changed (s.apply_other (by rfl)).2 (s.apply_other (by rfl)).1

theorem built_new {trees : List SettingTree} {listing : Stack → Text}
    (hhonest : ∀ k, .output k ∈ (Settings.combine (SettingTree.values trees)).toList
      ∨ .tee k ∈ (Settings.combine (SettingTree.values trees)).toList → k.Honest) :
    (new trees listing).Built := by
  have hblank : (Session.blank listing).Built := Built.blank.changed rfl rfl
  unfold new ofSettings
  exact (hblank.applyAll _ hhonest).changed rfl rfl

end Building

section Completing

/-- The answer to a line is taken in full, and flushed without a problem. -/
def Delivers (s : Session) (line response : Text) (s' : Session) : Prop :=
  match record s.echo line response with
  | none => s' = s
  | some t => ∃ os, Ansi.write s.out s.outlets t = (os, ⟨(Ansi.form t).length, none⟩)
      ∧ { s with outlets := os }.flush = (s', none)

/-- All that can be read is read, to the end of input, and answered. -/
inductive Completes : Session → List Text → Session → Prop
  | ended {s s' : Session} : s.deliveries = [] → s.fetch = (s', .error .endOfFile) →
      Completes s [] s'
  | answered {s s₁ s₂ s' : Session} {line response : Text} {lines : List Text} :
      s.Hears line s₁ (.answer response) → s₁.Delivers line response s₂ →
      Completes s₂ lines s' → Completes s (line :: lines) s'

/-- No problem of reading or writing has the end of input among its causes. -/
structure Unambiguous (s : Session) : Prop where
  reading : ∀ p, .error p ∈ s.deliveries → ¬ p.has .endOfFile
  final : s.final.has .endOfFile → s.final = .endOfFile
  writing : Each (Outlet.Reports fun p => ¬ p.has .endOfFile) s.out.leaves s.outlets

variable {s s' : Session} {line response : Text} {lines : List Text} {e : Ending}

theorem Delivers.respond (h : s.Delivers line response s') :
    s.respond line response = (s', none) := by
  unfold Delivers at h
  unfold Session.respond
  rcases hrec : record s.echo line response with _ | t <;> rw [hrec] at h
  · obtain rfl : s' = s := h
    rfl
  · obtain ⟨os, hwrite, hflush⟩ := h
    simp only [hwrite]
    exact hflush

/-- Without a problem, honest sinks have taken all that they were given. -/
theorem respond_delivers (hdistinct : Distinct s.out.leaves)
    (hready : Each Outlet.Ready s.out.leaves s.outlets)
    (h : s.respond line response = (s', none)) : s.Delivers line response s' := by
  unfold Delivers
  unfold respond at h
  rcases hrec : record s.echo line response with _ | t <;> rw [hrec] at h
  · exact (congrArg Prod.fst h).symm
  · have hwhole := (Ansi.write_sent hdistinct hready t).whole
    simp only [] at h
    rcases hw : Ansi.write s.out s.outlets t with ⟨os, ⟨n, _ | q⟩⟩ <;> rw [hw] at h hwhole
    · obtain rfl : n = (Ansi.form t).length := hwhole rfl
      exact ⟨os, hw, h⟩
    · cases h

theorem Completes.runs (h : Completes s lines s') : Runs s lines s' (.unread .endOfFile) := by
  induction h with
  | ended _ hf => exact .unread hf
  | answered hh hd _ ih => exact .answered hh hd.respond ih

theorem Runs.completes (h : Runs s lines s' e) (he : e = .unread .endOfFile)
    (hd : s.deliveries = lines.map .ok) (hdistinct : Distinct s.out.leaves)
    (hready : Each Outlet.Ready s.out.leaves s.outlets) : Completes s lines s' := by
  induction h with
  | unread hf =>
    cases he
    exact .ended hd hf
  | broken | unwritten => cases he
  | answered hh hr _ ih =>
    obtain ⟨hout, hgrown, -⟩ := hh.grown hr hdistinct hready
    obtain ⟨hout₁, houtlets₁, -⟩ := hh.keeps
    rw [hh.deliveries, ← respond_deliveries hr] at hd
    rw [hout] at ih
    have hrest := ih he (List.cons.inj hd).2 hdistinct hgrown.ready
    refine .answered hh (respond_delivers ?_ ?_ hr) hrest
    · rwa [hout₁]
    · rwa [hout₁, houtlets₁]

end Completing

theorem crash_not_end (f : Fault) : ¬ (Stop.fault f).toProblem.has .endOfFile := by
  cases f <;> simp [Stop.toProblem, Problem.ofFault, Problem.has, Problem.causes, Problem.ownKind]

theorem report_eq_none {last : Location} {p : Problem} :
    report last p = none ↔ p.has .endOfFile := by
  unfold report
  split_ifs <;> simp_all

end Session

end LineForth
