import LineForth.Proofs.Layout
import LineForth.Proofs.Settings
import LineForth.Proofs.Success

/-!
# Sinks that never fail

A steady sink takes all that it is given and has nothing to report.  A new session whose sinks are
steady never ends because something cannot be written, and after a call each of the sinks that its
output leads to holds all that there was to write (`writes_ideal`).

What there was to write is told by the replies to the lines (`idealFrom_replies`): the answers, one
after the other, up to a line that breaks off.
-/

namespace LineForth

/-- Takes all that it is given, and reports no problem with a write or a flush. -/
def Sink.Steady (k : Sink) : Prop :=
  k.bounded → k.room = none ∧ k.flushRefusal = none
    ∧ ∀ t ∈ k.turns, t.most = none ∧ t.problem = none

instance (k : Sink) : Decidable k.Steady :=
  inferInstanceAs (Decidable (k.bounded → k.room = none ∧ k.flushRefusal = none
    ∧ ∀ t ∈ k.turns, t.most = none ∧ t.problem = none))

theorem Sink.Steady.honest {k : Sink} (h : k.Steady) : k.Honest := by
  intro hb
  obtain ⟨hroom, -, hturns⟩ := h hb
  refine ⟨fun hsome => ?_, fun t ht hsome => ?_⟩
  · rw [hroom] at hsome
    cases hsome
  · rw [(hturns t ht).1] at hsome
    cases hsome

theorem Sink.Steady.reports {k : Sink} (h : k.Steady) : k.Reports fun _ => False := by
  intro hb
  obtain ⟨hroom, hflush, hturns⟩ := h hb
  refine ⟨fun hsome => ?_, by simp [hflush], fun t ht => by simp [(hturns t ht).2]⟩
  rw [hroom] at hsome
  cases hsome

namespace Session

open Outlets

section Reaching

/-- The outlet that a leaf leads to, if it keeps anything. -/
def outletOf (os : Outlets) : Leaf → Option Outlet
  | .discard => none
  | .outlet j => os[j]?

/-- The outlets that the output leads to, in order. -/
def reached (s : Session) : List Outlet := s.out.leaves.filterMap (outletOf s.outlets)

theorem mem_reached {s : Session} {o : Outlet} :
    o ∈ s.reached ↔ ∃ j, .outlet j ∈ s.out.leaves ∧ s.outlets[j]? = some o := by
  rw [reached, List.mem_filterMap]
  constructor
  · rintro ⟨_ | j, hl, ho⟩
    · cases ho
    · exact ⟨j, hl, ho⟩
  · rintro ⟨j, hl, ho⟩
    exact ⟨.outlet j, hl, ho⟩

theorem reached_withCore (s : Session) (core : Interpreter) :
    ({ s with core } : Session).reached = s.reached := rfl

theorem source_withCore (s : Session) (core : Interpreter) :
    ({ s with core } : Session).source = s.source := rfl

theorem input_withCore (s : Session) (core : Interpreter) :
    ({ s with core } : Session).input = s.input := rfl

theorem Wired.withCore {s : Session} (h : s.Wired) (core : Interpreter) :
    ({ s with core } : Session).Wired := ⟨h.distinct, h.ready, h.inside⟩

theorem each_iff {s : Session} {P : Outlet → Prop} :
    Each P s.out.leaves s.outlets ↔ ∀ o ∈ s.reached, P o := by
  constructor
  · intro h o ho
    obtain ⟨j, hj, ho⟩ := mem_reached.1 ho
    exact h j hj o ho
  · intro h j hj o ho
    exact h o (mem_reached.2 ⟨j, hj, ho⟩)

end Reaching

section Settings

/-- The sinks that settings name. -/
def named (settings : List Setting) : List Sink :=
  settings.filterMap fun
    | .output k => some k
    | .tee k => some k
    | _ => none

/-- The sinks in use after a setting: a new output replaces those before it, and a tee joins them.
A sink that keeps nothing does not count. -/
def use (ks : List Sink) : Setting → List Sink
  | .output k => [k].filter (·.kind ≠ .discard)
  | .tee k => ks ++ [k].filter (·.kind ≠ .discard)
  | _ => ks

def inUse (settings : List Setting) : List Sink := settings.foldl use []

/-- The outlet of a sink that nothing was written to. -/
def unused (k : Sink) : Outlet := { sink := k }

variable {s s' : Session} {k : Sink} {ks : List Sink}

theorem mem_named {xs : List Setting} : k ∈ named xs ↔ .output k ∈ xs ∨ .tee k ∈ xs := by
  rw [named, List.mem_filterMap]
  constructor
  · rintro ⟨x, hx, hk⟩
    cases x with
    | output => exact .inl (Option.some.inj hk ▸ hx)
    | tee => exact .inr (Option.some.inj hk ▸ hx)
    | _ => cases hk
  · rintro (h | h)
    · exact ⟨_, h, rfl⟩
    · exact ⟨_, h, rfl⟩

theorem mem_use {x : Setting} (h : k ∈ use ks x) : k ∈ ks ∨ x = .output k ∨ x = .tee k := by
  cases x with
  | output => simp_all [use]
  | tee =>
    rcases List.mem_append.1 h with h | h
    · exact .inl h
    · simp_all
  | _ => exact .inl h

theorem mem_foldl_use : ∀ (xs : List Setting) {ks : List Sink}, k ∈ xs.foldl use ks →
    k ∈ ks ∨ k ∈ named xs
  | [], _, h => .inl h
  | x :: xs, ks, h => by
    rcases mem_foldl_use xs h with h | h
    · rcases mem_use h with h | rfl | rfl
      · exact .inl h
      · exact .inr (mem_named.2 (.inl (List.mem_cons_self ..)))
      · exact .inr (mem_named.2 (.inr (List.mem_cons_self ..)))
    · exact .inr (mem_named.2
        ((mem_named.1 h).imp (List.mem_cons_of_mem _) (List.mem_cons_of_mem _)))

theorem mem_inUse {xs : List Setting} (h : k ∈ inUse xs) : k ∈ named xs :=
  (mem_foldl_use xs h).resolve_left List.not_mem_nil

/-- A sink that is attached is reached behind those that are reached already. -/
theorem reached_attach (hinside : ∀ j, .outlet j ∈ s.out.leaves → j < s.outlets.length)
    (houtlets : s'.outlets = (Channel.attach s.outlets k).1)
    (hleaves : s'.out.leaves = s.out.leaves ++ (Channel.attach s.outlets k).2.leaves) :
    s'.reached = s.reached ++ ([k].filter (·.kind ≠ .discard)).map unused := by
  have hold : s.out.leaves.filterMap (outletOf s'.outlets) = s.reached := by
    refine List.filterMap_congr fun l hl => ?_
    cases l with
    | discard => rfl
    | outlet j =>
      rw [houtlets]
      exact List.getElem?_append_left (hinside j hl)
  rw [reached, hleaves, List.filterMap_append, hold, houtlets]
  by_cases hk : k.kind = .discard <;>
    simp [Channel.attach, hk, Channel.discard, outletOf, unused]

theorem reached_apply (h : s.Wired) (hreached : s.reached = ks.map unused) (x : Setting) :
    (s.apply x).reached = (use ks x).map unused := by
  cases x with
  | output k =>
    have hinside : ∀ j, .outlet j ∈ ({ s.flush.1 with out := ⟨[]⟩ } : Session).out.leaves →
        j < s.flush.1.outlets.length := fun j hj => by simp at hj
    exact reached_attach hinside rfl rfl
  | tee k =>
    have htee : (s.apply (.tee k)).reached = s.reached ++ _ :=
      reached_attach h.inside rfl (tee_leaves s.out s.outlets k)
    rw [htee, hreached, ← List.map_append]
    rfl
  | lines source =>
    obtain ⟨houtlets, hout⟩ := s.apply_other (x := .lines source) rfl
    rw [reached, houtlets, hout]
    exact hreached
  | _ => exact hreached

theorem reached_applyAll : ∀ (xs : List Setting) {s : Session} {ks : List Sink}, s.Built →
    s.reached = ks.map unused → (∀ k ∈ named xs, k.Honest) →
    (s.applyAll xs).reached = (xs.foldl use ks).map unused
  | [], _, _, _, hreached, _ => hreached
  | x :: xs, s, ks, h, hreached, hhonest => by
    have hbuilt : (s.apply x).Built := by
      refine h.applyAll [x] fun k hk => hhonest k (mem_named.2 ?_)
      exact hk.imp (fun hk => by simp_all) fun hk => by simp_all
    refine reached_applyAll xs hbuilt (reached_apply h.wired hreached x) fun k hk => ?_
    refine hhonest k (mem_named.2 ?_)
    exact (mem_named.1 hk).imp (List.mem_cons_of_mem _) (List.mem_cons_of_mem _)

/-- The output of a new session leads to the sinks that its settings leave in use. -/
theorem reached_new {trees : List SettingTree} (listing : Stack → Text)
    (hhonest : ∀ k ∈ named (SettingTree.leavesOf trees), k.Honest) :
    (new trees listing).Wired
      ∧ (new trees listing).reached = (inUse (SettingTree.leavesOf trees)).map unused := by
  have hblank : (blank listing).Built := Built.blank.changed rfl rfl
  have hbuilt : ((blank listing).applyAll (SettingTree.leavesOf trees)).Built :=
    hblank.applyAll _ fun k hk => hhonest k (mem_named.2 hk)
  have hreached : ((blank listing).applyAll (SettingTree.leavesOf trees)).reached
      = (inUse (SettingTree.leavesOf trees)).map unused :=
    reached_applyAll _ hblank rfl hhonest
  rw [new_eq]
  exact ⟨hbuilt.wired.withCore _, (reached_withCore _ _).trans hreached⟩

end Settings

section Replies

theorem replies_alike : ∀ (lines : List Text) {i j : Interpreter}, i.Alike j →
    i.replies lines = j.replies lines
  | [], _, _, _ => rfl
  | line :: lines, i, j, h => by
    obtain ⟨halike, hreply⟩ := h.readLine line
    rw [Interpreter.replies, Interpreter.replies, hreply, replies_alike lines halike]

theorem ideal_withCore (s : Session) (core : Interpreter) :
    ({ s with core } : Session).ideal = idealFrom s.echo core s.deliveries := rfl

/-- What is to be written for lines that are all answered, in front of what comes after them. -/
theorem idealFrom_replies (echo : Bool) (rest : List (Except Problem Text)) :
    ∀ (lines responses : List Text) (i : Interpreter),
      i.replies lines = responses.map .answer →
      idealFrom echo i (lines.map .ok ++ rest)
        = ((lines.zip responses).flatMap fun p => answered echo p.1 p.2)
          ++ idealFrom echo (i.readLines lines) rest
  | [], _, _, _ => by simp [Interpreter.readLines]
  | line :: lines, [], i, h => by cases h
  | line :: lines, response :: responses, i, h => by
    obtain ⟨hreply, hreplies⟩ := List.cons.inj h
    have ih := idealFrom_replies echo rest lines responses (i.readLine line).1 hreplies
    rw [List.map_cons, List.cons_append, idealFrom]
    rcases hread : i.readLine line with ⟨i', r⟩
    rw [hread] at hreply ih
    obtain rfl : r = .answer response := hreply
    simp only [ih, List.zip_cons_cons, List.flatMap_cons, List.append_assoc]
    rw [show i.readLines (line :: lines) = (i.readLine line).1.readLines lines from rfl, hread]

end Replies

section Writing

variable {s : Session}

/-- Where no sink reports anything, a call writes all that it has to, and every sink of the output
holds it. -/
theorem writes_ideal (hwired : s.Wired)
    (hquiet : ∀ o ∈ s.reached, o.Reports fun _ => False) :
    ∃ lines s' e, Runs s lines s' e ∧ (∀ p, e ≠ .unwritten p)
      ∧ s.interpret none = (s'.flush.1, report s'.input.last e.stop.toProblem)
      ∧ s'.flush.1.reached.map (·.sink.data) = s.reached.map (·.carried ++ s.ideal) := by
  rw [← each_iff] at hquiet
  obtain ⟨lines, s', e, hruns, hcall⟩ := s.interpret_runs
  obtain ⟨hout, hgrown, hreports⟩ := hruns.grown hwired.distinct hwired.ready
  have hwritten := hreports _ hquiet
  obtain ⟨hflushed, hsettled, hflush⟩ :=
    flush_grown (s := s') (hout ▸ hwired.distinct) (hout ▸ hgrown.ready)
  rw [hout] at hflushed hsettled hflush
  have hnone : s'.flush.2 = none :=
    Option.eq_none_iff_forall_not_mem.2 (hflush _ (hgrown.reports hquiet))
  refine ⟨lines, s', e, hruns, hwritten, hcall, ?_⟩
  rw [reached, reached, show s'.flush.1.out = s.out from hout, List.map_filterMap,
    List.map_filterMap]
  refine List.filterMap_congr fun l hl => ?_
  rcases l with _ | j
  · rfl
  · obtain ⟨o, ho⟩ : ∃ o, s.outlets[j]? = some o :=
      ⟨_, List.getElem?_eq_getElem (hwired.inside j hl)⟩
    obtain ⟨o₁, u, ho₁, -, hall, hgrew⟩ := hgrown.leaf j hl o ho
    obtain ⟨o₂, v, ho₂, -, hnil, hgrew'⟩ := hflushed.leaf j hl o₁ ho₁
    obtain rfl := hall hwritten
    obtain rfl := hnil trivial
    have hcarried := (hgrew.trans hgrew').carried
    rw [Outlet.carried, show o₂.pending.bytes = [] from hsettled hnone j hl o₂ ho₂,
      List.append_nil, List.append_nil] at hcarried
    simp [outletOf, ho, ho₂, hcarried]

/-- A call of a new session with steady sinks, whatever its interpreter. -/
theorem steady_writes {trees : List SettingTree} (listing : Stack → Text) (core : Interpreter)
    (hsteady : ∀ k ∈ named (SettingTree.leavesOf trees), k.Steady) :
    let s : Session := { new trees listing with core }
    ∃ lines s' e, Runs s lines s' e ∧ (∀ p, e ≠ .unwritten p)
      ∧ s.interpret none = (s'.flush.1, report s'.input.last e.stop.toProblem)
      ∧ s'.flush.1.reached.map (·.sink.data)
        = (inUse (SettingTree.leavesOf trees)).map (·.data ++ s.ideal) := by
  intro s
  obtain ⟨hwired, hreached⟩ := reached_new listing fun k hk => (hsteady k hk).honest
  replace hwired : s.Wired := hwired.withCore core
  replace hreached : s.reached = _ := (reached_withCore _ core).trans hreached
  clear_value s
  have hquiet : ∀ o ∈ s.reached, o.Reports fun _ => False := by
    intro o ho
    rw [hreached] at ho
    obtain ⟨k, hk, rfl⟩ := List.mem_map.1 ho
    exact ⟨(hsteady k (mem_inUse hk)).reports, by simp [unused]⟩
  obtain ⟨lines, s', e, hruns, he, hcall, hdata⟩ := writes_ideal hwired hquiet
  refine ⟨lines, s', e, hruns, he, hcall, hdata.trans ?_⟩
  rw [hreached, List.map_map]
  exact List.map_congr_left fun k _ => by simp [unused, Outlet.carried]

end Writing

end Session

end LineForth
