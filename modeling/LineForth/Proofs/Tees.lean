import Mathlib.Data.List.Forall2
import LineForth.Proofs.Sinks

/-!
# Channels put together

A channel is made from a sink, and several channels can be joined, with places left empty; a joined
channel can be joined again (`Wiring`).  However that was done, the channel behaves as the row of
its outlets (`Outlets.writeEach`, `Outlets.flushEach`): a write goes from one to the next until one
reports a problem, and a flush goes to each of them.

The sinks of a wiring take their places in the store in order, so the leaves of its channel lead
through the store from left to right (`Leads`).  Nothing that is done through the channel changes
this (`Leads.writeEach`, `Leads.flushEach`).
-/

namespace LineForth

/-- How a channel is put together. -/
inductive Wiring
  | sink (s : Sink)
  /-- What is a channel already is made ready for output once more, and stays as it is. -/
  | again (w : Wiring)
  | tee (ws : List (Option Wiring))

namespace Wiring

mutual

/-- The channel of a wiring, with its sinks put into the store. -/
def build (os : Outlets) : Wiring → Outlets × Channel
  | .sink s => Channel.attach os s
  | .again w => build os w
  | .tee ws => ((buildAll os ws).1, Channel.tee (buildAll os ws).2)

def buildAll (os : Outlets) : List (Option Wiring) → Outlets × List (Option Channel)
  | [] => (os, [])
  | none :: ws => ((buildAll os ws).1, none :: (buildAll os ws).2)
  | some w :: ws =>
    let r := build os w
    ((buildAll r.1 ws).1, some r.2 :: (buildAll r.1 ws).2)

end

mutual

/-- The sinks of a wiring from left to right. -/
def sinks : Wiring → List Sink
  | .sink s => [s]
  | .again w => w.sinks
  | .tee ws => sinksOf ws

def sinksOf : List (Option Wiring) → List Sink
  | [] => []
  | none :: ws => sinksOf ws
  | some w :: ws => w.sinks ++ sinksOf ws

end

end Wiring

namespace Outlets

/-- A write that goes from one outlet to the next, until one reports a problem. -/
def writeEach (p : Text) : Outlets → Delivery
  | [] => ([], ⟨p.length, none⟩)
  | o :: os =>
    if (o.write p).2.problem.isSome then ((o.write p).1 :: os, (o.write p).2)
    else ((o.write p).1 :: (writeEach p os).1, (writeEach p os).2)

/-- A flush of all outlets, which reports the first problem. -/
def flushEach (os : Outlets) : Outlets × Option Problem :=
  (os.map (·.flush.1), os.findSome? (·.flush.2))

theorem flushEach_cons (o : Outlet) (os : Outlets) :
    flushEach (o :: os) = (o.flush.1 :: (flushEach os).1, o.flush.2.or (flushEach os).2) := by
  unfold flushEach
  rw [List.map_cons, List.findSome?_cons]
  rcases o.flush.2 with _ | e <;> rfl

/-- The leaves lead through the outlets from left to right, the first of which stands at `n` in the
store.  An outlet that discards needs no leaf, and a leaf that discards needs no outlet. -/
inductive Leads : Nat → List Leaf → Outlets → Prop
  | nil {n : Nat} : Leads n [] []
  | discard {n : Nat} {ls : List Leaf} {os : Outlets} : Leads n ls os → Leads n (.discard :: ls) os
  | passed {n : Nat} {ls : List Leaf} {o : Outlet} {os : Outlets} : o.sink.kind = .discard →
      Leads (n + 1) ls os → Leads n ls (o :: os)
  | outlet {n : Nat} {ls : List Leaf} {o : Outlet} {os : Outlets} : o.Ready →
      Leads (n + 1) ls os → Leads n (.outlet n :: ls) (o :: os)

end Outlets

section Discarding

variable {o : Outlet}

theorem Outlet.write_discard (h : o.sink.kind = .discard) (p : Text) :
    o.write p = (o, ⟨p.length, none⟩) := by
  simp [write, buffered, writeSink, Sink.write, Sink.fit, Sink.bounded, Sink.keep, h]

theorem Outlet.flush_discard (h : o.sink.kind = .discard) : o.flush = (o, none) := by
  simp [flush, buffered, Sink.flush, h]

end Discarding

namespace Outlets

variable {n : Nat} {ls ls' : List Leaf} {os os' front : Outlets} {p : Text}

theorem Leads.append (h : Leads n ls os) (h' : Leads (n + os.length) ls' os') :
    Leads n (ls ++ ls') (os ++ os') := by
  induction h with
  | nil => simpa using h'
  | discard _ ih => exact .discard (ih h')
  | passed hk _ ih =>
    refine .passed hk (ih ?_)
    rwa [List.length_cons, ← Nat.add_assoc, Nat.add_right_comm] at h'
  | outlet ho _ ih =>
    refine .outlet ho (ih ?_)
    rwa [List.length_cons, ← Nat.add_assoc, Nat.add_right_comm] at h'

theorem Leads.ready (h : Leads n ls os) : ∀ (front : Outlets), front.length = n →
    Each Outlet.Ready ls (front ++ os) := by
  induction h with
  | nil => exact fun _ _ j hj => by cases hj
  | discard _ ih => exact fun front hn j hj => ih front hn j (by simpa using hj)
  | @passed n ls o os hk _ ih =>
    intro front hn
    have := ih (front ++ [o]) (by simp [hn])
    rwa [List.append_assoc] at this
  | @outlet n ls o os ho _ ih =>
    intro front hn j hj o' ho'
    have hrest := ih (front ++ [o]) (by simp [hn])
    rw [List.append_assoc] at hrest
    rcases List.mem_cons.1 hj with heq | hj
    · rw [Leaf.outlet.inj heq, ← hn, List.getElem?_append_right (Nat.le_refl _),
        Nat.sub_self] at ho'
      cases ho'
      exact ho
    · exact hrest j hj o' ho'

theorem writeEach_discard {o : Outlet} (h : o.sink.kind = .discard) (os : Outlets) :
    writeEach p (o :: os) = (o :: (writeEach p os).1, (writeEach p os).2) := by
  rw [writeEach, Outlet.write_discard h]
  rfl

theorem Leads.writeEach (h : Leads n ls os) (p : Text) : Leads n ls (os.writeEach p).1 := by
  induction h with
  | nil => exact .nil
  | discard _ ih => exact .discard ih
  | passed hk _ ih =>
    rw [writeEach_discard hk]
    exact .passed hk ih
  | @outlet n ls o os ho hrest ih =>
    have hready := (o.write_took ho p).grew.ready
    rw [Outlets.writeEach]
    split_ifs
    · exact .outlet hready hrest
    · exact .outlet hready ih

theorem Leads.flushEach (h : Leads n ls os) : Leads n ls os.flushEach.1 := by
  induction h with
  | nil => exact .nil
  | discard _ ih => exact .discard ih
  | passed hk _ ih =>
    rw [flushEach_cons, Outlet.flush_discard hk]
    exact .passed hk ih
  | @outlet n ls o os ho _ ih =>
    rw [flushEach_cons]
    exact .outlet (o.flush_grew ho).1.ready ih

theorem onOutlet_here {α : Type} (front : Outlets) (o : Outlet) (os : Outlets)
    (f : Outlet → Outlet × α) (absent : α) :
    Leaf.onOutlet (front ++ o :: os) front.length f absent = (front ++ (f o).1 :: os, (f o).2) := by
  have hfind : (front ++ o :: os)[front.length]? = some o := by simp
  rw [Leaf.onOutlet_some hfind, List.set_append_right _ _ (Nat.le_refl _), Nat.sub_self]
  rfl

/-- A write through the leaves goes from outlet to outlet.  None of the writes is found to be short:
an honest outlet without a problem has taken all of `p`. -/
theorem Leads.writeAll (p : Text) (h : Leads n ls os) : ∀ (front : Outlets), front.length = n →
    Channel.writeAll p (front ++ os) ls = (front ++ (os.writeEach p).1, (os.writeEach p).2) := by
  induction h with
  | nil => exact fun _ _ => rfl
  | discard _ ih =>
    intro front hn
    simp only [Channel.writeAll, Leaf.write, if_true]
    exact ih front hn
  | @passed n ls o os hk _ ih =>
    intro front hn
    have := ih (front ++ [o]) (by simp [hn])
    rw [writeEach_discard hk]
    simpa only [List.append_assoc, List.singleton_append] using this
  | @outlet n ls o os ho _ ih =>
    rintro front rfl
    have hwhole := (o.write_took ho p).whole
    have hwrite : Leaf.write (front ++ o :: os) p (.outlet front.length)
        = (front ++ (o.write p).1 :: os, (o.write p).2) := by
      rw [Leaf.write, onOutlet_here]
    have hrest := ih (front ++ [(o.write p).1]) (by simp)
    simp only [List.append_assoc, List.singleton_append] at hrest
    rw [Channel.writeAll, hwrite, Outlets.writeEach]
    rcases hw : (o.write p).2 with ⟨k, _ | e⟩
    · rw [hw] at hwhole
      simp [show k = p.length from hwhole rfl, hrest]
    · simp

theorem Leads.flushAll (h : Leads n ls os) : ∀ (front : Outlets) (q : Option Problem),
    front.length = n →
    Channel.flushAll q (front ++ os) ls = (front ++ os.flushEach.1, q.or os.flushEach.2) := by
  induction h with
  | nil => exact fun _ q _ => by simp [Channel.flushAll, Outlets.flushEach]
  | discard _ ih =>
    intro front q hn
    simp only [Channel.flushAll, Leaf.flush, Option.or_none]
    exact ih front q hn
  | @passed n ls o os hk _ ih =>
    intro front q hn
    have := ih (front ++ [o]) q (by simp [hn])
    rw [flushEach_cons, Outlet.flush_discard hk, Option.none_or]
    simpa only [List.append_assoc, List.singleton_append] using this
  | @outlet n ls o os ho _ ih =>
    rintro front q rfl
    have hflush : Leaf.flush (front ++ o :: os) (.outlet front.length)
        = (front ++ o.flush.1 :: os, o.flush.2) := by
      rw [Leaf.flush, onOutlet_here]
    have hrest := ih (front ++ [o.flush.1]) (q.or o.flush.2) (by simp)
    simp only [List.append_assoc, List.singleton_append] at hrest
    rw [Channel.flushAll, hflush, flushEach_cons]
    simpa only [Option.or_assoc] using hrest

end Outlets

namespace Channel

open Outlets

variable {c : Channel} {os : Outlets}

/-- A single leaf is written to directly, and comes to the same. -/
theorem write_leads (h : Leads 0 c.leaves os) (p : Text) : c.write os p = os.writeEach p := by
  have hall := h.writeAll p [] rfl
  have hready := h.ready [] rfl
  simp only [List.nil_append] at hall hready
  rw [write]
  split
  · rename_i l hl
    rw [hl] at hall hready
    rw [← show writeAll p os [l] = os.writeEach p from hall, writeAll]
    have hwhole := (Leaf.write_sent hready p).whole
    rcases hw : l.write os p with ⟨os₁, ⟨k, _ | e⟩⟩ <;> rw [hw] at hwhole
    · simp [show k = p.length from hwhole rfl, writeAll]
  · exact hall

theorem flush_leads (h : Leads 0 c.leaves os) : c.flush os = os.flushEach :=
  h.flushAll [] none rfl

end Channel

namespace Wiring

open Outlets

theorem attach_leads {s : Sink} (hs : s.Honest) (n : Nat) :
    Leads n (if s.kind = .discard then Channel.discard else ⟨[.outlet n]⟩ : Channel).leaves
      [{ sink := s }] := by
  split_ifs with hk
  · exact .discard (.passed hk .nil)
  · exact .outlet ⟨hk, hs, fun _ => rfl⟩ .nil

def leavesOf : Option Channel → List Leaf
  | some c => c.leaves
  | none => []

theorem tee_leads {n : Nat} {cs : List (Option Channel)} {os : Outlets}
    (h : Leads n (cs.flatMap leavesOf) os) : Leads n (Channel.tee cs).leaves os := by
  unfold Channel.tee
  split
  · rename_i hnil
    rw [show cs.flatMap leavesOf = [] from hnil] at h
    exact .discard h
  · exact h

mutual

/-- The sinks of a wiring are added to the store, and its channel leads to them in order. -/
theorem build_leads : ∀ (w : Wiring) (os : Outlets), (∀ s ∈ w.sinks, s.Honest) →
    (build os w).1 = os ++ w.sinks.map ({ sink := · })
      ∧ Leads os.length (build os w).2.leaves (w.sinks.map ({ sink := · }))
  | .sink s, os, hs => ⟨rfl, attach_leads (hs s (by simp [sinks])) os.length⟩
  | .again w, os, hs => build_leads w os hs
  | .tee ws, os, hs => by
    obtain ⟨hos, hleads⟩ := buildAll_leads ws os hs
    exact ⟨hos, tee_leads hleads⟩

theorem buildAll_leads : ∀ (ws : List (Option Wiring)) (os : Outlets),
    (∀ s ∈ sinksOf ws, s.Honest) →
    (buildAll os ws).1 = os ++ (sinksOf ws).map ({ sink := · })
      ∧ Leads os.length ((buildAll os ws).2.flatMap leavesOf) ((sinksOf ws).map ({ sink := · }))
  | [], os, _ => ⟨by simp [buildAll, sinksOf], .nil⟩
  | none :: ws, os, hs => buildAll_leads ws os hs
  | some w :: ws, os, hs => by
    have hsplit : sinksOf (some w :: ws) = w.sinks ++ sinksOf ws := rfl
    rw [hsplit] at hs ⊢
    obtain ⟨hos, hleads⟩ := build_leads w os fun s h => hs s (List.mem_append_left _ h)
    obtain ⟨hos', hleads'⟩ :=
      buildAll_leads ws (build os w).1 fun s h => hs s (List.mem_append_right _ h)
    have hlength := congrArg List.length hos
    rw [List.length_append] at hlength
    rw [hlength] at hleads'
    rw [List.map_append]
    refine ⟨?_, hleads.append hleads'⟩
    rw [buildAll, hos', hos, List.append_assoc]

end

end Wiring

/-- What is done through a channel. -/
inductive Use
  | write (p : Text)
  | flush
deriving DecidableEq

/-- The bytes that are written. -/
def Use.bytes : Use → Text
  | .write p => p
  | .flush => []

/-- Uses a channel time after time; gives what the writes have reported. -/
def Channel.useAll (c : Channel) : Outlets → List Use → Outlets × List Written
  | os, [] => (os, [])
  | os, .write p :: us =>
    let r := c.write os p
    ((c.useAll r.1 us).1, r.2 :: (c.useAll r.1 us).2)
  | os, .flush :: us => c.useAll (c.flush os).1 us

section Arrival

open Outlets

/-- The bytes `t` have gone to the outlet of a sink, unless it discards. -/
def Arrived (t : Text) (s : Sink) (o : Outlet) : Prop :=
  if s.kind = .discard then o = { sink := s } else o.Ready ∧ o.carried = s.data ++ t

variable {t p : Text} {ss : List Sink} {os : Outlets}

theorem Arrived.write {s : Sink} {o : Outlet} (h : Arrived t s o)
    (hn : (o.write p).2.problem = none) : Arrived (t ++ p) s (o.write p).1 := by
  unfold Arrived at h ⊢
  split_ifs at h ⊢ with hk
  · subst h
    rw [Outlet.write_discard hk]
  · have ht := o.write_took h.1 p
    refine ⟨ht.grew.ready, ?_⟩
    rw [ht.grew.carried, h.2, ht.whole hn, List.take_length, List.append_assoc]

theorem Arrived.flush {s : Sink} {o : Outlet} (h : Arrived t s o) : Arrived t s o.flush.1 := by
  unfold Arrived at h ⊢
  split_ifs at h ⊢ with hk
  · subst h
    rw [Outlet.flush_discard hk]
  · have hgrew := (o.flush_grew h.1).1
    exact ⟨hgrew.ready, by rw [hgrew.carried, h.2, List.append_nil]⟩

theorem Arrived.flushed {s : Sink} {o : Outlet} (h : Arrived t s o) (hn : o.flush.2 = none) :
    o.flush.1.sink.data = if s.kind = .discard then s.data else s.data ++ t := by
  have hafter := h.flush
  unfold Arrived at h hafter
  split_ifs at h hafter ⊢ with hk
  · rw [hafter]
  · have hempty := (o.flush_grew h.1).2.1 hn
    rw [← hafter.2, Outlet.carried, hempty, List.append_nil]

theorem writeEach_arrived (h : List.Forall₂ (Arrived t) ss os)
    (hn : (os.writeEach p).2.problem = none) :
    List.Forall₂ (Arrived (t ++ p)) ss (os.writeEach p).1 := by
  induction h with
  | nil => exact .nil
  | @cons s o ss os hs _ ih =>
    rw [writeEach] at hn ⊢
    split_ifs at hn ⊢ with hsome
    · rw [hn] at hsome
      cases hsome
    · exact .cons (hs.write (by simpa using hsome)) (ih hn)

theorem flushEach_arrived (h : List.Forall₂ (Arrived t) ss os) :
    List.Forall₂ (Arrived t) ss os.flushEach.1 := by
  induction h with
  | nil => exact .nil
  | cons hs _ ih =>
    rw [flushEach_cons]
    exact .cons hs.flush ih

theorem flushEach_data (h : List.Forall₂ (Arrived t) ss os) (hn : os.flushEach.2 = none) :
    os.flushEach.1.map (·.sink.data)
      = ss.map fun s => if s.kind = .discard then s.data else s.data ++ t := by
  induction h with
  | nil => rfl
  | cons hs _ ih =>
    rw [flushEach_cons] at hn ⊢
    obtain ⟨hone, hrest⟩ := Option.or_eq_none_iff.1 hn
    rw [List.map_cons, List.map_cons, hs.flushed hone, ih hrest]

theorem unused_arrived (h : ∀ s ∈ ss, s.Honest) :
    List.Forall₂ (Arrived []) ss (ss.map ({ sink := · })) := by
  rw [List.forall₂_map_right_iff, List.forall₂_same]
  intro s hs
  unfold Arrived
  split_ifs with hk
  · rfl
  · exact ⟨⟨hk, h s hs, fun _ => rfl⟩, rfl⟩

/-- A write is taken by the row exactly if it is taken by each outlet. -/
theorem writeEach_whole {ls : List Leaf} {n : Nat} (h : Leads n ls os) :
    (os.writeEach p).2 = ⟨p.length, none⟩ ↔ ∀ o ∈ os, (o.write p).2 = ⟨p.length, none⟩ := by
  induction h with
  | nil => simp [writeEach]
  | discard _ ih => exact ih
  | passed hk _ ih =>
    rw [writeEach_discard hk, List.forall_mem_cons, Outlet.write_discard hk, ih]
    simp
  | @outlet n ls o os ho _ ih =>
    have hwhole := (o.write_took ho p).whole
    rw [writeEach, List.forall_mem_cons, ← ih]
    rcases hw : (o.write p).2 with ⟨k, _ | e⟩ <;> rw [hw] at hwhole
    · simp [show k = p.length from hwhole rfl]
    · simp

end Arrival

namespace Channel

open Outlets

variable {c : Channel}

theorem useAll_leads : ∀ (us : List Use) {os : Outlets}, Leads 0 c.leaves os →
    Leads 0 c.leaves (c.useAll os us).1
  | [], os, h => h
  | .write p :: us, os, h => by
    refine useAll_leads us ?_
    rw [write_leads h]
    exact h.writeEach p
  | .flush :: us, os, h => by
    refine useAll_leads us ?_
    rw [flush_leads h]
    exact h.flushEach

theorem useAll_arrived {ss : List Sink} : ∀ (us : List Use) {t : Text} {os : Outlets},
    Leads 0 c.leaves os → List.Forall₂ (Arrived t) ss os →
    (∀ w ∈ (c.useAll os us).2, w.problem = none) →
    List.Forall₂ (Arrived (t ++ us.flatMap Use.bytes)) ss (c.useAll os us).1
  | [], t, os, _, h, _ => by rwa [List.flatMap_nil, List.append_nil]
  | .write p :: us, t, os, hleads, h, hn => by
    rw [useAll, List.forall_mem_cons] at hn
    rw [write_leads hleads] at hn
    have := useAll_arrived us (hleads.writeEach p) (writeEach_arrived h hn.1) hn.2
    rw [useAll, write_leads hleads, List.flatMap_cons]
    rwa [List.append_assoc] at this
  | .flush :: us, t, os, hleads, h, hn => by
    rw [useAll, flush_leads hleads] at hn ⊢
    exact useAll_arrived us hleads.flushEach (flushEach_arrived h) hn

end Channel

/-- A channel that was put together from honest sinks acts on the row of their outlets, whatever was
done through it before.  A write goes from left to right up to the first problem, a flush reaches
every outlet, and when all went well, every sink that keeps anything holds what was written. -/
theorem Wiring.acts_flat (w : Wiring) (hs : ∀ s ∈ w.sinks, s.Honest) (us : List Use) :
    let c := (w.build []).2
    let start := (w.build []).1
    let os := (c.useAll start us).1
    start = w.sinks.map ({ sink := · })
      ∧ (∀ p, c.write os p = Outlets.writeEach p os
        ∧ ((c.write os p).2 = ⟨p.length, none⟩ ↔ ∀ o ∈ os, (o.write p).2 = ⟨p.length, none⟩))
      ∧ c.flush os = Outlets.flushEach os
      ∧ ((∀ r ∈ (c.useAll start us).2, r.problem = none) → (c.flush os).2 = none →
        (c.flush os).1.map (·.sink.data) = w.sinks.map fun s =>
          if s.kind = .discard then s.data else s.data ++ us.flatMap Use.bytes) := by
  intro c start os
  obtain ⟨hstart, hleads⟩ := build_leads w [] hs
  rw [List.nil_append] at hstart
  rw [List.length_nil, ← hstart] at hleads
  have hos : Outlets.Leads 0 c.leaves os := c.useAll_leads us hleads
  refine ⟨hstart, fun p => ⟨c.write_leads hos p, ?_⟩, c.flush_leads hos, fun hall hflush => ?_⟩
  · rw [c.write_leads hos]
    exact writeEach_whole hos
  · have hunused : List.Forall₂ (Arrived []) w.sinks start := by
      rw [show start = _ from hstart]
      exact unused_arrived hs
    have harrived := c.useAll_arrived us hleads hunused hall
    rw [c.flush_leads hos] at hflush ⊢
    exact flushEach_data harrived hflush

/-- A nested channel to a buffer, to a sink with room for three bytes and to one that discards. -/
theorem Wiring.acts_flat_nested :
    let full : Problem := .plain (Text.ofString "full")
    let w : Wiring := .tee [none, some (.sink { kind := .buffer }),
      some (.again (.tee [some (.sink { kind := .plain, room := some 3, refusal := some full }),
        none, some (.sink { kind := .discard })])), some (.tee [])]
    let r := (w.build []).2.useAll (w.build []).1 [.write [1, 2], .flush, .write [3]]
    (∀ s ∈ w.sinks, s.Honest) ∧ r.2 = [⟨2, none⟩, ⟨1, none⟩]
      ∧ ((w.build []).2.flush r.1).1.map (·.sink.data) = [[1, 2, 3], [1, 2, 3], []] := by
  intro full w r
  have hs : ∀ s ∈ w.sinks, s.Honest := by
    intro s hs hb
    simp only [w, sinks, sinksOf, List.append_nil, List.cons_append, List.nil_append,
      List.mem_cons, List.not_mem_nil, or_false] at hs
    obtain rfl | rfl | rfl := hs <;> simp
  obtain ⟨-, -, -, hdata⟩ := acts_flat w hs [.write [1, 2], .flush, .write [3]]
  exact ⟨hs, by decide, hdata (by decide) (by decide)⟩

end LineForth
