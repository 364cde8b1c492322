import LineForth.Proofs.Breaking
import LineForth.Proofs.Steady

/-!
# Where a fault is reported

The lines that an input has ahead have their locations: a line of the current stream is counted on
from the last one read, and the lines of the streams that wait are counted from one
(`Input.ahead`).  Reading a line moves to its location, so the last location of a run that was ended
by a line is that of this line (`Runs.ahead`).

A session whose lines are answered up to one that breaks off ends there (`Runs.of_fault`), with a
problem that says where the line is and which word was at fault (`fault_located`).
-/

namespace LineForth

namespace Input

/-- Lines that come after a location, each with its own. -/
def counted : Location → List Text → List (Text × Location)
  | _, [] => []
  | last, l :: ls =>
    (l, { last with line := last.line + 1 }) :: counted { last with line := last.line + 1 } ls

/-- The lines that are still to be read, each with its location. -/
def ahead (i : Input) : List (Text × Location) :=
  counted i.last (i.current.toList.flatMap Stream.lines)
    ++ i.queue.flatMap fun s => counted { name := s.name } s.lines

theorem map_counted : ∀ (lines : List Text) (last : Location),
    (counted last lines).map Prod.fst = lines
  | [], _ => rfl
  | l :: ls, last => by rw [counted, List.map_cons, map_counted ls]

theorem counted_append : ∀ (lines lines' : List Text) (last : Location),
    counted last (lines ++ lines')
      = counted last lines ++ counted { last with line := last.line + lines.length } lines'
  | [], lines', last => by simp [counted]
  | l :: ls, lines', last => by
    rw [List.cons_append, counted, counted, counted_append ls]
    simp only [List.cons_append, List.length_cons]
    congr 4
    omega

/-- Reading a line moves to its location. -/
theorem Reads.ahead {i i' : Input} {r : Except Problem Text} (h : Reads i r i') {l : Text}
    (hr : r = .ok l) : i.ahead = (l, i'.last) :: i'.ahead := by
  induction h with
  | @line i s l' ls hc hl =>
    obtain rfl := Except.ok.inj hr
    simp [Input.ahead, hc, hl, counted]
  | failed => cases hr
  | @passed i i' s r hc hs _ ih =>
    have hlines := (Stream.deliveries_eq_nil.1 hs).1
    have hsame : (i.leave s).ahead = i.ahead := by
      simp [Input.ahead, leave, hc, hlines, counted]
    rw [← hsame]
    exact ih hr
  | @opened i i' s rest r hc hq _ ih =>
    have hsame : (i.start s rest).ahead = i.ahead := by
      simp [Input.ahead, start, hc, hq, counted]
    rw [← hsame]
    exact ih hr
  | ended => cases hr

end Input

namespace Session

section Places

variable {s s' : Session} {line : Text} {lines : List Text} {r : Reply} {e : Ending}

theorem Hears.ahead (h : s.Hears line s' r) (hsource : s.source = none) :
    s'.source = none ∧ s.input.ahead = (line, s'.input.last) :: s'.input.ahead := by
  obtain ⟨s₁, hf, hr⟩ := h
  obtain rfl := congrArg Prod.fst hr
  have hreads := s.input.readLine_reads
  unfold fetch at hf
  rw [hsource] at hf
  rcases hread : s.input.readLine with ⟨input, p | l⟩ <;> rw [hread] at hreads <;>
    simp only [hread] at hf
  · cases hf
  · obtain ⟨rfl, hl⟩ := Prod.mk.inj hf
    obtain rfl := Except.ok.inj hl
    exact ⟨rfl, hreads.ahead rfl⟩

/-- The lines of a run are the next ones ahead, and one that ends it is the last to be located. -/
theorem Runs.ahead (h : Runs s lines s' e) (hsource : s.source = none) (he : ∀ p, e ≠ .unread p) :
    ∃ located, s.input.ahead = located ++ s'.input.ahead ∧ located.map Prod.fst = lines
      ∧ located.getLast?.map Prod.snd = some s'.input.last := by
  induction h with
  | unread => exact absurd rfl (he _)
  | @broken s s' line f hh =>
    obtain ⟨-, hahead⟩ := hh.ahead hsource
    exact ⟨[(line, s'.input.last)], hahead, rfl, rfl⟩
  | @unwritten s s₁ s' line response p hh hr =>
    obtain ⟨-, hahead⟩ := hh.ahead hsource
    rw [respond_eq hr]
    exact ⟨[(line, s₁.input.last)], hahead, rfl, rfl⟩
  | @answered s s₁ s₂ s' line response lines e hh hr _ ih =>
    obtain ⟨hsource₁, hahead⟩ := hh.ahead hsource
    have hs₂ := respond_eq hr
    have hinput : s₂.input = s₁.input := by rw [hs₂]
    have hsource₂ : s₂.source = none := by
      rw [hs₂]
      exact hsource₁
    obtain ⟨located, hlocated, hlines, hlast⟩ := ih hsource₂ he
    rw [hinput] at hlocated
    refine ⟨(line, s₁.input.last) :: located, ?_, by rw [List.map_cons, hlines], ?_⟩
    · rw [hahead, hlocated]
      rfl
    · rcases located with _ | ⟨x, xs⟩
      · cases hlast
      · exact hlast

/-- A run whose lines are answered up to one that breaks off ends with that one. -/
theorem Runs.of_fault (h : Runs s lines s' e) (he : ∀ p, e ≠ .unwritten p) {heard : List Text}
    {responses : List Text} {rest : List (Except Problem Text)} {f : Fault}
    (hd : s.deliveries = heard.map .ok ++ .ok line :: rest)
    (hanswers : s.core.replies heard = responses.map .answer)
    (hfault : ((s.core.readLines heard).readLine line).2 = .fault f) :
    lines = heard ++ [line] ∧ e = .broken f := by
  induction h generalizing heard responses with
  | unread hf =>
    rcases fetch_deliveries hf with h | ⟨h, -⟩ <;> rw [hd] at h <;> cases heard <;> cases h
  | broken hh =>
    have hnext := hh.deliveries
    rw [hd] at hnext
    rcases heard with _ | ⟨l, heard⟩
    · cases hnext
      obtain rfl := Reply.fault.inj (hh.core.2.symm.trans hfault)
      exact ⟨rfl, rfl⟩
    · obtain ⟨hl, -⟩ := List.cons.inj hnext
      obtain rfl := Except.ok.inj hl
      rw [Interpreter.replies, hh.core.2] at hanswers
      cases responses <;> cases hanswers
  | unwritten => exact absurd rfl (he _)
  | @answered s s₁ s₂ s' l response lines e hh hr _ ih =>
    have hcore : s₂.core.Alike (s.core.readLine l).1 := by
      rw [respond_eq hr]
      exact hh.core.1
    have hnext := hh.deliveries
    rw [hd, ← respond_deliveries hr] at hnext
    rcases heard with _ | ⟨l', heard⟩
    · cases hnext
      cases hh.core.2.symm.trans hfault
    · obtain ⟨hl, hrest⟩ := List.cons.inj hnext
      obtain rfl := Except.ok.inj hl
      rcases responses with _ | ⟨r, responses⟩
      · cases hanswers
      · obtain ⟨-, hanswers⟩ := List.cons.inj hanswers
        rw [← replies_alike heard hcore] at hanswers
        have hfault₂ : ((s₂.core.readLines heard).readLine line).2 = .fault f :=
          ((hcore.readLines heard).readLine line).2.trans hfault
        obtain ⟨rfl, rfl⟩ := ih he hrest.symm hanswers hfault₂
        exact ⟨rfl, rfl⟩

end Places

section Streams

variable {s s' : Session} {before after : List Stream} {stream : Stream} {line : Text}
  {first later : List Text}

/-- The lines in front of one are read, and then that line, unless a stream before its own ends
badly. -/
theorem deliveries_upTo (hsource : s.source = none) (hcurrent : s.input.current = none)
    (hqueue : s.input.queue = before ++ stream :: after) (hends : ∀ t ∈ before, t.ending = none)
    (hlines : stream.lines = first ++ line :: later) :
    s.deliveries = (before.flatMap Stream.lines ++ first).map .ok
      ++ .ok line :: ({ stream with lines := later } :: after).flatMap Stream.deliveries := by
  have hbefore : before.flatMap Stream.deliveries = (before.flatMap Stream.lines).map .ok := by
    rw [List.map_flatMap]
    refine List.flatMap_congr fun t ht => ?_
    simp [Stream.deliveries, hends t ht]
  have hstream : stream.deliveries
      = first.map .ok ++ .ok line :: { stream with lines := later }.deliveries := by
    simp [Stream.deliveries, Stream.ending, hlines]
  simp [deliveries, hsource, Input.deliveries, Input.pending, hcurrent, hqueue, hbefore, hstream]

/-- A line of a stream that waits is located by its number. -/
theorem ahead_upTo (hcurrent : s.input.current = none)
    (hqueue : s.input.queue = before ++ stream :: after)
    (hlines : stream.lines = first ++ line :: later) :
    ∃ located rest, s.input.ahead
        = located ++ (line, ⟨stream.name, (first.length + 1 : Nat)⟩) :: rest
      ∧ located.map Prod.fst = before.flatMap Stream.lines ++ first := by
  have hstream : Input.counted { name := stream.name } stream.lines
      = Input.counted { name := stream.name } first
        ++ (line, ⟨stream.name, (first.length + 1 : Nat)⟩)
          :: Input.counted ⟨stream.name, (first.length + 1 : Nat)⟩ later := by
    rw [hlines, Input.counted_append, Input.counted]
    simp
  refine ⟨before.flatMap (fun t => Input.counted { name := t.name } t.lines)
      ++ Input.counted { name := stream.name } first,
    Input.counted ⟨stream.name, (first.length + 1 : Nat)⟩ later
      ++ after.flatMap fun t => Input.counted { name := t.name } t.lines, ?_, ?_⟩
  · simp [Input.ahead, hcurrent, hqueue, Input.counted, hstream]
  · rw [List.map_append, Input.map_counted, List.map_flatMap]
    simp only [Input.map_counted]

/-- A run whose lines are answered up to one that breaks off: it ends at the location of that line,
with the lines behind it still to be read. -/
theorem Runs.fault_place {lines responses : List Text} {e : Ending} {f : Fault}
    (h : Runs s lines s' e) (he : ∀ p, e ≠ .unwritten p) (hsource : s.source = none)
    (hcurrent : s.input.current = none) (hqueue : s.input.queue = before ++ stream :: after)
    (hends : ∀ t ∈ before, t.ending = none) (hlines : stream.lines = first ++ line :: later)
    (hanswers : s.core.replies (before.flatMap Stream.lines ++ first) = responses.map .answer)
    (hfault : ((s.core.readLines (before.flatMap Stream.lines ++ first)).readLine line).2
      = .fault f) :
    e = .broken f ∧ s'.input.last = ⟨stream.name, (first.length + 1 : Nat)⟩
      ∧ s'.deliveries = ({ stream with lines := later } :: after).flatMap Stream.deliveries
      ∧ s'.core.Alike
        ((s.core.readLines (before.flatMap Stream.lines ++ first)).readLine line).1 := by
  have hread := deliveries_upTo hsource hcurrent hqueue hends hlines
  obtain ⟨rfl, rfl⟩ := h.of_fault he hread hanswers hfault
  refine ⟨rfl, ?_, ?_, ?_⟩
  · obtain ⟨located, hahead, hfst, hlast⟩ := h.ahead hsource (by simp)
    obtain ⟨located', rest, hahead', hfst'⟩ := ahead_upTo hcurrent hqueue hlines
    rw [hahead, List.append_cons] at hahead'
    have hcount : located.length = located'.length + 1 := by
      have hread := congrArg List.length hfst
      have hskipped := congrArg List.length hfst'
      simp only [List.length_map, List.length_append, List.length_singleton] at hread hskipped
      omega
    obtain ⟨rfl, -⟩ := List.append_inj hahead' (by rw [hcount, List.length_append]; rfl)
    rw [List.getLast?_concat, Option.map_some, Option.some.injEq] at hlast
    exact hlast.symm
  · obtain ⟨-, -, hd⟩ := h.deliveries.resolve_left fun ⟨p, hp, _⟩ => by cases hp
    generalize before.flatMap Stream.lines ++ first = heard at hread hd
    rw [hread, List.map_append, List.append_assoc] at hd
    exact (List.cons.inj (List.append_cancel_left hd)).2.symm
  · have hcore := h.core
    rwa [Interpreter.readLines_concat] at hcore

theorem idealFrom_fault (echo : Bool) (ds : List (Except Problem Text)) {i : Interpreter}
    {f : Fault} (h : (i.readLine line).2 = .fault f) : idealFrom echo i (.ok line :: ds) = [] := by
  rw [idealFrom]
  rcases hread : i.readLine line with ⟨i', r⟩
  rw [hread] at h
  obtain rfl : r = .fault f := h
  rfl

theorem new_current (trees : List SettingTree) (listing : Stack → Text) :
    (new trees listing).input.current = none := by
  have happly : ∀ (s : Session) (x : Setting), s.input.current = none →
      (s.apply x).input.current = none := by
    intro s x hs
    cases x with
    | lines source =>
      unfold apply addSource
      simp only []
      split_ifs <;> exact hs
    | _ => exact hs
  have hall : ((blank listing).applyAll (SettingTree.leavesOf trees)).input.current = none :=
    List.foldlRecOn (motive := fun s : Session => s.input.current = none) _ apply rfl
      fun s hs x _ => happly s x hs
  rw [new_eq]
  exact hall

theorem report_fault {name : Text} (hname : name ≠ []) (n : Int) (f : Fault) :
    report ⟨name, n⟩ (Ending.broken f).stop.toProblem
      = some (.located ⟨name, n⟩ (.crashed (Text.ofString "forth") (.ofFault f))) := by
  have hcrash : (Stop.fault f).toProblem.isCrash := by
    cases f <;> rfl
  rw [Ending.stop, report, if_neg (crash_not_end f), if_pos ⟨hcrash, hname⟩]
  rfl

end Streams

/-- The report of a fault.  Lines are read from the streams of a new session, after others were read
into its interpreter, and all are answered up to `line`, which breaks off.  The problem is placed at
this line and names the innermost running word, whose markers do not balance, as it is spelled in
its definition.  The answers before it are written and nothing else is, the lines behind it are
still to be read, and dictionary and mode are as they were. -/
theorem fault_located (trees : List SettingTree) (listing : Stack → Text) (past : List Text)
    (hsteady : ∀ k ∈ named (SettingTree.leavesOf trees), k.Steady)
    (hsource : (new trees listing).source = none) (before after : List Stream) (stream : Stream)
    (hqueue : (new trees listing).input.queue = before ++ stream :: after)
    (hends : ∀ t ∈ before, t.ending = none) (hname : stream.name ≠ [])
    (first later : List Text) (line : Text) (hlines : stream.lines = first ++ line :: later)
    (responses : List Text) (f : Fault) :
    let core := (new trees listing).core.readLines past
    let heard := before.flatMap Stream.lines ++ first
    let i := core.readLines heard
    let s : Session := { new trees listing with core }
    core.replies heard = responses.map .answer → (i.readLine line).2 = .fault f →
    ∃ word place running e code, f = .unbalanced word place
      ∧ (s.interpret none).2 = some (.located ⟨stream.name, (first.length + 1 : Nat)⟩
        (.crashed (Text.ofString "forth") (.unbalanced word place.text)))
      ∧ i.BreaksIn line running word place ∧ running.getLast? = some e
      ∧ e.meaning = .compiled word code ∧ imbalance 0 code = some place
      ∧ (∃ written rest d, sources.map Text.ofString ++ past ++ heard = written ++ rest
        ∧ Interpreter.Written d written word code)
      ∧ (s.interpret none).1.reached.map (·.sink.data)
        = (inUse (SettingTree.leavesOf trees)).map
          (·.data ++ (heard.zip responses).flatMap fun p => answered (new trees listing).echo p.1 p.2)
      ∧ (s.interpret none).1.deliveries
        = ({ stream with lines := later } :: after).flatMap Stream.deliveries
      ∧ (s.interpret none).1.core.dict = i.dict ∧ (s.interpret none).1.core.toMode = i.toMode := by
  intro core heard i s hanswers hfault
  have hi : i = (new trees listing).core.readLines (past ++ heard) :=
    (Interpreter.readLines_append _ past heard).symm
  obtain ⟨hdict, hmode, word, place, running, e, code, rfl, hbreaks, hinner, hmeaning,
    himbalance, hrecorded⟩ := Interpreter.fault_of_line hi hfault
  obtain ⟨_, s', _, hruns, hwritten, hcall, hdata⟩ := steady_writes listing core hsteady
  have hinput := input_withCore (new trees listing) core
  obtain ⟨rfl, hlast, hrest, halike⟩ := hruns.fault_place hwritten
    ((source_withCore _ _).trans hsource)
    ((congrArg Input.current hinput).trans (new_current trees listing))
    ((congrArg Input.queue hinput).trans hqueue) hends hlines hanswers hfault
  rw [hlast, report_fault hname] at hcall
  rw [← List.append_assoc] at hrecorded
  refine ⟨word, place, running, e, code, rfl, ?_, hbreaks, hinner, hmeaning, himbalance, hrecorded,
    ?_, ?_, ?_, ?_⟩
  · rw [hcall]
    rfl
  · rw [hcall, hdata, ideal_withCore,
      deliveries_upTo hsource (new_current trees listing) hqueue hends hlines,
      idealFrom_replies _ _ _ responses _ hanswers, idealFrom_fault _ _ hfault, List.append_nil]
  · rw [hcall]
    exact hrest
  · rw [hcall]
    exact halike.dict.trans hdict
  · rw [hcall]
    exact halike.mode.trans hmode

/-- A word with an open conditional, which is defined before the call, breaks off within two others
that the first stream defines, at the second line of the second one. -/
theorem fault_located_nested :
    let one : Stream := ⟨0, Text.ofString "one",
      [Text.ofString ": mid 1 Oops", Text.ofString ";", Text.ofString ": top 7 mid ;"], none, true,
      none⟩
    let two : Stream := ⟨1, Text.ofString "two",
      [Text.ofString "3 .", Text.ofString "top", Text.ofString "4 ."], none, false, none⟩
    let trees : List SettingTree :=
      [.one (.input one), .group [.one (.input two), .absent], .one (.output { kind := .flusher })]
    let past := [Text.ofString ": Oops if 5 ;"]
    let core := (new trees).core.readLines past
    let heard := one.lines ++ [Text.ofString "3 ."]
    let responses := [[], Text.ofString "  ok", Text.ofString "  ok", Text.ofString " 3  ok"]
    let f : Fault := .unbalanced (Text.ofString "Oops") .atEnd
    let s : Session := { new trees with core }
    (∀ k ∈ named (SettingTree.leavesOf trees), k.Steady) ∧ (new trees).source = none
      ∧ (new trees).input.queue = [one, two] ∧ core.replies heard = responses.map .answer
      ∧ ((core.readLines heard).readLine (Text.ofString "top")).2 = .fault f
      ∧ (s.interpret none).2 = some (.located ⟨Text.ofString "two", 2⟩
        (.crashed (Text.ofString "forth") (.unbalanced (Text.ofString "Oops") Place.atEnd.text)))
      ∧ (s.interpret none).1.deliveries = [.ok (Text.ofString "4 .")] := by
  intro one two trees past core heard responses f s
  have hsteady : ∀ k ∈ named (SettingTree.leavesOf trees), k.Steady := by decide
  have hqueue : (new trees).input.queue = [one] ++ two :: [] := rfl
  have hanswers : core.replies heard = responses.map .answer := by decide +kernel
  have hfault : ((core.readLines heard).readLine (Text.ofString "top")).2 = .fault f := by
    decide +kernel
  obtain ⟨word, place, _, _, _, hf, hproblem, -, -, -, -, -, -, hrest, -⟩ :=
    fault_located trees Stack.listing past hsteady rfl [one] [] two hqueue (by decide) (by decide)
      [Text.ofString "3 ."] [Text.ofString "4 ."] (Text.ofString "top") rfl responses f hanswers
      hfault
  obtain ⟨hword, hplace⟩ := Fault.unbalanced.inj hf
  rw [← hword, ← hplace] at hproblem
  exact ⟨hsteady, rfl, hqueue, hanswers, hfault, hproblem, hrest⟩

end Session

end LineForth
