import LineForth.Proofs.Balance
import LineForth.Proofs.Binding

/-!
# What running a word notes

A note is an event with the compiled words that are running when it happens.  A definition notes the
plain actions that are executed (`Progress.executed`), in order, and behind each what the word that
it calls notes (`Dictionary.Noted`).  Nothing of this mentions a trace.

What is recorded is what is noted (`runAt_trace`): each note gives a line, with a lead that is
longer by two spaces for each word that is running.  So the lead that was put in front of lines when
a word started is gone again when it ends, however it ends.
-/

namespace LineForth

/-- An event, and the names of the compiled words that are running, innermost first. -/
structure Note where
  running : List Text := []
  event : Event

namespace Note

/-- What a note made inside `name` is outside of it. -/
def within (name : Text) (n : Note) : Note := { n with running := n.running ++ [name] }

/-- What stands in front of the line of a note. -/
def lead (n : Note) : Text := List.replicate (2 * n.running.length) Text.space

@[simp]
theorem within_event (name : Text) (n : Note) : (n.within name).event = n.event := rfl

@[simp]
theorem within_lead (name : Text) (n : Note) : (n.within name).lead = indentation ++ n.lead := by
  rw [lead, lead, within, List.length_append, List.length_singleton, Nat.mul_add, Nat.add_comm,
    List.replicate_add]
  rfl

end Note

namespace Trace

/-- Records a note, with its lead behind that of the trace. -/
def noteAt (t : Trace) (n : Note) : Trace := ((t.indent n.lead).event n.event).withLead t.lead

def noteAll (t : Trace) (ns : List Note) : Trace := ns.foldl noteAt t

section Recording

variable (t : Trace) (n : Note) (ns : List Note)

@[simp]
theorem noteAll_nil : t.noteAll [] = t := rfl

theorem noteAll_append (ns' : List Note) : t.noteAll (ns ++ ns') = (t.noteAll ns).noteAll ns' :=
  List.foldl_append

theorem event_off (h : t.on = false) (e : Event) : t.event e = t := by
  rw [event, h]
  rfl

theorem indent_off (h : t.on = false) (more : Text) : t.indent more = t := by
  rw [indent, h]
  rfl

theorem indent_on (h : t.on) (more : Text) : t.indent more = t.withLead (t.lead ++ more) := by
  rw [indent, if_pos h]
  rfl

theorem noteAt_off (h : t.on = false) : t.noteAt n = t := by
  rw [noteAt, indent_off t h, event_off t h]
  rfl

theorem event_on (h : t.on) (e : Event) : t.event e =
    { t with
      width := max t.width e.mark.length
      recorded := t.line e.mark (e.message t.listing) :: t.recorded } := by
  rw [event, if_pos h, note, if_pos h]

theorem noteAt_on (h : t.on) : t.noteAt n =
    { t with
      width := max t.width n.event.mark.length
      recorded := (t.withLead (t.lead ++ n.lead)).line n.event.mark
          (n.event.message t.listing) :: t.recorded } := by
  rw [noteAt, indent_on t h, event_on (t.withLead (t.lead ++ n.lead)) h]
  rfl

@[simp]
theorem noteAt_same : (t.noteAt n).listener = t.listener ∧ (t.noteAt n).listing = t.listing
    ∧ (t.noteAt n).lead = t.lead := by
  rcases h : t.on
  · rw [noteAt_off t n h]
    exact ⟨rfl, rfl, rfl⟩
  · rw [noteAt_on t n h]
    exact ⟨rfl, rfl, rfl⟩

theorem noteAll_same : (t.noteAll ns).listener = t.listener
    ∧ (t.noteAll ns).listing = t.listing ∧ (t.noteAll ns).lead = t.lead := by
  induction ns generalizing t with
  | nil => exact ⟨rfl, rfl, rfl⟩
  | cons n ns ih =>
    obtain ⟨hlistener, hlisting, hlead⟩ := ih (t.noteAt n)
    obtain ⟨hlistener', hlisting', hlead'⟩ := noteAt_same t n
    exact ⟨hlistener.trans hlistener', hlisting.trans hlisting', hlead.trans hlead'⟩

theorem on_noteAt : (t.noteAt n).on = t.on := congrArg Option.isSome (noteAt_same t n).1

/-- Outside of every word a note is the event that it is of. -/
theorem noteAt_outside (e : Event) : t.noteAt { event := e } = t.event e := by
  rcases h : t.on
  · rw [noteAt_off t _ h, event_off t h]
  · rw [noteAt_on t _ h, event_on t h]
    simp [Note.lead, withLead]

/-- A note that is made after one more indentation is made within one more word. -/
theorem indent_noteAt (name : Text) :
    (t.indent indentation).noteAt n = (t.noteAt (n.within name)).indent indentation := by
  rcases h : t.on
  · rw [indent_off t h, noteAt_off t n h, noteAt_off t _ h, indent_off t h]
  · rw [indent_on t h, indent_on (t.noteAt _) ((on_noteAt t _).trans h),
      noteAt_on (t.withLead (t.lead ++ indentation)) n h, noteAt_on t _ h]
    simp [withLead]

theorem indent_noteAll (name : Text) : (t.indent indentation).noteAll ns
    = (t.noteAll (ns.map (Note.within name))).indent indentation := by
  induction ns generalizing t with
  | nil => rfl
  | cons n ns ih =>
    rw [List.map_cons, noteAll, noteAll, List.foldl_cons, List.foldl_cons, indent_noteAt t n name]
    exact ih (t.noteAt (n.within name))

theorem withLead_indent (more : Text) : (t.indent more).withLead t.lead = t := by
  rcases h : t.on
  · rw [indent_off t h]
    rfl
  · rw [indent_on t h]
    rfl

/-- What is noted inside a word, when its indentation has been put back. -/
theorem noteAll_within (name : Text) : ((t.indent indentation).noteAll ns).withLead t.lead
    = t.noteAll (ns.map (Note.within name)) := by
  rw [indent_noteAll t ns name, ← (noteAll_same t (ns.map (Note.within name))).2.2,
    withLead_indent]

end Recording

end Trace

section Executed

variable (call : Calls) (name : Text)

/-- The plain actions that are executed from here on, each with the stack that it finds. -/
def Progress.executed (p : Progress) : List Action → List (Action × Stack)
  | [] => []
  | a :: code =>
    (if a.isPlain && executing p.frames then [(a, p.machine.stack)] else []) ++
      match p.step call name a with
      | .ok q => q.executed code
      | .error _ => []

/-- The plain actions of a definition that are executed. -/
def executed (code : List Action) (s : Stack) : List (Action × Stack) :=
  Progress.executed call name { machine := { stack := s } } code

end Executed

/-- What the word that an action calls notes. -/
def Action.notes (notes : Nat → Stack → List Note) : Action → Stack → List Note
  | .call _ address, s => notes address s
  | _, _ => []

/-- The notes of actions that are executed one after the other. -/
def activity (name : Text) (notes : Nat → Stack → List Note) (steps : List (Action × Stack)) :
    List Note :=
  steps.flatMap fun (a, s) => { event := .stepped name a } :: a.notes notes s

def Meaning.notes (call : Calls) (notes : Nat → Stack → List Note) : Meaning → Stack → List Note
  | .compiled name code, s =>
    (activity name notes (executed call name code s)).map (Note.within name)
  | _, _ => []

/-- What running the entry at an address notes. -/
def notesAt : List Entry → Nat → Stack → List Note
  | [], _, _ => []
  | e :: older, address, s =>
    if e.address = address then e.meaning.notes (runAt older) (notesAt older) s
    else notesAt older address s

def Dictionary.notes (d : Dictionary) : Nat → Stack → List Note := notesAt d.entries

section Alike

/-- Two ways to stand in one definition that differ in output and trace only. -/
structure Progress.Alike (p q : Progress) : Prop where
  frames : p.frames = q.frames
  stack : SameStack p.machine q.machine

variable {call call' : Calls} (name : Text)

theorem Progress.Alike.step {p q : Progress} (h : p.Alike q) (a : Action)
    (hc : ∀ key k, a = .call key k → ∀ m m', SameStack m m' →
      Matching SameStack (call k m) (call' k m')) :
    (∃ p' q', p.step call name a = .ok p' ∧ q.step call' name a = .ok q' ∧ p'.Alike q')
      ∨ ∃ e e', p.step call name a = .error e ∧ q.step call' name a = .error e' := by
  obtain ⟨fs, out, m⟩ := p
  obtain ⟨fs', out', m'⟩ := q
  obtain ⟨rfl, hm⟩ := h
  rcases a.plain_or_mark with ha | ⟨_ | _ | _, rfl⟩
  · have hrun : Matching SameStack (a.run call (m.event (.stepped name a)))
        (a.run call' (m'.event (.stepped name a))) :=
      Action.run_sim simulation_sameStack a hc (simulation_sameStack.event (.stepped name a) hm)
    rw [step_plain call name ha, step_plain call' name ha]
    simp only []
    split
    · rcases hr : a.run call (m.event (.stepped name a)) with ⟨n, o⟩
      rcases hr' : a.run call' (m'.event (.stepped name a)) with ⟨n', o'⟩
      rw [hr, hr'] at hrun
      obtain ⟨hstack, rfl⟩ := hrun
      cases o with
      | done t => exact .inl ⟨_, _, rfl, rfl, rfl, hstack⟩
      | failed t f => exact .inr ⟨_, _, rfl, rfl⟩
      | broke word place => exact .inr ⟨_, _, rfl, rfl⟩
    · exact .inl ⟨_, _, rfl, rfl, rfl, hm⟩
  · simp only [Progress.step]
    rw [← show m.stack = m'.stack from hm]
    split
    · rcases m.stack.pop? with _ | ⟨c, s⟩
      · exact .inr ⟨_, _, rfl, rfl⟩
      · exact .inl ⟨_, _, rfl, rfl, rfl, rfl⟩
    · exact .inl ⟨_, _, rfl, rfl, rfl, hm⟩
  · cases fs with
    | nil => exact .inr ⟨_, _, rfl, rfl⟩
    | cons f fs => exact .inl ⟨_, _, rfl, rfl, rfl, hm⟩
  · cases fs with
    | nil => exact .inr ⟨_, _, rfl, rfl⟩
    | cons f fs => exact .inl ⟨_, _, rfl, rfl, rfl, hm⟩

/-- Which actions are executed depends on the stack and on what the called words do to it. -/
theorem Progress.Alike.executed : ∀ (code : List Action) {p q : Progress}, p.Alike q →
    (∀ key k, .call key k ∈ code → ∀ m m', SameStack m m' →
      Matching SameStack (call k m) (call' k m')) →
    p.executed call name code = q.executed call' name code
  | [], _, _, _, _ => rfl
  | a :: code, p, q, h, hc => by
    have hstack : p.machine.stack = q.machine.stack := h.stack
    rw [Progress.executed, Progress.executed, h.frames, hstack]
    congr 1
    rcases h.step name a fun key k hk => hc key k (hk ▸ List.mem_cons_self) with
      ⟨p', q', hp, hq, h'⟩ | ⟨e, e', hp, hq⟩
    · rw [hp, hq]
      exact h'.executed code fun key k hk => hc key k (List.mem_cons_of_mem _ hk)
    · rw [hp, hq]

end Alike

section Traces

variable {call : Calls} (name : Text) {notes : Nat → Stack → List Note}

theorem activity_append (steps steps' : List (Action × Stack)) :
    activity name notes (steps ++ steps')
      = activity name notes steps ++ activity name notes steps' := List.flatMap_append

variable (hcall : ∀ address m, (call address m).1.trace = m.trace.noteAll (notes address m.stack))

include hcall in
theorem Action.run_trace (a : Action) (m : Machine) :
    (a.run call m).1.trace = m.trace.noteAll (a.notes notes m.stack) := by
  cases a with
  | call key address => exact hcall address m
  | push c => rfl
  | print t => rfl
  | mark k => rfl

include hcall in
/-- What one action records, whether it comes through or not. -/
theorem Progress.step_trace (p : Progress) (a : Action) :
    (match p.step call name a with
      | .ok q => q.machine
      | .error e => e.1).trace
      = p.machine.trace.noteAll (activity name notes
        (if a.isPlain && executing p.frames then [(a, p.machine.stack)] else [])) := by
  obtain ⟨fs, out, m⟩ := p
  rcases a.plain_or_mark with ha | ⟨_ | _ | _, rfl⟩
  · rw [step_plain call name ha, ha, Bool.true_and]
    rcases hfs : executing fs
    · rfl
    · have hrun := Action.run_trace hcall a (m.event (.stepped name a))
      have hevent : (m.event (.stepped name a)).trace
          = m.trace.noteAll [{ event := .stepped name a }] := (Trace.noteAt_outside _ _).symm
      have hnotes : activity name notes [(a, m.stack)]
          = [{ event := .stepped name a }] ++ a.notes notes m.stack := by simp [activity]
      rw [hevent, ← Trace.noteAll_append] at hrun
      simp only [if_true, hnotes]
      rcases hr : a.run call (m.event (.stepped name a))
        with ⟨m', t | ⟨t, f⟩ | ⟨word, place⟩⟩ <;>
      · rw [hr] at hrun
        exact hrun
  · rcases hfs : executing fs
    · simp only [Progress.step, hfs]
      rfl
    · simp only [Progress.step, hfs]
      rcases m.stack.pop? with _ | ⟨c, s⟩ <;> rfl
  · cases fs <;> rfl
  · cases fs <;> rfl

include hcall in
theorem Progress.attempt_trace : ∀ (code : List Action) (p : Progress),
    (p.attempt call name code).1.trace
      = p.machine.trace.noteAll (activity name notes (p.executed call name code))
  | [], _ => rfl
  | a :: code, p => by
    have hstep := step_trace name hcall p a
    rw [attempt_cons, Progress.executed, activity_append, Trace.noteAll_append, ← hstep]
    rcases p.step call name a with e | q
    · rfl
    · exact attempt_trace code q

include hcall in
theorem Meaning.run_trace (hstack : ∀ address {m m'}, SameStack m m' →
    Matching SameStack (call address m) (call address m')) (e : Meaning) (m : Machine) :
    (e.run call m).1.trace = m.trace.noteAll (e.notes call notes m.stack) := by
  cases e with
  | marker k => rfl
  | native p =>
    simp only [Meaning.run, Machine.primitive]
    split <;> rfl
  | host w => rfl
  | compiled name code =>
    have halike : Progress.Alike { machine := { m with trace := m.trace.indent indentation } }
        { machine := { stack := m.stack } } := ⟨rfl, rfl⟩
    have hexecuted := halike.executed name code
      fun _ address _ _ _ h => hstack address h
    have hattempt := Progress.attempt_trace name hcall code
      { machine := { m with trace := m.trace.indent indentation } }
    rw [hexecuted] at hattempt
    rw [Meaning.run, runCompiled_attempt, Meaning.notes, executed, ← Trace.noteAll_within,
      ← hattempt]
    rfl

/-- What is recorded when an entry runs is what it notes. -/
theorem runAt_trace : ∀ (es : List Entry) (address : Nat) (m : Machine),
    (runAt es address m).1.trace = m.trace.noteAll (notesAt es address m.stack)
  | [], _, _ => rfl
  | e :: older, address, m => by
    rw [runAt, notesAt]
    split_ifs
    · exact Meaning.run_trace (runAt_trace older) (fun k _ _ h => runAt_sameStack older k h) _ m
    · exact runAt_trace older address m

end Traces

section Words

variable {e : Entry} {newer older : List Entry}

/-- An entry that is not compiled notes nothing, and a compiled one what it does to the words below
it. -/
theorem notesAt_entry (hn : Numbered (newer ++ e :: older)) (s : Stack) :
    notesAt (newer ++ e :: older) e.address s
      = e.meaning.notes (runAt older) (notesAt older) s := by
  induction newer with
  | nil => rw [List.nil_append, notesAt, if_pos rfl]
  | cons top newer ih =>
    have htop : top.address ≠ e.address := by
      have := (hn.2.address_le e (by simp)).2
      have := hn.1
      rw [List.append_eq] at *
      omega
    rw [List.cons_append, notesAt, if_neg htop]
    exact ih hn.2

theorem within_running {name : Text} {ns : List Note} {n : Note}
    (h : n ∈ ns.map (Note.within name)) : n.running ≠ [] := by
  obtain ⟨n', -, rfl⟩ := List.mem_map.1 h
  simp [Note.within]

/-- Every note of a word is made while some word is running. -/
theorem notesAt_running : ∀ {es : List Entry} {address : Nat} {s : Stack} {n : Note},
    n ∈ notesAt es address s → n.running ≠ []
  | e :: older, address, s, n, h => by
    rw [notesAt] at h
    split_ifs at h
    · cases hm : e.meaning with
      | compiled name code =>
        rw [hm] at h
        exact within_running h
      | marker _ | native _ | host _ =>
        rw [hm] at h
        cases h
    · exact notesAt_running h

/-- The notes that a compiled word makes itself are those of its executed actions. -/
theorem activity_own (name : Text) (steps : List (Action × Stack)) :
    (((activity name (notesAt older) steps).map (Note.within name)).filter
      (·.running.length = 1)).map Note.event = steps.map fun x => .stepped name x.1 := by
  induction steps with
  | nil => rfl
  | cons x steps ih =>
    obtain ⟨a, s⟩ := x
    have hcalled : ((a.notes (notesAt older) s).map (Note.within name)).filter
        (·.running.length = 1) = [] := by
      rw [List.filter_eq_nil_iff]
      intro n hn
      obtain ⟨n', hn', rfl⟩ := List.mem_map.1 hn
      have hne : n'.running ≠ [] := by
        cases a with
        | call key address => exact notesAt_running hn'
        | push _ | print _ | mark _ => cases hn'
      simpa [Note.within] using hne
    rw [activity, List.flatMap_cons, List.cons_append, List.map_cons, List.map_append,
      List.filter_cons_of_pos (by simp [Note.within]), List.filter_append, hcalled,
      List.nil_append, List.map_cons]
    exact congrArg _ ih

end Words

end LineForth
