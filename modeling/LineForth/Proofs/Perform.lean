import LineForth.Language.Perform

/-!
# Runs and what they are made of

A run ends in a machine and an outcome.  `Outcome.after` puts output in front of an outcome, and
`andThen` goes on from a run that ended well; a run that did not is where it stops.  What a
definition has printed so far is only ever put in front of what it prints next (`perform_out`), so
performing code in two parts is performing one part and then the other.

A definition sees the words it calls only through its call actions (`perform_sim`): if the calls it
makes match, so does the run.  Machines with one stack match under every word (`runAt_sameStack`),
so nothing a word does depends on what has been traced.
-/

namespace LineForth

/-- An outcome with `t` in front of its output; output in front of a failure is lost. -/
def Outcome.after (t : Text) : Outcome → Outcome
  | .done u => .done (t ++ u)
  | .failed _ f => .failed [] f
  | .broke word place => .broke word place

/-- Goes on with `k` after a run that ended well. -/
def andThen (r : Machine × Outcome) (k : Machine → Machine × Outcome) : Machine × Outcome :=
  match r with
  | (m, .done t) => ((k m).1, (k m).2.after t)
  | (m, o) => (m, o.after [])

section Runs

@[simp]
theorem after_done (t u : Text) : (Outcome.done u).after t = .done (t ++ u) := rfl

@[simp]
theorem after_failed (t u : Text) (f : Failure) : (Outcome.failed u f).after t = .failed [] f := rfl

@[simp]
theorem after_broke (t word : Text) (place : Place) :
    (Outcome.broke word place).after t = .broke word place := rfl

@[simp]
theorem after_after (t u : Text) (o : Outcome) : (o.after u).after t = o.after (t ++ u) := by
  cases o <;> simp

@[simp]
theorem andThen_done (m : Machine) (t : Text) (k : Machine → Machine × Outcome) :
    andThen (m, .done t) k = ((k m).1, (k m).2.after t) := rfl

@[simp]
theorem andThen_failed (m : Machine) (t : Text) (f : Failure) (k : Machine → Machine × Outcome) :
    andThen (m, .failed t f) k = (m, .failed [] f) := rfl

@[simp]
theorem andThen_broke (m : Machine) (word : Text) (place : Place)
    (k : Machine → Machine × Outcome) :
    andThen (m, .broke word place) k = (m, .broke word place) := rfl

theorem andThen_after (r : Machine × Outcome) (k : Machine → Machine × Outcome) :
    (andThen r k).2.after [] = (andThen r k).2 := by
  obtain ⟨m, t | ⟨t, f⟩ | ⟨word, place⟩⟩ := r <;> simp

theorem andThen_assoc (r : Machine × Outcome) (k l : Machine → Machine × Outcome) :
    andThen (andThen r k) l = andThen r fun m => andThen (k m) l := by
  obtain ⟨m, t | ⟨t, f⟩ | ⟨word, place⟩⟩ := r
  · rcases hk : k m with ⟨m', u | ⟨u, f⟩ | ⟨word, place⟩⟩ <;> simp [hk]
  · simp
  · simp

end Runs

/-- An action that is not a marker of a conditional. -/
def Action.isPlain : Action → Bool
  | .mark _ => false
  | _ => true

theorem Action.plain_or_mark : ∀ a : Action, a.isPlain ∨ ∃ k, a = .mark k
  | .call _ _ => .inl rfl
  | .push _ => .inl rfl
  | .print _ => .inl rfl
  | .mark k => .inr ⟨k, rfl⟩

section Steps

variable (call : Calls) (name : Text)

theorem perform_plain {a : Action} (ha : a.isPlain) (fs : List Frame) (out : List Text)
    (code : List Action) (m : Machine) :
    perform call name fs out (a :: code) m =
      if executing fs then
        match a.run call (m.event (.stepped name a)) with
        | (m, .done t) => perform call name fs (t :: out) code m
        | (m, .failed _ f) => (m, .failed [] f)
        | (m, .broke word place) => (m, .broke word place)
      else perform call name fs out code m := by
  cases a with
  | mark k => simp [Action.isPlain] at ha
  | call _ _ => cases fs <;> rfl
  | push _ => cases fs <;> rfl
  | print _ => cases fs <;> rfl

theorem perform_fork (fs : List Frame) (out : List Text) (code : List Action) (m : Machine) :
    perform call name fs out (.mark .fork :: code) m =
      if executing fs then
        match m.stack.pop? with
        | none => (m, .failed [] .stackUnderflow)
        | some (c, s) =>
          perform call name (⟨true, true, c ≠ 0⟩ :: fs) out code { m with stack := s }
      else perform call name (⟨false, true, false⟩ :: fs) out code m := by
  cases fs <;> rfl

theorem perform_other (f : Frame) (fs : List Frame) (out : List Text) (code : List Action)
    (m : Machine) :
    perform call name (f :: fs) out (.mark .other :: code) m =
      perform call name ({ f with firstBranch := false } :: fs) out code m := rfl

theorem perform_join (f : Frame) (fs : List Frame) (out : List Text) (code : List Action)
    (m : Machine) :
    perform call name (f :: fs) out (.mark .join :: code) m = perform call name fs out code m := rfl

theorem perform_out : ∀ (code : List Action) (fs : List Frame) (out : List Text) (m : Machine),
    perform call name fs out code m =
      ((perform call name fs [] code m).1,
        (perform call name fs [] code m).2.after out.reverse.flatten)
  | [], fs, out, m => by cases fs <;> simp [perform]
  | a :: code, fs, out, m => by
    rcases a.plain_or_mark with ha | ⟨_ | _ | _, rfl⟩
    · simp only [perform_plain call name ha]
      split
      · rcases a.run call (m.event (.stepped name a)) with ⟨m', t | ⟨t, f⟩ | ⟨word, place⟩⟩
        · simp only []
          rw [perform_out code fs (t :: out), perform_out code fs [t]]
          simp
        · simp
        · simp
      · exact perform_out code fs out m
    · simp only [perform_fork]
      split
      · split
        · simp
        · exact perform_out code _ out _
      · exact perform_out code _ out m
    · cases fs with
      | nil => simp [perform]
      | cons f fs => exact perform_out code _ out m
    · cases fs with
      | nil => simp [perform]
      | cons f fs => exact perform_out code fs out m

/-- A plain action that is executed is a run of its own, followed by the rest of the code. -/
theorem perform_live {a : Action} (ha : a.isPlain) {fs : List Frame} (hfs : executing fs)
    (code : List Action) (m : Machine) :
    perform call name fs [] (a :: code) m =
      andThen (a.run call (m.event (.stepped name a))) (perform call name fs [] code) := by
  rw [perform_plain call name ha, if_pos hfs]
  rcases a.run call (m.event (.stepped name a)) with ⟨m', t | ⟨t, f⟩ | ⟨word, place⟩⟩
  · simp only [andThen_done]
    rw [perform_out call name code fs [t]]
    simp
  · rfl
  · rfl

end Steps

/-- A relation between machines that running a word keeps, whatever the word does to the stack and
records in the trace. -/
structure Simulation (R : Machine → Machine → Prop) : Prop where
  stack : ∀ {m m'}, R m m' → m.stack = m'.stack
  setStack : ∀ {m m'} (s : Stack), R m m' → R { m with stack := s } { m' with stack := s }
  event : ∀ {m m'} (e : Event), R m m' → R (m.event e) (m'.event e)
  indent : ∀ {m m'} (t : Text), R m m' →
    R { m with trace := m.trace.indent t } { m' with trace := m'.trace.indent t }
  restore : ∀ {m m' n n'}, R m m' → R n n' →
    R { n with trace := n.trace.withLead m.trace.lead }
      { n' with trace := n'.trace.withLead m'.trace.lead }

/-- Runs with one outcome that end in related machines. -/
def Matching (R : Machine → Machine → Prop) (r r' : Machine × Outcome) : Prop :=
  R r.1 r'.1 ∧ r.2 = r'.2

section Simulation

variable {R : Machine → Machine → Prop}

theorem Matching.andThen {r r' : Machine × Outcome} {k k' : Machine → Machine × Outcome}
    (h : Matching R r r') (hk : ∀ m m', R m m' → Matching R (k m) (k' m')) :
    Matching R (LineForth.andThen r k) (LineForth.andThen r' k') := by
  obtain ⟨m, o⟩ := r
  obtain ⟨m', o'⟩ := r'
  obtain ⟨hm, rfl⟩ := h
  cases o with
  | done t =>
    obtain ⟨h1, h2⟩ := hk m m' hm
    exact ⟨h1, by simp only [andThen_done, h2]⟩
  | failed t f => exact ⟨hm, rfl⟩
  | broke word place => exact ⟨hm, rfl⟩

variable (hR : Simulation R)

include hR in
theorem Simulation.push {m m' : Machine} (c : Cell) (h : R m m') : R (m.push c) (m'.push c) := by
  unfold Machine.push
  rw [← hR.stack h]
  exact hR.setStack _ h

include hR in
theorem Action.run_sim {call call' : Calls} (a : Action)
    (hc : ∀ key k, a = .call key k → ∀ m m', R m m' → Matching R (call k m) (call' k m'))
    {m m' : Machine} (hm : R m m') : Matching R (a.run call m) (a.run call' m') := by
  cases a with
  | call key k => exact hc key k rfl m m' hm
  | push c => exact ⟨hR.push c hm, rfl⟩
  | print t => exact ⟨hm, rfl⟩
  | mark k => exact ⟨hm, rfl⟩

include hR in
theorem perform_sim {call call' : Calls} (name : Text) : ∀ (code : List Action),
    (∀ key k, .call key k ∈ code → ∀ m m', R m m' → Matching R (call k m) (call' k m')) →
    ∀ (fs : List Frame) (out : List Text) (m m' : Machine), R m m' →
      Matching R (perform call name fs out code m) (perform call' name fs out code m')
  | [], _, fs, out, m, m', hm => by cases fs <;> exact ⟨hm, rfl⟩
  | a :: code, hc, fs, out, m, m', hm => by
    have ih := perform_sim name code fun key k hk => hc key k (List.mem_cons_of_mem _ hk)
    rcases a.plain_or_mark with ha | ⟨_ | _ | _, rfl⟩
    · have hstep : Matching R (a.run call (m.event (.stepped name a)))
          (a.run call' (m'.event (.stepped name a))) :=
        Action.run_sim hR a (fun key k hk => hc key k (hk ▸ List.mem_cons_self)) (hR.event _ hm)
      simp only [perform_plain _ name ha]
      split
      · rcases hr : a.run call (m.event (.stepped name a)) with ⟨n, o⟩
        rcases hr' : a.run call' (m'.event (.stepped name a)) with ⟨n', o'⟩
        rw [hr, hr'] at hstep
        obtain ⟨hn, rfl⟩ := hstep
        cases o with
        | done t => exact ih fs (t :: out) n n' hn
        | failed t f => exact ⟨hn, rfl⟩
        | broke word place => exact ⟨hn, rfl⟩
      · exact ih fs out m m' hm
    · simp only [perform_fork, ← hR.stack hm]
      split
      · split
        · exact ⟨hm, rfl⟩
        · exact ih _ out _ _ (hR.setStack _ hm)
      · exact ih _ out m m' hm
    · cases fs with
      | nil => exact ⟨hm, rfl⟩
      | cons f fs => exact ih _ out m m' hm
    · cases fs with
      | nil => exact ⟨hm, rfl⟩
      | cons f fs => exact ih fs out m m' hm

include hR in
theorem Meaning.run_sim {call call' : Calls} (e : Meaning)
    (hc : ∀ code, e.code? = some code → ∀ key k, .call key k ∈ code →
      ∀ m m', R m m' → Matching R (call k m) (call' k m')) {m m' : Machine} (hm : R m m') :
    Matching R (e.run call m) (e.run call' m') := by
  cases e with
  | marker k => exact ⟨hm, rfl⟩
  | native p =>
    simp only [Meaning.run, Machine.primitive, ← hR.stack hm]
    split <;> exact ⟨hR.setStack _ hm, rfl⟩
  | host w => exact ⟨hR.push _ hm, rfl⟩
  | compiled name code =>
    obtain ⟨h1, h2⟩ := perform_sim hR name code (hc code rfl) [] [] _ _ (hR.indent indentation hm)
    exact ⟨hR.restore hm h1, h2⟩

end Simulation

theorem simulation_eq : Simulation Eq where
  stack h := by rw [h]
  setStack s h := by rw [h]
  event e h := by rw [h]
  indent t h := by rw [h]
  restore h h' := by rw [h, h']

/-- Machines with one stack, whatever was recorded on the way there. -/
def SameStack (m m' : Machine) : Prop := m.stack = m'.stack

theorem simulation_sameStack : Simulation SameStack where
  stack h := h
  setStack _ _ := rfl
  event _ h := h
  indent _ h := h
  restore _ h := h

theorem runAt_sameStack : ∀ (es : List Entry) (k : Nat) {m m' : Machine}, SameStack m m' →
    Matching SameStack (runAt es k m) (runAt es k m')
  | [], _, _, _, h => ⟨h, rfl⟩
  | e :: older, k, m, m', h => by
    simp only [runAt]
    split
    · exact Meaning.run_sim simulation_sameStack _
        (fun _ _ _ k' _ _ _ hm => runAt_sameStack older k' hm) h
    · exact runAt_sameStack older k h

end LineForth
