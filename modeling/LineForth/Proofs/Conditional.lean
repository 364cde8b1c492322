import LineForth.Proofs.Perform

/-!
# Conditionals as trees

Code whose markers balance is a tree: a body is a sequence of plain actions and conditionals, and a
conditional has a first body and any number of others.  `Body.code` writes a body down as the flat
list of actions, and `Body.run` runs the tree itself: a conditional pops a cell and runs the first
body if the cell is not zero, and all the others in turn if it is.

The frames that `perform` keeps say of each position whether it is reached, and only the innermost
one is looked at.  So a body under frames that do not execute is passed over without a trace
(`perform_skipped`), and one under frames that do is run as a tree before the rest is performed
(`perform_reached`).  With no rest this is the run of the tree (`perform_code`).
-/

namespace LineForth

mutual

/-- Balanced code: `Body ::= (plain action | if Body (else Body)* then)*`. -/
inductive Body
  | finish
  | plain (a : Action) (isPlain : a.isPlain) (rest : Body)
  | conditional (first : Body) (others : Others) (rest : Body)

/-- The bodies of a conditional after its first one. -/
inductive Others
  | finish
  | other (body : Body) (rest : Others)

end

mutual

def Body.code : Body → List Action
  | .finish => []
  | .plain a _ rest => a :: rest.code
  | .conditional first others rest =>
    .mark .fork :: (first.code ++ (others.code ++ .mark .join :: rest.code))

def Others.code : Others → List Action
  | .finish => []
  | .other body rest => .mark .other :: (body.code ++ rest.code)

end

mutual

/-- Runs a body as the tree it is.  Of a conditional, one side is not run at all. -/
def Body.run (call : Calls) (name : Text) : Body → Machine → Machine × Outcome
  | .finish, m => (m, .done [])
  | .plain a _ rest, m => andThen (a.run call (m.event (.stepped name a))) (rest.run call name)
  | .conditional first others rest, m =>
    match m.stack.pop? with
    | none => (m, .failed [] .stackUnderflow)
    | some (c, s) =>
      andThen
        (if c ≠ 0 then first.run call name { m with stack := s }
          else others.run call name { m with stack := s })
        (rest.run call name)

def Others.run (call : Calls) (name : Text) : Others → Machine → Machine × Outcome
  | .finish, m => (m, .done [])
  | .other body rest, m => andThen (body.run call name m) (rest.run call name)

end

/-- A run with the trace indented while it lasts. -/
def indented (run : Machine → Machine × Outcome) (m : Machine) : Machine × Outcome :=
  let (m', o) := run { m with trace := m.trace.indent indentation }
  ({ m' with trace := m'.trace.withLead m.trace.lead }, o)

variable (call : Calls) (name : Text)

section Skipped

mutual

theorem perform_skipped (fs : List Frame) (hfs : executing fs = false) (out : List Text)
    (rest : List Action) (m : Machine) : ∀ b : Body,
    perform call name fs out (b.code ++ rest) m = perform call name fs out rest m
  | .finish => by rw [Body.code, List.nil_append]
  | .plain a ha b => by
    rw [Body.code, List.cons_append, perform_plain call name ha, hfs, if_neg (by simp)]
    exact perform_skipped fs hfs out rest m b
  | .conditional first others b => by
    have hnew : executing (⟨false, true, false⟩ :: fs) = false := rfl
    simp only [Body.code, List.cons_append, List.append_assoc]
    rw [perform_fork, hfs, if_neg (by simp), perform_skipped _ hnew out _ m first,
      perform_skippedOthers ⟨false, true, false⟩ fs rfl out _ m others]
    exact perform_skipped fs hfs out rest m b

/-- Where the alternatives are not the branch to take, all of them are passed over. -/
theorem perform_skippedOthers (f : Frame) (fs : List Frame)
    (hf : ({ f with firstBranch := false } : Frame).live = false) (out : List Text)
    (rest : List Action) (m : Machine) : ∀ o : Others,
    perform call name (f :: fs) out (o.code ++ .mark .join :: rest) m =
      perform call name fs out rest m
  | .finish => by rw [Others.code, List.nil_append, perform_join]
  | .other b o => by
    simp only [Others.code, List.cons_append, List.append_assoc]
    rw [perform_other, perform_skipped ({ f with firstBranch := false } :: fs) hf out _ m b]
    exact perform_skippedOthers { f with firstBranch := false } fs hf out rest m o

end

end Skipped

section Reached

theorem perform_finish (fs : List Frame) (rest : List Action) (m : Machine) :
    perform call name fs [] rest m = andThen (m, .done []) (perform call name fs [] rest) :=
  perform_out call name rest fs [] m

mutual

theorem perform_reached (fs : List Frame) (hfs : executing fs) (rest : List Action) :
    ∀ (b : Body) (m : Machine), perform call name fs [] (b.code ++ rest) m =
      andThen (b.run call name m) (perform call name fs [] rest)
  | .finish, m => by
    rw [Body.code, List.nil_append, Body.run]
    exact perform_finish call name fs rest m
  | .plain a ha b, m => by
    rw [Body.code, List.cons_append, perform_live call name ha hfs, Body.run, andThen_assoc]
    exact congrArg _ (funext fun m' => perform_reached fs hfs rest b m')
  | .conditional first others b, m => by
    have hrest : perform call name fs [] (b.code ++ rest) =
        fun m' => andThen (b.run call name m') (perform call name fs [] rest) :=
      funext fun m' => perform_reached fs hfs rest b m'
    simp only [Body.code, Body.run, List.cons_append, List.append_assoc]
    rw [perform_fork, if_pos hfs]
    rcases m.stack.pop? with _ | ⟨c, s⟩
    · rfl
    simp only []
    rw [andThen_assoc, ← hrest]
    by_cases hc : c = 0
    · have hdead : executing (⟨true, true, decide (c ≠ 0)⟩ :: fs) = false := by
        simp [executing, Frame.live, hc]
      rw [if_neg (by simpa using hc), perform_skipped call name _ hdead,
        perform_reachedOthers _ fs (by simp [Frame.live, hc]) _ others]
    · have hlive : executing (⟨true, true, decide (c ≠ 0)⟩ :: fs) = true := by
        simp [executing, Frame.live, hc]
      rw [if_pos hc, perform_reached _ hlive _ first]
      refine congrArg _ (funext fun m' => ?_)
      exact perform_skippedOthers call name _ fs (by simp [Frame.live, hc]) [] _ m' others

/-- Where the alternatives are the branch to take, all of them are run in turn. -/
theorem perform_reachedOthers (f : Frame) (fs : List Frame)
    (hf : ({ f with firstBranch := false } : Frame).live = true) (rest : List Action) :
    ∀ (o : Others) (m : Machine),
      perform call name (f :: fs) [] (o.code ++ .mark .join :: rest) m =
        andThen (o.run call name m) (perform call name fs [] rest)
  | .finish, m => by
    rw [Others.code, List.nil_append, perform_join, Others.run]
    exact perform_finish call name fs rest m
  | .other b o, m => by
    simp only [Others.code, List.cons_append, List.append_assoc]
    rw [perform_other, perform_reached ({ f with firstBranch := false } :: fs) hf _ b, Others.run,
      andThen_assoc]
    refine congrArg _ (funext fun m' => ?_)
    exact perform_reachedOthers { f with firstBranch := false } fs hf rest o m'

end

/-- A body's run that fails has lost its output already, so ending it changes nothing. -/
theorem andThen_run : ∀ (b : Body) (m : Machine),
    andThen (b.run call name m) (fun m => (m, .done [])) = b.run call name m
  | .finish, _ => rfl
  | .plain a ha b, m => by
    rw [Body.run, andThen_assoc]
    exact congrArg _ (funext fun m' => andThen_run b m')
  | .conditional first others b, m => by
    rw [Body.run]
    rcases m.stack.pop? with _ | ⟨c, s⟩
    · rfl
    simp only []
    rw [andThen_assoc]
    exact congrArg _ (funext fun m' => andThen_run b m')

theorem perform_code (b : Body) (m : Machine) :
    perform call name [] [] b.code m = b.run call name m := by
  have h := perform_reached call name [] rfl [] b m
  rw [List.append_nil] at h
  rw [h]
  exact andThen_run call name b m

end Reached

/-- A definition whose markers balance runs as the tree they describe; and wherever a body stands in
a definition, it is run as a tree or not at all. -/
theorem runCompiled_structured (b : Body) :
    (∀ m, runCompiled call name b.code m = indented (b.run call name) m)
      ∧ ∀ (fs : List Frame) (rest : List Action) (m : Machine),
        perform call name fs [] (b.code ++ rest) m =
          if executing fs then andThen (b.run call name m) (perform call name fs [] rest)
          else perform call name fs [] rest m := by
  refine ⟨fun m => ?_, fun fs rest m => ?_⟩
  · unfold runCompiled indented
    rw [perform_code]
  · split
    · exact perform_reached call name fs (by assumption) rest b m
    · exact perform_skipped call name fs (by simpa using ‹¬ executing fs = true›) [] rest m b

end LineForth
