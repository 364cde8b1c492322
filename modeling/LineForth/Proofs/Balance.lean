import Mathlib.Data.List.Basic
import LineForth.Proofs.Conditional

/-!
# Conditionals that do not balance

Performing a definition goes from action to action (`Progress.step`) until one of them stops it or
none is left.  The outcome of a definition does not say who broke off, since a word that is called
may have the same name; an `Exit` tells the faults of the definition itself from those of the words
that it calls.

Which actions are executed depends on the stack, but a marker opens, turns or ends a conditional in
any case.  So the number of open conditionals is the number of those that the code so far opens
less the number that it ends (`Reaches.frames`), and where a definition breaks off by itself can be
told from its markers alone (`imbalance`, `Progress.attempt_tells`).  Code without an imbalance is
the code of a tree (`balanced_iff`).
-/

namespace LineForth

/-- Where performing a definition stands: the open conditionals, innermost first, the output so far,
last piece first, and the machine. -/
structure Progress where
  frames : List Frame := []
  out : List Text := []
  machine : Machine

/-- How a definition ends: with its output, with a failure, with the fault of a word that it calls,
or with a fault of its own. -/
inductive Exit
  | done (out : Text)
  | failed (why : Failure)
  | called (word : Text) (place : Place)
  | unbalanced (place : Place)
deriving DecidableEq

/-- The outcome of a definition called `name`. -/
def Exit.outcome (name : Text) : Exit → Outcome
  | .done out => .done out
  | .failed why => .failed [] why
  | .called word place => .broke word place
  | .unbalanced place => .broke name place

section Progress

variable (call : Calls) (name : Text)

/-- Performs one action. -/
def Progress.step (p : Progress) : Action → Except (Machine × Exit) Progress
  | .mark .fork =>
    if executing p.frames then
      match p.machine.stack.pop? with
      | none => .error (p.machine, .failed .stackUnderflow)
      | some (c, s) =>
        .ok { p with frames := ⟨true, true, c ≠ 0⟩ :: p.frames, machine.stack := s }
    else .ok { p with frames := ⟨false, true, false⟩ :: p.frames }
  | .mark .other =>
    match p.frames with
    | [] => .error (p.machine, .unbalanced .atElse)
    | f :: fs => .ok { p with frames := { f with firstBranch := false } :: fs }
  | .mark .join =>
    match p.frames with
    | [] => .error (p.machine, .unbalanced .atThen)
    | _ :: fs => .ok { p with frames := fs }
  | a =>
    if executing p.frames then
      match a.run call (p.machine.event (.stepped name a)) with
      | (m, .done t) => .ok { p with out := t :: p.out, machine := m }
      | (m, .failed _ f) => .error (m, .failed f)
      | (m, .broke word place) => .error (m, .called word place)
    else .ok p

def Progress.advance (p : Progress) : List Action → Except (Machine × Exit) Progress
  | [] => .ok p
  | a :: code => (p.step call name a).bind fun q => q.advance code

/-- With no action left, a conditional that is still open is a fault. -/
def Progress.finish (p : Progress) : Machine × Exit :=
  (p.machine, if p.frames.isEmpty then .done p.out.reverse.flatten else .unbalanced .atEnd)

def Progress.attempt (p : Progress) (code : List Action) : Machine × Exit :=
  match p.advance call name code with
  | .ok q => q.finish
  | .error e => e

/-- Performs a whole definition. -/
def attempt (code : List Action) (m : Machine) : Machine × Exit :=
  Progress.attempt call name { machine := m } code

/-- Performing `code` from the start comes through to `p`. -/
def Reaches (m : Machine) (code : List Action) (p : Progress) : Prop :=
  Progress.advance call name { machine := m } code = .ok p

end Progress

section Perform

variable (call : Calls) (name : Text)

theorem Progress.step_plain {a : Action} (ha : a.isPlain) (p : Progress) :
    p.step call name a =
      if executing p.frames then
        match a.run call (p.machine.event (.stepped name a)) with
        | (m, .done t) => .ok { p with out := t :: p.out, machine := m }
        | (m, .failed _ f) => .error (m, .failed f)
        | (m, .broke word place) => .error (m, .called word place)
      else .ok p := by
  cases a with
  | mark k => cases ha
  | call _ _ => rfl
  | push _ => rfl
  | print _ => rfl

theorem Progress.attempt_cons (p : Progress) (a : Action) (code : List Action) :
    p.attempt call name (a :: code) =
      match p.step call name a with
      | .ok q => q.attempt call name code
      | .error e => e := by
  unfold Progress.attempt
  rw [advance]
  rcases p.step call name a with e | q <;> rfl

/-- Performing is going from action to action, once it is no longer told whose fault it was. -/
theorem perform_attempt : ∀ (code : List Action) (p : Progress),
    perform call name p.frames p.out code p.machine =
      Prod.map id (Exit.outcome name) (p.attempt call name code)
  | [], ⟨fs, out, m⟩ => by cases fs <;> rfl
  | a :: code, ⟨fs, out, m⟩ => by
    rw [Progress.attempt_cons]
    rcases a.plain_or_mark with ha | ⟨_ | _ | _, rfl⟩
    · rw [Progress.step_plain call name ha, perform_plain call name ha]
      simp only []
      split
      · rcases a.run call (m.event (.stepped name a)) with ⟨m', t | ⟨t, f⟩ | ⟨word, place⟩⟩
        · exact perform_attempt code ⟨fs, t :: out, m'⟩
        · rfl
        · rfl
      · exact perform_attempt code ⟨fs, out, m⟩
    · rw [perform_fork]
      unfold Progress.step
      simp only []
      split
      · rcases m.stack.pop? with _ | ⟨c, s⟩
        · rfl
        · exact perform_attempt code ⟨⟨true, true, c ≠ 0⟩ :: fs, out, { m with stack := s }⟩
      · exact perform_attempt code ⟨⟨false, true, false⟩ :: fs, out, m⟩
    · cases fs with
      | nil => rfl
      | cons f fs => exact perform_attempt code ⟨{ f with firstBranch := false } :: fs, out, m⟩
    · cases fs with
      | nil => rfl
      | cons f fs => exact perform_attempt code ⟨fs, out, m⟩

theorem runCompiled_attempt (code : List Action) (m : Machine) :
    runCompiled call name code m =
      indented (fun m => Prod.map id (Exit.outcome name) (attempt call name code m)) m := by
  have hperform := perform_attempt call name code
    { machine := { m with trace := m.trace.indent indentation } }
  unfold runCompiled indented attempt
  simp only [hperform]

end Perform

section Counting

/-- What an action does to the number of open conditionals; a marker counts whether it is reached or
not.  With none open there is nothing to turn or to end. -/
def turn : Nat → Action → Except Place Nat
  | n, .mark .fork => .ok (n + 1)
  | 0, .mark .other => .error .atElse
  | n + 1, .mark .other => .ok (n + 1)
  | 0, .mark .join => .error .atThen
  | n + 1, .mark .join => .ok n
  | n, _ => .ok n

theorem turn_plain {a : Action} (ha : a.isPlain) (n : Nat) : turn n a = .ok n := by
  cases a with
  | mark k => cases ha
  | call _ _ => cases n <;> rfl
  | push _ => cases n <;> rfl
  | print _ => cases n <;> rfl

theorem turn_fork (n : Nat) : turn n (.mark .fork) = .ok (n + 1) := by cases n <;> rfl

theorem turn_error {n : Nat} {a : Action} {place : Place} (h : turn n a = .error place) :
    n = 0 ∧ (a = .mark .other ∧ place = .atElse ∨ a = .mark .join ∧ place = .atThen) := by
  rcases a.plain_or_mark with ha | ⟨_ | _ | _, rfl⟩
  · rw [turn_plain ha] at h
    cases h
  · rw [turn_fork] at h
    cases h
  · cases n <;> cases h
    exact ⟨rfl, .inl ⟨rfl, rfl⟩⟩
  · cases n <;> cases h
    exact ⟨rfl, .inr ⟨rfl, rfl⟩⟩

/-- The conditionals that the code opens, less those that it ends. -/
def openings (code : List Action) : Int :=
  (code.count (.mark .fork) : Int) - code.count (.mark .join)

theorem openings_cons (a : Action) (code : List Action) :
    openings (a :: code) = openings [a] + openings code := by
  simp only [openings, List.count_cons, List.count_nil]
  omega

theorem turn_openings {n k : Nat} {a : Action} (h : turn n a = .ok k) :
    (k : Int) = n + openings [a] := by
  rcases a.plain_or_mark with ha | ⟨_ | _ | _, rfl⟩
  · rw [turn_plain ha] at h
    cases h
    cases a with
    | mark k => cases ha
    | call _ _ => simp [openings]
    | push _ => simp [openings]
    | print _ => simp [openings]
  · rw [turn_fork] at h
    cases h
    simp [openings]
  · cases n <;> cases h
    simp [openings]
  · cases n <;> cases h
    have hjoin : openings [.mark .join] = -1 := by decide
    rw [hjoin]
    omega

variable {call : Calls} {name : Text}

/-- All that an action can do: it comes through, it fails, a word that it calls breaks off, or the
definition does; and whether it does can be told from the number of open conditionals. -/
theorem Progress.step_cases (call : Calls) (name : Text) (p : Progress) (a : Action) :
    (∃ q, p.step call name a = .ok q ∧ turn p.frames.length a = .ok q.frames.length)
      ∨ (∃ m f, p.step call name a = .error (m, .failed f))
      ∨ (∃ m word place, p.step call name a = .error (m, .called word place))
      ∨ ∃ place, p.step call name a = .error (p.machine, .unbalanced place)
        ∧ turn p.frames.length a = .error place := by
  obtain ⟨fs, out, m⟩ := p
  rcases a.plain_or_mark with ha | ⟨_ | _ | _, rfl⟩
  · rw [Progress.step_plain call name ha, turn_plain ha]
    simp only []
    split_ifs
    · rcases a.run call (m.event (.stepped name a)) with ⟨m', t | ⟨t, f⟩ | ⟨word, place⟩⟩
      · exact .inl ⟨_, rfl, rfl⟩
      · exact .inr (.inl ⟨_, _, rfl⟩)
      · exact .inr (.inr (.inl ⟨_, _, _, rfl⟩))
    · exact .inl ⟨_, rfl, rfl⟩
  · rw [turn_fork, Progress.step]
    simp only []
    split_ifs
    · rcases m.stack.pop? with _ | ⟨c, s⟩
      · exact .inr (.inl ⟨_, _, rfl⟩)
      · exact .inl ⟨_, rfl, rfl⟩
    · exact .inl ⟨_, rfl, rfl⟩
  · cases fs with
    | nil => exact .inr (.inr (.inr ⟨_, rfl, rfl⟩))
    | cons f fs => exact .inl ⟨_, rfl, rfl⟩
  · cases fs with
    | nil => exact .inr (.inr (.inr ⟨_, rfl, rfl⟩))
    | cons f fs => exact .inl ⟨_, rfl, rfl⟩

theorem Progress.step_ok {p q : Progress} {a : Action} (h : p.step call name a = .ok q) :
    turn p.frames.length a = .ok q.frames.length := by
  rcases step_cases call name p a with
    ⟨q', hstep, hturn⟩ | ⟨m, f, hstep⟩ | ⟨m, word, place, hstep⟩ | ⟨place, hstep, -⟩ <;>
    rw [h] at hstep <;> cases hstep
  exact hturn

theorem Progress.step_unbalanced {p : Progress} {a : Action} {m : Machine} {place : Place}
    (h : p.step call name a = .error (m, .unbalanced place)) :
    p.machine = m ∧ turn p.frames.length a = .error place := by
  rcases step_cases call name p a with
    ⟨q, hstep, -⟩ | ⟨m, f, hstep⟩ | ⟨m, word, place, hstep⟩ | ⟨place, hstep, hturn⟩ <;>
    rw [h] at hstep <;> cases hstep
  exact ⟨rfl, hturn⟩

theorem Progress.advance_frames : ∀ (code : List Action) {p q : Progress},
    p.advance call name code = .ok q →
    (q.frames.length : Int) = p.frames.length + openings code
  | [], p, q, h => by
    cases h
    simp [openings]
  | a :: code, p, q, h => by
    rw [advance] at h
    rcases hs : p.step call name a with e | r <;> rw [hs] at h
    · cases h
    · have hstep := turn_openings (step_ok hs)
      have hrest := advance_frames code h
      rw [openings_cons]
      omega

/-- The open conditionals are those that the code so far opens and does not end, whatever was
executed of it. -/
theorem Reaches.frames {m : Machine} {code : List Action} {p : Progress}
    (h : Reaches call name m code p) : (p.frames.length : Int) = openings code := by
  have hframes := Progress.advance_frames code h
  simpa using hframes

end Counting

section Breaking

variable {call : Calls} {name : Text}

/-- The definition breaks off by itself: at a marker for which no conditional is open, or at its end
with one still open.  It stands at `p` then. -/
inductive Breaks (call : Calls) (name : Text) (m : Machine) :
    List Action → Progress → Place → Prop
  | other {pre post : List Action} {p : Progress} : Reaches call name m pre p →
      openings pre = 0 → Breaks call name m (pre ++ .mark .other :: post) p .atElse
  | join {pre post : List Action} {p : Progress} : Reaches call name m pre p →
      openings pre = 0 → Breaks call name m (pre ++ .mark .join :: post) p .atThen
  | finish {code : List Action} {p : Progress} : Reaches call name m code p →
      0 < openings code → Breaks call name m code p .atEnd

theorem Progress.advance_append : ∀ (pre post : List Action) {p q : Progress},
    p.advance call name pre = .ok q →
    p.advance call name (pre ++ post) = q.advance call name post
  | [], post, p, q, h => by
    cases h
    rfl
  | a :: pre, post, p, q, h => by
    rw [List.cons_append, advance]
    rw [advance] at h
    rcases hs : p.step call name a with e | r <;> rw [hs] at h
    · cases h
    · exact advance_append pre post h

/-- What stops a definition is one of its actions, after those before it came through. -/
theorem Progress.advance_error : ∀ (code : List Action) {p : Progress} {e : Machine × Exit},
    p.advance call name code = .error e →
    ∃ pre a post q, code = pre ++ a :: post ∧ p.advance call name pre = .ok q
      ∧ q.step call name a = .error e
  | [], p, e, h => by cases h
  | a :: code, p, e, h => by
    rw [advance] at h
    rcases hs : p.step call name a with e' | r <;> rw [hs] at h
    · cases h
      exact ⟨[], a, code, p, rfl, rfl, hs⟩
    · obtain ⟨pre, b, post, q, rfl, hpre, hb⟩ := advance_error code h
      refine ⟨a :: pre, b, post, q, rfl, ?_, hb⟩
      rw [advance, hs]
      exact hpre

variable {m : Machine} {code : List Action} {p : Progress} {place : Place}

theorem Reaches.frames_eq_nil (h : Reaches call name m code p) :
    p.frames = [] ↔ openings code = 0 := by
  have hframes := h.frames
  rw [← List.length_eq_zero_iff]
  omega

/-- Performing the code is performing what is left from where it stands. -/
theorem Reaches.perform (h : Reaches call name m code p) (post : List Action) :
    LineForth.perform call name [] [] (code ++ post) m
      = LineForth.perform call name p.frames p.out post p.machine := by
  have hstart := perform_attempt call name (code ++ post) { machine := m }
  rw [Progress.attempt, Progress.advance_append code post h] at hstart
  rw [perform_attempt call name post p]
  exact hstart

theorem breaks_of_attempt {m' : Machine}
    (h : attempt call name code m = (m', .unbalanced place)) :
    ∃ p, p.machine = m' ∧ Breaks call name m code p place := by
  unfold attempt Progress.attempt at h
  split at h
  · rename_i p hp
    obtain ⟨hm, hexit⟩ := Prod.mk.inj h
    have hreach : Reaches call name m code p := hp
    have hframes := hreach.frames
    split_ifs at hexit with hnil
    cases hexit
    rw [List.isEmpty_iff, hreach.frames_eq_nil] at hnil
    exact ⟨p, hm, .finish hreach (by omega)⟩
  · rename_i e he
    subst h
    obtain ⟨pre, a, post, p, rfl, hpre, hstep⟩ := Progress.advance_error code he
    have hreach : Reaches call name m pre p := hpre
    obtain ⟨hm, hturn⟩ := Progress.step_unbalanced hstep
    obtain ⟨hlength, hmark⟩ := turn_error hturn
    have hcount := hreach.frames_eq_nil.1 (List.length_eq_zero_iff.1 hlength)
    rcases hmark with ⟨rfl, rfl⟩ | ⟨rfl, rfl⟩
    · exact ⟨p, hm, .other hreach hcount⟩
    · exact ⟨p, hm, .join hreach hcount⟩

theorem Breaks.attempt (h : Breaks call name m code p place) :
    LineForth.attempt call name code m = (p.machine, .unbalanced place) := by
  unfold LineForth.attempt Progress.attempt
  cases h with
  | other hreach hcount =>
    rw [Progress.advance_append _ _ hreach, Progress.advance, Progress.step,
      hreach.frames_eq_nil.2 hcount]
    rfl
  | join hreach hcount =>
    rw [Progress.advance_append _ _ hreach, Progress.advance, Progress.step,
      hreach.frames_eq_nil.2 hcount]
    rfl
  | finish hreach hcount =>
    have hne : p.frames ≠ [] := fun hnil => by
      rw [hreach.frames_eq_nil] at hnil
      omega
    rw [show Progress.advance call name { machine := m } code = .ok p from hreach]
    simp [Progress.finish, hne]

end Breaking

section Balanced

/-- Where markers that come after `n` open conditionals are found not to balance, if they are. -/
def imbalance (n : Nat) : List Action → Option Place
  | [] => if n = 0 then none else some .atEnd
  | a :: code =>
    match turn n a with
    | .ok k => imbalance k code
    | .error place => some place

/-- Code that is written down from a tree. -/
def Balanced (code : List Action) : Prop := ∃ b : Body, b.code = code

theorem imbalance_cons {n k : Nat} {a : Action} (h : turn n a = .ok k) (code : List Action) :
    imbalance n (a :: code) = imbalance k code := by
  rw [imbalance, h]

variable {call : Calls} {name : Text}

/-- What an exit says about the markers of a definition, if it says anything. -/
def Exit.Tells (found : Option Place) : Exit → Prop
  | .done _ => found = none
  | .unbalanced place => found = some place
  | .failed _ => True
  | .called _ _ => True

theorem Progress.attempt_tells : ∀ (code : List Action) (p : Progress),
    (p.attempt call name code).2.Tells (imbalance p.frames.length code)
  | [], ⟨fs, out, m⟩ => by cases fs <;> rfl
  | a :: code, p => by
    rw [attempt_cons, imbalance]
    rcases step_cases call name p a with
      ⟨q, hstep, hturn⟩ | ⟨m, f, hstep⟩ | ⟨m, word, place, hstep⟩ | ⟨place, hstep, hturn⟩
    · rw [hstep, hturn]
      exact attempt_tells code q
    · rw [hstep]
      trivial
    · rw [hstep]
      trivial
    · rw [hstep, hturn]
      rfl

mutual

theorem imbalance_body (n : Nat) (rest : List Action) : ∀ b : Body,
    imbalance n (b.code ++ rest) = imbalance n rest
  | .finish => rfl
  | .plain a ha b => by
    rw [Body.code, List.cons_append, imbalance_cons (turn_plain ha n), imbalance_body n rest b]
  | .conditional first others b => by
    simp only [Body.code, List.cons_append, List.append_assoc]
    rw [imbalance_cons (turn_fork n), imbalance_body (n + 1) _ first,
      imbalance_others n _ others]
    exact imbalance_body n rest b

theorem imbalance_others (n : Nat) (rest : List Action) : ∀ o : Others,
    imbalance (n + 1) (o.code ++ rest) = imbalance (n + 1) rest
  | .finish => rfl
  | .other b o => by
    simp only [Others.code, List.cons_append, List.append_assoc]
    rw [imbalance_cons (k := n + 1) rfl, imbalance_body (n + 1) _ b, imbalance_others n rest o]

end

/-- Code without an imbalance starts with a body.  With no conditional open that is all of it; else
the alternatives and the end of the innermost one follow.  The induction is on the length of the
code, since what follows a conditional is not its tail. -/
theorem body_of_balance (code : List Action) : ∀ (n : Nat), imbalance n code = none →
    ∃ b : Body, (n = 0 ∧ code = b.code)
      ∨ ∃ (k : Nat) (o : Others) (rest : List Action), n = k + 1
        ∧ code = b.code ++ (o.code ++ .mark .join :: rest) ∧ imbalance k rest = none := by
  induction hlen : code.length using Nat.strongRecOn generalizing code with
  | ind len ih =>
    subst hlen
    intro n h
    rcases code with _ | ⟨a, code⟩
    · cases n with
      | zero => exact ⟨.finish, .inl ⟨rfl, rfl⟩⟩
      | succ n => cases h
    have hrest := ih code.length (Nat.lt_succ_self _) code rfl
    rcases a.plain_or_mark with ha | ⟨_ | _ | _, rfl⟩
    · rw [imbalance_cons (turn_plain ha n)] at h
      obtain ⟨b, ⟨rfl, rfl⟩ | ⟨k, o, rest, rfl, rfl, hbal⟩⟩ := hrest n h
      · exact ⟨.plain a ha b, .inl ⟨rfl, rfl⟩⟩
      · exact ⟨.plain a ha b, .inr ⟨k, o, rest, rfl, rfl, hbal⟩⟩
    · rw [imbalance_cons (turn_fork n)] at h
      obtain ⟨first, ⟨h0, -⟩ | ⟨k, others, after, hk, rfl, hafter⟩⟩ := hrest (n + 1) h
      · cases h0
      obtain rfl : n = k := Nat.succ.inj hk
      have hshort : after.length
          < (.mark .fork :: (first.code ++ (others.code ++ .mark .join :: after))).length := by
        simp only [List.length_cons, List.length_append]
        omega
      obtain ⟨b, ⟨rfl, rfl⟩ | ⟨k, o, rest, rfl, rfl, hbal⟩⟩ := ih _ hshort after rfl n hafter
      · exact ⟨.conditional first others b, .inl ⟨rfl, rfl⟩⟩
      · exact ⟨.conditional first others b, .inr ⟨k, o, rest, rfl, by simp [Body.code], hbal⟩⟩
    · cases n with
      | zero => cases h
      | succ n =>
        obtain ⟨b, ⟨h0, -⟩ | ⟨k, o, rest, hk, rfl, hbal⟩⟩ := hrest (n + 1) h
        · cases h0
        · exact ⟨.finish, .inr ⟨k, .other b o, rest, hk, by simp [Body.code, Others.code], hbal⟩⟩
    · cases n with
      | zero => cases h
      | succ n => exact ⟨.finish, .inr ⟨n, .finish, code, rfl, rfl, h⟩⟩

/-- Markers balance exactly in the code of a tree. -/
theorem balanced_iff {code : List Action} : Balanced code ↔ imbalance 0 code = none := by
  constructor
  · rintro ⟨b, rfl⟩
    have hbody := imbalance_body 0 [] b
    rwa [List.append_nil] at hbody
  · intro h
    obtain ⟨b, ⟨-, rfl⟩ | ⟨k, o, rest, hk, -, -⟩⟩ := body_of_balance code 0 h
    · exact ⟨b, rfl⟩
    · cases hk

end Balanced

/-- A definition finds out that its markers do not balance exactly where they do not, whatever is on
the stack: the open conditionals are counted by the markers passed, it breaks off by itself at the
first alternative or end with none open and at its end with one open, it never does if its code
comes from a tree, and if not it is never done. -/
theorem unbalanced_exactly (call : Calls) (name : Text) (code : List Action) (m : Machine) :
    runCompiled call name code m
        = indented (fun m => Prod.map id (Exit.outcome name) (attempt call name code m)) m
      ∧ (∀ pre post p, code = pre ++ post → Reaches call name m pre p →
        perform call name [] [] code m = perform call name p.frames p.out post p.machine
          ∧ (p.frames.length : Int) = openings pre)
      ∧ (∀ m' place, attempt call name code m = (m', .unbalanced place)
        ↔ ∃ p, p.machine = m' ∧ Breaks call name m code p place)
      ∧ (Balanced code → ∀ place, (attempt call name code m).2 ≠ .unbalanced place)
      ∧ (¬ Balanced code → ∀ out, (attempt call name code m).2 ≠ .done out) := by
  have htells : (attempt call name code m).2.Tells (imbalance 0 code) :=
    Progress.attempt_tells code { machine := m }
  refine ⟨runCompiled_attempt call name code m, fun pre post p hcode h => ?_,
    fun m' place => ?_, fun hb place hexit => ?_, fun hb out hexit => ?_⟩
  · subst hcode
    exact ⟨h.perform post, h.frames⟩
  · refine ⟨breaks_of_attempt, ?_⟩
    rintro ⟨p, rfl, h⟩
    exact h.attempt
  · rw [hexit, balanced_iff.1 hb] at htells
    cases htells
  · rw [hexit] at htells
    exact hb (balanced_iff.2 htells)

end LineForth
