import Mathlib.Data.List.Basic
import Mathlib.Data.List.Induction
import LineForth.Log.Journal

/-!
# Messages and exit codes

Between two calls the buffer of a journal is empty, so what a call hands to the output is made of
its own level and text, whatever became of the messages before it (`print_eq`).  Therefore each call
makes one write of one message (`apply_delivers`), and the exit code can be read off the calls and
the writes that were refused (`exitCode_run`).
-/

namespace LineForth.Journal

/-- A message: the level if there is one, the text, and a newline unless there is one already or
nothing before it. -/
def compose (level text : Text) : Text :=
  let body := (if level = [] then [] else level ++ Text.ofString ": ") ++ text
  if body = [] ∨ body.getLast? = some Text.newline then body else body ++ [Text.newline]

/-- A write of `m` to the output in use meets a problem or falls short. -/
def Refuses (j : Journal) (m : Text) : Prop :=
  m ≠ [] ∧ ∃ s, j.inUse = some s ∧ (s.write m).2 ≠ ⟨m.length, none⟩

/-- The journal after one write of `m` to the output in use; nothing is written if `m` is empty. -/
def hand (j : Journal) (m : Text) : Journal :=
  match j.current, j.inUse with
  | some k, some s =>
    if m = [] then j
    else
      { j with
        outputs := j.outputs.set k (s.write m).1
        exitCode := if (s.write m).2 = ⟨m.length, none⟩ then j.exitCode else 2 }
  | _, _ => j

section Printing

variable {j : Journal}

theorem current_of_inUse {s : Sink} (h : j.inUse = some s) :
    ∃ k, j.current = some k ∧ j.outputs[k]? = some s :=
  Option.bind_eq_some_iff.1 h

theorem put_eq {k : Nat} {s : Sink} (hk : j.current = some k) (hs : j.inUse = some s) (p : Text) :
    j.put p = ({ j with outputs := j.outputs.set k (s.write p).1 }, (s.write p).2) := by
  unfold put
  rw [hk, hs]

/-- Nothing but the message comes into an empty buffer. -/
theorem fill_eq (h : j.buffer = []) (level message : Text) :
    j.fill level message = { j with buffer := compose level message } := by
  unfold fill endLine compose
  rcases level with _ | ⟨b, level⟩
  · simp only [append, h]
    split_ifs <;> simp_all
  · simp only [append, h]
    split_ifs <;> simp_all

/-- A problem is reported unless all was taken without one. -/
theorem report_eq_none {w : Written} {n : Nat} :
    w.problem.or (if w.count = n then none else some .shortWrite) = none ↔ w = ⟨n, none⟩ := by
  obtain ⟨count, problem⟩ := w
  rw [Option.or_eq_none_iff]
  split_ifs with h <;> simp_all

theorem drain_nil (h : j.buffer = []) : j.drain = (j, none) := by
  simp [drain, h]

theorem drain_eq {k : Nat} {s : Sink} (hk : j.current = some k) (hs : j.inUse = some s)
    (hne : j.buffer ≠ []) :
    j.drain = ({ j with
        outputs := j.outputs.set k (s.write j.buffer).1
        buffer := j.buffer.drop (s.write j.buffer).2.count },
      (s.write j.buffer).2.problem.or
        (if (s.write j.buffer).2.count = j.buffer.length then none else some .shortWrite)) := by
  simp [drain, hne, put_eq hk hs]

/-- Since the buffer was empty before and is reset after, the message alone goes out. -/
theorem write_eq (h : j.buffer = []) {s : Sink} (hs : j.inUse = some s) (level message : Text) :
    j.write level message
      = ({ ({ j with buffer := compose level message } : Journal).drain.1 with buffer := [] },
        ({ j with buffer := compose level message } : Journal).drain.2) := by
  simp [write, hs, fill_eq h, reset]

/-- Printing is one write of the message, and the code becomes two if it is refused. -/
theorem print_eq (h : j.buffer = []) (level message : Text) :
    j.print level message = j.hand (compose level message) := by
  obtain ⟨outputs, current, buffer, exitCode⟩ := j
  obtain rfl : buffer = [] := h
  rcases hs : inUse ⟨outputs, current, [], exitCode⟩ with _ | s
  · simp [print, write, hand, hs]
  · obtain ⟨k, rfl, hget⟩ := current_of_inUse hs
    unfold print hand
    rw [write_eq rfl hs, hs]
    generalize compose level message = m
    have hs' : inUse ⟨outputs, some k, m, exitCode⟩ = some s := hget
    by_cases hm : m = []
    · simp [hm, drain_nil]
    · simp only [drain_eq rfl hs' hm, if_neg hm]
      rcases hreport : (s.write m).2.problem.or
        (if (s.write m).2.count = m.length then none else some .shortWrite) with _ | p
      · simp [report_eq_none.1 hreport]
      · have hne : (s.write m).2 ≠ ⟨m.length, none⟩ := by
          rw [Ne, ← report_eq_none, hreport]
          simp
        simp [hne]

end Printing

/-- What can be done with a journal. -/
inductive Call
  | output (s : Sink)
  /-- An output that was given before, or none. -/
  | use (place : Option Nat)
  | print (level format : Text) (args : List Format.Arg)
  | leveled (level format : Text) (args : List Format.Arg)
  | error (format : Text) (args : List Format.Arg)
deriving DecidableEq

namespace Call

def apply (j : Journal) : Call → Journal
  | .output s => j.setOutput s
  | .use place => j.useOutput place
  | .print level format args => j.printf level format args
  | .leveled level format args => Journal.leveled level j format args
  | .error format args => j.errorf format args

/-- The message of a call that has one. -/
def message? : Call → Option Text
  | .output _ => none
  | .use _ => none
  | .print level format args => some (compose level (Format.message format args))
  | .leveled level format args => some (compose level (Format.message format args))
  | .error format args => some (compose (Text.ofString "ERROR") (Format.message format args))

def isError : Call → Bool
  | .error _ _ => true
  | _ => false

/-- Counts an error. -/
def mark (c : Call) (j : Journal) : Journal :=
  { j with exitCode := if c.isError ∧ j.exitCode = 0 then 1 else j.exitCode }

end Call

/-- The journal after a history of calls. -/
def run (calls : List Call) : Journal := calls.foldl Call.apply {}

theorem run_concat (calls : List Call) (c : Call) : run (calls ++ [c]) = c.apply (run calls) := by
  simp [run]

/-- What becomes of the outputs in a call, and which of them is in use after it: the one in use gets
the message of the call in one write, or nothing if there is no message, and the others stay as they
are. -/
inductive Delivers (j : Journal) : Call → List Sink → Option Nat → Prop
  | output (s : Sink) : Delivers j (.output s) (j.outputs ++ [s]) (some j.outputs.length)
  | use (place : Option Nat) : Delivers j (.use place) j.outputs place
  | unheard {c : Call} {m : Text} : c.message? = some m → j.inUse = none →
      Delivers j c j.outputs j.current
  | empty {c : Call} : c.message? = some [] → Delivers j c j.outputs j.current
  | message {c : Call} {m : Text} {k : Nat} {s : Sink} : c.message? = some m → m ≠ [] →
      j.current = some k → j.outputs[k]? = some s →
      Delivers j c (j.outputs.set k (s.write m).1) j.current

/-- A message of the call is refused by the output in use. -/
def Fails (j : Journal) (c : Call) : Prop := ∃ m, c.message? = some m ∧ j.Refuses m

/-- In the course of the calls, some message was refused. -/
def Failed (calls : List Call) : Prop :=
  ∃ past c later, calls = past ++ c :: later ∧ (run past).Fails c

section Step

variable {j : Journal} {c : Call} {m : Text}

/-- Either nothing happens, or the output in use takes part in one write. -/
theorem hand_cases (j : Journal) (m : Text) :
    (j.hand m = j ∧ (m = [] ∨ j.inUse = none))
      ∨ ∃ k s, m ≠ [] ∧ j.inUse = some s ∧ j.current = some k ∧ j.outputs[k]? = some s
        ∧ j.hand m = { j with
          outputs := j.outputs.set k (s.write m).1
          exitCode := if (s.write m).2 = ⟨m.length, none⟩ then j.exitCode else 2 } := by
  rcases hs : j.inUse with _ | s
  · exact .inl ⟨by simp [hand, hs], .inr rfl⟩
  · obtain ⟨k, hk, hget⟩ := current_of_inUse hs
    by_cases hm : m = []
    · exact .inl ⟨by simp [hand, hs, hk, hm], .inl hm⟩
    · exact .inr ⟨k, s, hm, rfl, hk, hget, by simp [hand, hs, hk, hm]⟩

open Classical in
theorem hand_exitCode (j : Journal) (m : Text) :
    (j.hand m).exitCode = if j.Refuses m then 2 else j.exitCode := by
  obtain ⟨h, hnone⟩ | ⟨k, s, hne, hs, -, -, h⟩ := hand_cases j m <;> rw [h]
  · rw [if_neg]
    rintro ⟨hne, s, hs, -⟩
    simp_all
  · have hrefuses : j.Refuses m ↔ ¬ (s.write m).2 = ⟨m.length, none⟩ := by
      simp [Refuses, hne, hs]
    rw [ite_congr (propext hrefuses) (fun _ => rfl) (fun _ => rfl), ite_not]

/-- A call with a message counts itself if it is an error, and hands its message over. -/
theorem apply_eq (h : j.buffer = []) (hm : c.message? = some m) :
    c.apply j = (c.mark j).hand m := by
  cases c with
  | output s => cases hm
  | use place => cases hm
  | print level format args =>
    obtain rfl := Option.some.inj hm
    exact print_eq h _ _
  | leveled level format args =>
    obtain rfl := Option.some.inj hm
    exact print_eq h _ _
  | error format args =>
    obtain rfl := Option.some.inj hm
    rw [Call.apply, errorf, error, print_eq (by exact h), Call.mark]
    simp [Call.isError]

theorem output_or_use (hm : c.message? = none) :
    (∃ s, c = .output s) ∨ ∃ place, c = .use place := by
  cases c with
  | output s => exact .inl ⟨s, rfl⟩
  | use place => exact .inr ⟨place, rfl⟩
  | _ => cases hm

theorem apply_buffer (h : j.buffer = []) (c : Call) : (c.apply j).buffer = [] := by
  rcases hm : c.message? with _ | m
  · obtain ⟨s, rfl⟩ | ⟨place, rfl⟩ := output_or_use hm <;> exact h
  · rw [apply_eq h hm]
    obtain ⟨hhand, -⟩ | ⟨k, s, -, -, -, -, hhand⟩ := hand_cases (c.mark j) m <;> rw [hhand] <;>
      exact h

/-- A call makes at most one write, of its own message, to the output in use. -/
theorem apply_delivers (h : j.buffer = []) (c : Call) :
    j.Delivers c (c.apply j).outputs (c.apply j).current := by
  rcases hm : c.message? with _ | m
  · obtain ⟨s, rfl⟩ | ⟨place, rfl⟩ := output_or_use hm
    · exact .output s
    · exact .use place
  · rw [apply_eq h hm]
    obtain ⟨hhand, hnone⟩ | ⟨k, s, hne, -, hk, hget, hhand⟩ := hand_cases (c.mark j) m <;>
      rw [hhand]
    · obtain rfl | hnone := hnone
      · exact .empty hm
      · exact .unheard hm hnone
    · exact .message hm hne hk hget

open Classical in
theorem apply_exitCode (h : j.buffer = []) (c : Call) :
    (c.apply j).exitCode
      = if j.Fails c then 2 else if c.isError ∧ j.exitCode = 0 then 1 else j.exitCode := by
  rcases hm : c.message? with _ | m
  · have hfails : ¬ j.Fails c := by simp [Fails, hm]
    rw [if_neg hfails]
    obtain ⟨s, rfl⟩ | ⟨place, rfl⟩ := output_or_use hm <;> rfl
  · have hfails : j.Fails c ↔ (c.mark j).Refuses m := by
      rw [Fails, hm]
      exact ⟨fun ⟨_, heq, hr⟩ => Option.some.inj heq ▸ hr, fun hr => ⟨m, rfl, hr⟩⟩
    rw [apply_eq h hm, hand_exitCode, ite_congr (propext hfails) (fun _ => rfl) (fun _ => rfl)]
    rfl

end Step

section Run

theorem run_buffer (calls : List Call) : (run calls).buffer = [] :=
  List.foldlRecOn (motive := fun j : Journal => j.buffer = []) calls Call.apply rfl
    fun _ h c _ => apply_buffer h c

theorem failed_concat {calls : List Call} {c : Call} :
    Failed (calls ++ [c]) ↔ Failed calls ∨ (run calls).Fails c := by
  constructor
  · rintro ⟨past, c', later, heq, hfails⟩
    rcases List.eq_nil_or_concat' later with rfl | ⟨later, last, rfl⟩
    · obtain ⟨rfl, hc⟩ := List.append_inj' heq rfl
      exact .inr (List.singleton_inj.1 hc ▸ hfails)
    · rw [← List.cons_append, ← List.append_assoc] at heq
      exact .inl ⟨past, c', later, (List.append_inj' heq rfl).1, hfails⟩
  · rintro (⟨past, c', later, rfl, hfails⟩ | hfails)
    · exact ⟨past, c', later ++ [c], by simp, hfails⟩
    · exact ⟨calls, c, [], rfl, hfails⟩

open Classical in
/-- The code tells whether a message was refused, and if not, whether there was an error. -/
theorem exitCode_run (calls : List Call) :
    (run calls).exitCode
      = if Failed calls then 2 else if ∃ c ∈ calls, c.isError then 1 else 0 := by
  induction calls using List.reverseRecOn with
  | nil =>
    have hnone : ¬ Failed [] := by simp [Failed]
    simp [run, hnone]
  | append_singleton calls c ih =>
    rw [run_concat, apply_exitCode (run_buffer calls), ih]
    simp only [failed_concat, List.mem_append, List.mem_singleton, or_and_right, exists_or,
      exists_eq_left]
    by_cases hfails : (run calls).Fails c <;> by_cases hfailed : Failed calls <;>
      by_cases herror : ∃ c ∈ calls, c.isError <;> by_cases hc : c.isError <;>
      simp [hfails, hfailed, herror, hc]

theorem exitCode_mono (calls more : List Call) :
    (run calls).exitCode ≤ (run (calls ++ more)).exitCode := by
  induction more using List.reverseRecOn with
  | nil => simp
  | append_singleton more c ih =>
    classical
    have hle : (run (calls ++ more)).exitCode ≤ 2 := by
      rw [exitCode_run]
      split_ifs <;> omega
    rw [← List.append_assoc, run_concat, apply_exitCode (run_buffer _)]
    split_ifs <;> omega

end Run

/-- Over any history of calls, the exit code tells what happened and never goes down, every call
makes at most one write of its own message, and nothing stays in the buffer, so that no byte of a
message that was refused comes into a later one. -/
theorem history_told (calls : List Call) :
    let j := run calls
    (j.exitCode = 2 ↔ Failed calls)
      ∧ (j.exitCode = 1 ↔ ¬ Failed calls ∧ ∃ c ∈ calls, c.isError)
      ∧ (j.exitCode = 0 ↔ ¬ Failed calls ∧ ¬ ∃ c ∈ calls, c.isError)
      ∧ (∀ more, j.exitCode ≤ (run (calls ++ more)).exitCode)
      ∧ (∀ c, j.Delivers c (run (calls ++ [c])).outputs (run (calls ++ [c])).current)
      ∧ j.buffer = [] := by
  intro j
  classical
  have hcode : j.exitCode = if Failed calls then 2 else if ∃ c ∈ calls, c.isError then 1 else 0 :=
    exitCode_run calls
  refine ⟨?_, ?_, ?_, exitCode_mono calls, fun c => ?_, run_buffer calls⟩
  · rw [hcode]
    split_ifs <;> simp_all
  · rw [hcode]
    split_ifs <;> simp_all
  · rw [hcode]
    split_ifs <;> simp_all
  · rw [run_concat]
    exact apply_delivers (run_buffer calls) c

example :
    let s : Sink := { kind := .plain, turns := [{ most := some 2 }] }
    let j := run [.output s, .error (Text.ofString "a") [], .print [] (Text.ofString "b") []]
    j.exitCode = 2 ∧ j.outputs.map Sink.data = [Text.ofString "ERb\n"] := by
  decide

end LineForth.Journal
