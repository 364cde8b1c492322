import LineForth.Proofs.Modes
import LineForth.Proofs.Steady

/-!
# The transcript of a session that echoes

With echo on, a line is written together with its response as one record.  There is no record for a
line without anything to show: a line that is empty and whose response is empty, which is one that
leaves a definition open (`replies_nil`).  Apart from these, the sinks hold one record for each line
(`echo_transcript`).
-/

namespace LineForth

namespace Session

/-- What is written for a line and its response when lines are echoed. -/
def echoed (p : Text × Text) : Text :=
  if p.1 = [] ∧ p.2 = [] then [] else Ansi.form (p.1 ++ p.2) ++ [Text.newline]

theorem answered_echo (line response : Text) :
    answered true line response = echoed (line, response) := by
  simp [answered, echoed]

theorem echoed_eq_nil {line response : Text} :
    echoed (line, response) = [] ↔ line = [] ∧ response = [] := by
  rw [echoed]
  split_ifs with h
  · simpa using h
  · simpa using h

/-- The response to a line is empty exactly if the line leaves a definition open. -/
theorem replies_nil {line response : Text} :
    ∀ {lines responses : List Text} {i : Interpreter} {n : Nat},
      i.replies lines = responses.map .answer → lines[n]? = some line →
      responses[n]? = some response →
      (response = [] ↔ (i.readLines (lines.take (n + 1))).inDefinition)
  | [], _, _, _, _, hline, _ => by simp at hline
  | _ :: _, [], _, _, _, _, hresponse => by simp at hresponse
  | l :: lines, r :: responses, i, 0, h, hline, hresponse => by
    obtain rfl : l = line := by simpa using hline
    obtain rfl : r = response := by simpa using hresponse
    exact (i.readLine_effect l).answer_nil r (List.cons.inj h).1
  | l :: lines, r :: responses, i, n + 1, h, hline, hresponse => by
    have hlater := replies_nil (i := (i.readLine l).1) (List.cons.inj h).2
      (by simpa using hline) (by simpa using hresponse)
    rwa [List.take_succ_cons]

/-- After a call that echoes, the sinks hold a record for each line that was read, but none for an
empty line that leaves a definition open. -/
theorem echo_transcript (trees : List SettingTree) (listing : Stack → Text) (core : Interpreter)
    (hsteady : ∀ k ∈ named (SettingTree.leavesOf trees), k.Steady)
    (hecho : (new trees listing).echo = true) (lines responses : List Text)
    (rest : List (Except Problem Text))
    (hread : (new trees listing).deliveries = lines.map .ok ++ rest)
    (hrest : ∀ line, rest.head? ≠ some (.ok line))
    (hanswers : core.replies lines = responses.map .answer) :
    let s : Session := { new trees listing with core }
    (s.interpret none).1.reached.map (·.sink.data)
        = (inUse (SettingTree.leavesOf trees)).map
          (·.data ++ (lines.zip responses).flatMap echoed)
      ∧ ∀ (n : Nat) line response, lines[n]? = some line → responses[n]? = some response →
        (echoed (line, response) = []
          ↔ line = [] ∧ (core.readLines (lines.take (n + 1))).inDefinition) := by
  intro s
  have hideal : s.ideal = (lines.zip responses).flatMap echoed := by
    have hend : idealFrom true (core.readLines lines) rest = [] := by
      rcases rest with _ | ⟨_ | line, rest⟩
      · rfl
      · rfl
      · exact absurd rfl (hrest line)
    rw [ideal_withCore, hecho, hread, idealFrom_replies true rest lines responses core hanswers,
      hend, List.append_nil]
    simp only [answered_echo]
  obtain ⟨_, s', e, -, -, hcall, hdata⟩ := steady_writes listing core hsteady
  refine ⟨?_, fun n line response hline hresponse => ?_⟩
  · rw [hcall, hdata, hideal]
  · rw [echoed_eq_nil, replies_nil hanswers hline hresponse]

/-- A definition over two streams; the sink that was replaced and the one that keeps nothing are no
longer in use. -/
theorem echo_transcript_streams :
    let trees : List SettingTree :=
      [.one (.output { kind := .plain }),
        .group [.one (.echo true), .one (.output { kind := .flusher, turns := [{}] })],
        .one (.input { lines := [Text.ofString ": a", []] }), .one (.tee { kind := .discard }),
        .one (.input { lines := [Text.ofString "1 ;", [], Text.ofString "a b"] }),
        .one (.tee { kind := .string })]
    let lines := [Text.ofString ": a", [], Text.ofString "1 ;", [], Text.ofString "a b"]
    let responses := [[], [], Text.ofString "  ok", Text.ofString "  ok", Text.ofString " b ? "]
    (∀ k ∈ named (SettingTree.leavesOf trees), k.Steady) ∧ (new trees).echo = true
      ∧ (new trees).deliveries = lines.map .ok
      ∧ (new trees).core.replies lines = responses.map .answer
      ∧ inUse (SettingTree.leavesOf trees)
        = [{ kind := .flusher, turns := [{}] }, { kind := .string }]
      ∧ ((new trees).interpret none).1.reached.map (·.sink.data)
        = List.replicate 2 (Text.ofString ": a\n1 ;  ok\n  ok\na b b ? \n") := by
  intro trees lines responses
  have hsteady : ∀ k ∈ named (SettingTree.leavesOf trees), k.Steady := by decide
  have hecho : (new trees).echo = true := rfl
  have hread : (new trees).deliveries = lines.map .ok ++ [] := rfl
  have hanswers : (new trees).core.replies lines = responses.map .answer := by decide +kernel
  have huse : inUse (SettingTree.leavesOf trees)
      = [{ kind := .flusher, turns := [{}] }, { kind := .string }] := by decide
  obtain ⟨hdata, -⟩ := echo_transcript trees Stack.listing (new trees).core hsteady hecho lines
    responses [] hread (by simp) hanswers
  refine ⟨hsteady, hecho, hread, hanswers, huse, hdata.trans ?_⟩
  rw [huse]
  decide

/-- An empty line in a definition is read and answered like the others, but it has no record. -/
theorem blank_line_unrecorded :
    let lines := [Text.ofString ": a", [], Text.ofString "1 ;"]
    let responses := [[], [], Text.ofString "  ok"]
    let s := new [.one (.output { kind := .buffer }), .one (.echo true), .one (.input { lines })]
    s.core.replies lines = responses.map .answer
      ∧ (s.interpret none).1.reached.map (·.sink.data) = [Text.ofString ": a\n1 ;  ok\n"]
      ∧ ((lines.zip responses).flatMap fun p => Ansi.form (p.1 ++ p.2) ++ [Text.newline])
        = Text.ofString ": a\n\n1 ;  ok\n" := by
  refine ⟨?_, ?_, ?_⟩
  · decide +kernel
  · decide +kernel
  · decide

end Session

end LineForth
