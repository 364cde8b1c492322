import LineForth.Language.Dump
import LineForth.Proofs.Alike
import LineForth.Proofs.Settings

/-!
# Tracing is not seen

Two sessions are alike if they differ in their traces only.  Whatever the host does with alike
sessions, it gets the same back from both and leaves them alike (`Alike.operate`): what only writes
never looks at the interpreter, and what runs a line looks at everything in it but the trace.

A setting that says who is given the trace gives a session that is alike to the one without it, so
sessions whose other settings are the same show the host the same all along (`tracing_unseen`).
-/

namespace LineForth

namespace Interpreter

variable {i j : Interpreter}

theorem Alike.install (h : i.Alike j) (name : Text) (meaning : Meaning) :
    (i.install name meaning).Alike (j.install name meaning) :=
  ⟨h.stack, by simp only [Interpreter.install, h.dict], h.mode⟩

theorem Alike.boot (h : i.Alike j) : i.boot.Alike j.boot := by
  unfold Interpreter.boot
  have hnative := List.foldl_rel (r := Alike) (l := primitives) h
    fun w _ _ _ hw => hw.install (Text.ofString w.1) (.native w.2)
  have hmarker := List.foldl_rel (r := Alike) (l := markers) hnative
    fun w _ _ _ hw => hw.install (Text.ofString w.1) (.marker w.2)
  have hsource := List.foldl_rel (r := Alike) (l := sources) hmarker
    fun s _ _ _ hs => (hs.readLine (Text.ofString s)).1
  exact hsource.install _ _

theorem Alike.dump (h : i.Alike j) : i.dump = j.dump := by
  unfold Interpreter.dump
  rw [h.stack, h.dict, h.current]

end Interpreter

/-- Whether a setting says who is given the trace. -/
def Setting.isTrace : Setting → Bool
  | .trace _ => true
  | _ => false

namespace Session

/-- Sessions that differ in what was traced only. -/
structure Alike (s t : Session) : Prop where
  core : s.core.Alike t.core
  rest : s = { t with core := s.core }

/-- Two operations that give the same and leave alike sessions. -/
def AlikeResults {α : Type} (r r' : Session × α) : Prop := r.1.Alike r'.1 ∧ r.2 = r'.2

section Operations

/-- What the host can do with a session. -/
inductive Operation
  | line (text : Text)
  | interpret (halt : Option Problem)
  | next
  | respond (line response : Text)
  | close
  | dump
  | install (name : Text) (w : HostWord)

/-- What the host gets back. -/
inductive Answer
  | reply (r : Reply)
  | line (r : Except Problem Text)
  | problem (p : Option Problem)
  | text (t : Text)
  | nothing

def operate (s : Session) : Operation → Session × Answer
  | .line text => ((s.readLine text).1, .reply (s.readLine text).2)
  | .interpret halt => ((s.interpret halt).1, .problem (s.interpret halt).2)
  | .next => (s.fetch.1, .line s.fetch.2)
  | .respond line response =>
    ((s.respond line response).1, .problem (s.respond line response).2)
  | .close => (s.close.1, .problem s.close.2)
  | .dump => (s, .text s.core.dump)
  | .install name w => ({ s with core := s.core.install name (.host w) }, .nothing)

/-- What the host can look at between operations. -/
structure View where
  stack : Stack
  inDefinition : Bool
  dict : Dictionary
  last : Location
  sinks : List Sink
  closeCounts : List Nat
  dump : Text

def view (s : Session) : View where
  stack := s.core.stack
  inDefinition := s.core.inDefinition
  dict := s.core.dict
  last := s.input.last
  sinks := s.outlets.map Outlet.sink
  closeCounts := s.closeCounts
  dump := s.core.dump

/-- What each operation in turn gives back, and what can be looked at after it. -/
def observe : Session → List Operation → List (Answer × View)
  | _, [] => []
  | s, op :: ops => ((s.operate op).2, (s.operate op).1.view) :: observe (s.operate op).1 ops

end Operations

section Alike

variable {s t : Session}

theorem AlikeResults.split {α : Type} {r r' : Session × α} (h : AlikeResults r r') :
    ∃ s t a, r = (s, a) ∧ r' = (t, a) ∧ s.Alike t :=
  ⟨r.1, r'.1, r.2, rfl, by rw [h.2], h.1⟩

theorem AlikeResults.map {α β : Type} {r r' : Session × α} (h : AlikeResults r r') (f : α → β) :
    AlikeResults (r.1, f r.2) (r'.1, f r'.2) := ⟨h.1, congrArg f h.2⟩

theorem alike_withCore (t : Session) {c : Interpreter} (h : c.Alike t.core) :
    Alike { t with core := c } t := ⟨h, rfl⟩

theorem Alike.flush (h : s.Alike t) : AlikeResults s.flush t.flush := by
  rw [h.rest]
  exact ⟨alike_withCore t.flush.1 h.core, rfl⟩

theorem Alike.fetch (h : s.Alike t) : AlikeResults s.fetch t.fetch := by
  have hcore := h.core
  rw [h.rest]
  unfold Session.fetch
  rcases t.source with _ | source
  · rcases t.input.readLine with ⟨input, p | l⟩
    · exact ⟨⟨hcore, rfl⟩, rfl⟩
    · exact ⟨⟨((Interpreter.alike_event _ _).trans hcore).trans
        (Interpreter.alike_event _ _).symm, rfl⟩, rfl⟩
  · exact ⟨⟨hcore, rfl⟩, rfl⟩

theorem Alike.readLine (h : s.Alike t) (line : Text) :
    AlikeResults (s.readLine line) (t.readLine line) := by
  obtain ⟨hcore, hreply⟩ := h.core.readLine line
  rw [h.rest]
  exact ⟨⟨hcore, rfl⟩, hreply⟩

theorem Alike.respond (h : s.Alike t) (line response : Text) :
    AlikeResults (s.respond line response) (t.respond line response) := by
  have hcore := h.core
  rw [h.rest]
  unfold Session.respond
  rcases record t.echo line response with _ | text
  · exact ⟨⟨hcore, rfl⟩, rfl⟩
  · simp only []
    rcases Ansi.write t.out t.outlets text with ⟨os, n, _ | p⟩
    · exact (alike_withCore { t with outlets := os } hcore).flush
    · exact ⟨⟨hcore, rfl⟩, rfl⟩

theorem Alike.exchange (h : s.Alike t) : AlikeResults s.exchange t.exchange := by
  obtain ⟨s₁, t₁, r, hs, ht, h₁⟩ := h.fetch.split
  unfold Session.exchange
  rw [hs, ht]
  rcases r with p | line
  · exact ⟨h₁, rfl⟩
  · obtain ⟨s₂, t₂, r, hs, ht, h₂⟩ := (h₁.readLine line).split
    simp only [hs, ht]
    rcases r with response | f <;> exact ⟨h₂, rfl⟩

/-- The rounds of alike sessions go alike, as many as there are. -/
theorem Alike.run (halt : Option Problem) : ∀ (fuel : Nat) {s t : Session}, s.Alike t →
    AlikeResults (s.run halt fuel) (t.run halt fuel)
  | 0, _, _, h => ⟨h, rfl⟩
  | fuel + 1, s, t, h => by
    unfold Session.run
    rcases halt with _ | p
    · obtain ⟨s₁, t₁, r, hs, ht, h₁⟩ := h.exchange.split
      simp only [hs, ht]
      rcases r with stop | ⟨line, response⟩
      · exact ⟨h₁, rfl⟩
      · obtain ⟨s₂, t₂, p, hs, ht, h₂⟩ := (h₁.respond line response).split
        simp only [hs, ht]
        rcases p with _ | p
        · exact Alike.run none fuel h₂
        · exact ⟨h₂, rfl⟩
    · exact ⟨h, rfl⟩

theorem Alike.remaining (h : s.Alike t) : s.remaining = t.remaining := by
  rw [h.rest]
  rfl

theorem Alike.interpret (h : s.Alike t) (halt : Option Problem) :
    AlikeResults (s.interpret halt) (t.interpret halt) := by
  obtain ⟨s₁, t₁, stop, hs, ht, h₁⟩ := (Alike.run halt (t.remaining + 1) h).split
  obtain ⟨s₂, t₂, p, hs', ht', h₂⟩ := h₁.flush.split
  have hlast : s₂.input = t₂.input := by rw [h₂.rest]
  unfold Session.interpret
  simp only [h.remaining, hs, ht, hs', ht', hlast]
  exact ⟨h₂, rfl⟩

theorem Alike.close (h : s.Alike t) : AlikeResults s.close t.close := by
  rw [h.rest]
  exact ⟨alike_withCore t.close.1 h.core, rfl⟩

theorem Alike.operate (h : s.Alike t) (op : Operation) :
    AlikeResults (s.operate op) (t.operate op) := by
  cases op with
  | line text => exact (h.readLine text).map Answer.reply
  | interpret halt => exact (h.interpret halt).map Answer.problem
  | next => exact h.fetch.map Answer.line
  | respond line response => exact (h.respond line response).map Answer.problem
  | close => exact h.close.map Answer.problem
  | dump => exact ⟨h, congrArg Answer.text h.core.dump⟩
  | install name w =>
    refine ⟨⟨h.core.install name (.host w), ?_⟩, rfl⟩
    rw [h.rest]
    rfl

theorem Alike.view (h : s.Alike t) : s.view = t.view := by
  have hcounts : s.closeCounts = t.closeCounts := by
    rw [h.rest]
    rfl
  have hinput : s.input = t.input := by rw [h.rest]
  have houtlets : s.outlets = t.outlets := by rw [h.rest]
  unfold Session.view
  rw [h.core.stack, h.core.inDefinition, h.core.dict, hinput, houtlets, hcounts, h.core.dump]

theorem Alike.observe : ∀ (ops : List Operation) {s t : Session}, s.Alike t →
    s.observe ops = t.observe ops
  | [], _, _, _ => rfl
  | op :: ops, s, t, h => by
    obtain ⟨hs, ha⟩ := h.operate op
    rw [Session.observe, Session.observe, ha, hs.view, Alike.observe ops hs]

end Alike

section Settings

variable {s t : Session}

theorem Alike.apply (h : s.Alike t) (setting : Setting) :
    (s.apply setting).Alike (t.apply setting) := by
  have hcore := h.core
  have hstack := h.core.stack
  rw [h.rest]
  cases setting with
  | input stream => exact ⟨hcore, rfl⟩
  | lines source =>
    unfold Session.apply Session.addSource
    simp only []
    split_ifs <;> exact ⟨hcore, rfl⟩
  | output sink => exact alike_withCore (t.apply (.output sink)) hcore
  | tee sink => exact alike_withCore (t.apply (.tee sink)) hcore
  | echo value => exact ⟨hcore, rfl⟩
  | trace => exact ⟨⟨hcore.stack, hcore.dict, hcore.mode⟩, rfl⟩
  | stack cells =>
    refine ⟨⟨?_, hcore.dict, hcore.mode⟩, rfl⟩
    show s.core.stack.pushAll cells = t.core.stack.pushAll cells
    rw [hstack]

theorem apply_trace (s : Session) (listener : Option Nat) :
    (s.apply (.trace listener)).Alike s := ⟨⟨rfl, rfl, rfl⟩, rfl⟩

theorem Alike.symm (h : s.Alike t) : t.Alike s := by
  refine ⟨h.core.symm, ?_⟩
  rw [h.rest]

theorem Alike.trans {u : Session} (h : s.Alike t) (h' : t.Alike u) : s.Alike u := by
  refine ⟨h.core.trans h'.core, ?_⟩
  rw [h.rest, h'.rest]

/-- Leaving out the settings of the trace gives an alike session. -/
theorem Alike.applyAll : ∀ (settings : List Setting) {s t : Session}, s.Alike t →
    (s.applyAll settings).Alike (t.applyAll (settings.filter (¬ ·.isTrace)))
  | [], _, _, h => h
  | x :: xs, s, t, h => by
    rcases hx : x.isTrace
    · rw [List.filter_cons_of_pos (by simpa using hx)]
      exact Alike.applyAll xs (h.apply x)
    · rw [List.filter_cons_of_neg (by simpa using hx)]
      cases x with
      | trace listener => exact Alike.applyAll xs ((apply_trace s listener).trans h)
      | _ => cases hx

theorem new_alike {trees traced : List SettingTree} (listing : Stack → Text)
    (h : (SettingTree.leavesOf traced).filter (¬ ·.isTrace)
      = (SettingTree.leavesOf trees).filter (¬ ·.isTrace)) :
    (Session.new traced listing).Alike (Session.new trees listing) := by
  have hsame : (blank listing).Alike (blank listing) := ⟨.refl _, rfl⟩
  have happlied : ((blank listing).applyAll (SettingTree.leavesOf traced)).Alike
      ((blank listing).applyAll (SettingTree.leavesOf trees)) := by
    have htraced := Alike.applyAll (SettingTree.leavesOf traced) hsame
    rw [h] at htraced
    exact htraced.trans (Alike.applyAll _ hsame).symm
  rw [new_eq, new_eq]
  refine ⟨happlied.core.boot, ?_⟩
  rw [happlied.rest]

end Settings

/-- Sessions whose settings differ in the trace only, in who is given it, in how often and where
this is said or in whether it is said at all, show the host the same, after any operations. -/
theorem tracing_unseen {trees traced : List SettingTree} (listing : Stack → Text)
    (h : (SettingTree.leavesOf traced).filter (¬ ·.isTrace)
      = (SettingTree.leavesOf trees).filter (¬ ·.isTrace))
    (ops : List Operation) :
    (Session.new traced listing).view = (Session.new trees listing).view
      ∧ (Session.new traced listing).observe ops = (Session.new trees listing).observe ops :=
  ⟨(new_alike listing h).view, (new_alike listing h).observe ops⟩

/-- Nested words are traced up to a fault that ends the call; the trace is all that differs. -/
theorem tracing_unseen_fault :
    let stream : Stream :=
      { name := Text.ofString "a", lines := [": f 1 if ;", ": g 2 f ;", "g"].map Text.ofString }
    let settings : List SettingTree := [.one (.output { kind := .plain }), .one (.input stream)]
    let traced : List SettingTree :=
      [.one (.trace none), .group (.absent :: settings), .group [.one (.trace (some 1))]]
    let ops : List Operation := [.interpret none, .line (Text.ofString ". ."), .dump, .close]
    (Session.new traced).observe ops = (Session.new settings).observe ops
      ∧ ((Session.new settings).interpret none).2 = some (.located ⟨Text.ofString "a", 3⟩
        (.crashed (Text.ofString "forth")
          (.unbalanced (Text.ofString "f") (Text.ofString "end"))))
      ∧ ((Session.new traced).interpret none).1.core.trace.recorded ≠ [] := by
  intro stream settings traced ops
  have hleaves : (SettingTree.leavesOf traced).filter (¬ ·.isTrace)
      = (SettingTree.leavesOf settings).filter (¬ ·.isTrace) := by decide
  exact ⟨(tracing_unseen Stack.listing hleaves ops).2, by decide +kernel, by decide +kernel⟩

end Session

end LineForth
