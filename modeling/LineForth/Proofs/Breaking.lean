import LineForth.Proofs.Balance
import LineForth.Proofs.Binding
import LineForth.Proofs.Modes

/-!
# Words that break off

A word breaks off when it finds that its own markers do not balance, or when it is at a call of a
word that breaks off.  Calls lead downwards, so there is a row of running words, from the one that
was called first to the one whose markers are at fault (`Dictionary.BreaksOff`,
`breaksOff_of_run`), and its name is the one that is reported, as it was spelled in the lines that
defined it (`readLines_recorded`).

In a dictionary without words of the host every other way to end badly is a failure that the line
is answered with, so a line that breaks off does so in such a row (`fault_of_line`).
-/

namespace LineForth

section Stopping

variable {call : Calls} {name : Text} {m m' : Machine} {code : List Action}

/-- What stops a definition other than a fault of its own is one of its actions. -/
theorem stops_of_attempt {x : Exit} (h : attempt call name code m = (m', x))
    (hdone : ∀ out, x ≠ .done out) (hown : ∀ place, x ≠ .unbalanced place) :
    ∃ pre a post p, code = pre ++ a :: post ∧ Reaches call name m pre p
      ∧ p.step call name a = .error (m', x) := by
  unfold attempt Progress.attempt at h
  split at h
  · obtain ⟨-, hexit⟩ := Prod.mk.inj h
    split_ifs at hexit
    · exact absurd hexit.symm (hdone _)
    · exact absurd hexit.symm (hown _)
  · rename_i e he
    subst h
    exact Progress.advance_error code he

/-- What an action stops a definition with: a fault of the definition itself, the lack of a cell, or
how the word ends that it calls. -/
theorem Progress.step_error {p : Progress} {a : Action} {x : Exit}
    (h : p.step call name a = .error (m', x)) :
    (∃ place, x = .unbalanced place) ∨ x = .failed .stackUnderflow
      ∨ executing p.frames ∧ ∃ w k, a = .call w k
        ∧ ((∃ out f, x = .failed f
            ∧ call k (p.machine.event (.stepped name a)) = (m', .failed out f))
          ∨ ∃ word place, x = .called word place
            ∧ call k (p.machine.event (.stepped name a)) = (m', .broke word place)) := by
  rcases a with ⟨w, k⟩ | c | t | _ | _ | _
  · rw [step_plain call name rfl] at h
    split_ifs at h with hexec
    refine .inr (.inr ⟨hexec, w, k, rfl, ?_⟩)
    rcases hrun : call k (p.machine.event (.stepped name (.call w k)))
      with ⟨m₁, out | ⟨out, f⟩ | ⟨word, place⟩⟩ <;> simp only [Action.run, hrun] at h <;> cases h
    · exact .inl ⟨out, f, rfl, rfl⟩
    · exact .inr ⟨word, place, rfl, rfl⟩
  · rw [step_plain call name rfl] at h
    split_ifs at h
    cases h
  · rw [step_plain call name rfl] at h
    split_ifs at h
    cases h
  · rw [step] at h
    split_ifs at h
    rcases hpop : p.machine.stack.pop? with _ | ⟨c, s⟩ <;> rw [hpop] at h <;> cases h
    exact .inr (.inl rfl)
  · rcases hfs : p.frames with _ | ⟨f, fs⟩ <;> rw [step, hfs] at h <;> cases h
    exact .inl ⟨_, rfl⟩
  · rcases hfs : p.frames with _ | ⟨f, fs⟩ <;> rw [step, hfs] at h <;> cases h
    exact .inl ⟨_, rfl⟩

end Stopping

section Failing

namespace Primitive

theorem binary_recoverable {op : Cell → Cell → Except Failure (List Cell)}
    (hop : ∀ a b f, op a b = .error f → f.recoverable) (s : Stack) (f : Failure)
    (h : (binary op s).2 = .error f) : f.recoverable := by
  unfold binary at h
  split at h
  · cases h
    rfl
  · split at h
    · cases h
      rfl
    · split at h
      · cases h
      · rename_i hfail
        cases h
        exact hop _ _ _ hfail

theorem divide_recoverable (op : Cell → Cell → List Cell) (s : Stack) (f : Failure)
    (h : (divide op s).2 = .error f) : f.recoverable := by
  refine binary_recoverable (fun a b g hg => ?_) s f h
  split_ifs at hg
  cases hg
  rfl

theorem unary_recoverable {op : Cell → Except Failure Text}
    (hop : ∀ c f, op c = .error f → f.recoverable) (s : Stack) (f : Failure)
    (h : (unary op s).2 = .error f) : f.recoverable := by
  unfold unary at h
  split at h
  · cases h
    rfl
  · exact hop _ _ h

theorem rearrange_recoverable (op : List Cell → Option (List Cell)) (s : Stack) (f : Failure)
    (h : (rearrange op s).2 = .error f) : f.recoverable := by
  unfold rearrange at h
  split at h <;> cases h
  rfl

theorem run_recoverable : ∀ (p : Primitive) (s : Stack) (f : Failure), (p.run s).2 = .error f →
    f.recoverable
  | .dotS, _, _, h => by cases h
  | .dot, s, f, h | .emit, s, f, h => unary_recoverable (fun _ _ h => by cases h) s f h
  | .add, s, f, h | .mul, s, f, h | .eq, s, f, h | .lt, s, f, h | .gt, s, f, h =>
    binary_recoverable (fun _ _ _ h => by cases h) s f h
  | .div, s, f, h | .divMod, s, f, h | .mod, s, f, h => divide_recoverable _ s f h
  | .swap, s, f, h | .dup, s, f, h | .over, s, f, h | .rot, s, f, h | .drop, s, f, h =>
    rearrange_recoverable _ s f h
  | .spaces, s, f, h => by
    refine unary_recoverable (fun c g hg => ?_) s f h
    unfold spacesText at hg
    split_ifs at hg
    cases hg
    rfl

end Primitive

/-- None of the entries is a word of the host. -/
def Hostless (es : List Entry) : Prop := ∀ e ∈ es, ∀ w, e.meaning ≠ .host w

variable {call : Calls} {name : Text} {m m' : Machine} {code : List Action} {out : Text}
  {f : Failure}

theorem primitive_recoverable {p : Primitive} (h : m.primitive p = (m', .failed out f)) :
    f.recoverable := by
  unfold Machine.primitive at h
  split at h
  · cases h
  · rename_i hrun
    cases h
    exact p.run_recoverable m.stack f (by rw [hrun])

theorem runCompiled_recoverable
    (hcall : ∀ k m m' out f, call k m = (m', .failed out f) → f.recoverable)
    (h : runCompiled call name code m = (m', .failed out f)) : f.recoverable := by
  rw [runCompiled_attempt] at h
  unfold indented at h
  rcases ha : attempt call name code { m with trace := m.trace.indent indentation } with ⟨m₁, x⟩
  simp only [ha] at h
  obtain rfl : x = .failed f := by
    rcases x with _ | _ | _ | _ <;> cases h
    rfl
  obtain ⟨pre, a, post, p, -, -, hstep⟩ := stops_of_attempt ha (by simp) (by simp)
  rcases Progress.step_error hstep with ⟨_, hx⟩ | hx | ⟨-, w, k, -, hx⟩
  · cases hx
  · cases hx
    rfl
  · rcases hx with ⟨out, f, hx, hrun⟩ | ⟨_, _, hx, -⟩ <;> cases hx
    exact hcall _ _ _ _ _ hrun

/-- Without words of the host, every failure is one of the language. -/
theorem runAt_recoverable : ∀ (es : List Entry), Hostless es → ∀ k m m' out f,
    runAt es k m = (m', .failed out f) → f.recoverable
  | [], _, _, _, _, _, _, h => by cases h
  | e :: older, hes, k, m, m', out, f, h => by
    have holder := runAt_recoverable older fun e' he' => hes e' (List.mem_cons_of_mem _ he')
    rw [runAt] at h
    split_ifs at h
    · rcases hm : e.meaning with _ | p | w | ⟨name, code⟩ <;> rw [hm] at h
      · cases h
      · exact primitive_recoverable h
      · exact absurd hm (hes e List.mem_cons_self w)
      · exact runCompiled_recoverable holder h
    · exact holder k m m' out f h

end Failing

section Running

/-- The machine as a compiled word finds it when it starts. -/
def Machine.inside (m : Machine) : Machine := { m with trace := m.trace.indent indentation }

/-- The words that are running when one breaks off, the first to be called in front: each of them
stands at a call of the next one, and the last is `word`, which finds a marker out of place. -/
inductive Dictionary.BreaksOff (d : Dictionary) :
    Machine → List Entry → Text → Place → Prop
  | own {m : Machine} {e : Entry} {word : Text} {code : List Action} {p : Progress}
      {place : Place} : e ∈ d.entries → e.meaning = .compiled word code →
      Breaks d.run word m.inside code p place → BreaksOff d m [e] word place
  | called {m : Machine} {e e' : Entry} {name key word : Text} {pre post : List Action}
      {p : Progress} {running : List Entry} {place : Place} : e ∈ d.entries →
      e.meaning = .compiled name (pre ++ .call key e'.address :: post) →
      Reaches d.run name m.inside pre p → executing p.frames →
      BreaksOff d (p.machine.event (.stepped name (.call key e'.address))) (e' :: running) word
        place →
      BreaksOff d m (e :: e' :: running) word place

variable {d : Dictionary} {m m' : Machine} {e : Entry} {running : List Entry} {word : Text}
  {place : Place}

/-- The induction is on the address of the word, since calls go to older ones. -/
theorem breaksOff_of_run (hn : Numbered d.entries) (hb : Bound d d.entries) (he : e ∈ d.entries)
    (h : d.run e.address m = (m', .broke word place)) :
    ∃ running, d.BreaksOff m (e :: running) word place := by
  induction hk : e.address using Nat.strongRecOn generalizing e m m' with
  | ind k ih =>
    subst hk
    have hrun : d.run e.address m = e.meaning.run d.run m := runAt_entry hn hb he m
    rw [hrun] at h
    rcases hm : e.meaning with _ | p | w | ⟨name, code⟩ <;> rw [hm] at h
    · cases h
    · simp only [Meaning.run, Machine.primitive] at h
      split at h <;> cases h
    · simp only [Meaning.run, Machine.host] at h
      split at h <;> cases h
    · rw [Meaning.run, runCompiled_attempt] at h
      unfold indented at h
      rcases ha : attempt d.run name code m.inside with ⟨m₁, x⟩
      rw [Machine.inside] at ha
      simp only [ha] at h
      rcases x with _ | _ | ⟨word', place'⟩ | place' <;> cases h
      · obtain ⟨pre, a, post, p, rfl, hreach, hstep⟩ := stops_of_attempt ha (by simp) (by simp)
        rcases Progress.step_error hstep with ⟨_, hx⟩ | hx | ⟨hexec, key, k, rfl, hx⟩
        · cases hx
        · cases hx
        · rcases hx with ⟨_, _, hx, -⟩ | ⟨_, _, hx, hcall⟩ <;> cases hx
          obtain ⟨e', hlatest, rfl, -⟩ := latest_of_call hn hb he (by rw [hm]; rfl)
            (List.mem_append_right pre List.mem_cons_self)
          obtain ⟨running, hbreaks⟩ := ih _ hlatest.older hlatest.mem hcall rfl
          exact ⟨e' :: running, .called he hm hreach hexec hbreaks⟩
      · obtain ⟨p, -, hbreaks⟩ := breaks_of_attempt ha
        exact ⟨[], .own he hm hbreaks⟩

/-- The last of the running words is the one whose markers do not balance. -/
theorem Dictionary.BreaksOff.innermost (h : d.BreaksOff m running word place) :
    ∃ e ∈ d.entries, running.getLast? = some e
      ∧ ∃ code, e.meaning = .compiled word code ∧ imbalance 0 code = some place := by
  induction h with
  | @own m e word code p place he hm hbreaks =>
    have htells : (attempt d.run word code m.inside).2.Tells (imbalance 0 code) :=
      Progress.attempt_tells code { machine := m.inside }
    rw [hbreaks.attempt] at htells
    exact ⟨e, he, rfl, code, hm, htells⟩
  | called _ _ _ _ _ ih =>
    rwa [List.getLast?_cons_cons]

end Running

namespace Interpreter

section Lines

variable {i : Interpreter} {line : Text} {s : Stack} {d : Dictionary} {mode : Mode}

theorem hostless_add (hd : Hostless d.entries) (name : Text) {meaning : Meaning}
    (hmeaning : ∀ w, meaning ≠ .host w) : Hostless (d.add name meaning).entries := by
  intro e he
  rw [Dictionary.add_entries] at he
  rcases List.mem_cons.1 he with rfl | he
  · exact hmeaning
  · exact hd e he

theorem Effect.hostless {gs : List Glyph} {reply : Reply} (hi : Hostless i.dict.entries)
    (he : i.Effect gs s d mode reply) : Hostless d.entries := by
  cases he with
  | compiled => exact hostless_add hi _ (by simp)
  | nameless | rejected | continued | ran | noDraft | noDraftFailed => exact hi

/-- Lines define no words of the host. -/
theorem Reachable.hostless (h : i.Reachable) : Hostless i.dict.entries := by
  refine reachable_induction (P := fun i => Hostless i.dict.entries) (fun i hi => ?_)
    (fun i name p _ hi => hostless_add hi name (by simp))
    (fun i name k _ _ hi => hostless_add hi name (by simp))
    (fun i line hi => (readLine_effect i line).hostless hi) h
  rw [hi.1]
  exact fun e he => absurd he List.not_mem_nil

/-- A token of the line, after those in front of it have run, calls the first of the running words,
and these break off. -/
def BreaksIn (i : Interpreter) (line : Text) (running : List Entry) (word : Text)
    (place : Place) : Prop :=
  ∃ ran t rest m₀ m out, m₀.stack = i.stack
    ∧ (Token.scan (Text.glyphs line)).tokens = ran ++ t :: rest
    ∧ runTokens i.dict ran m₀ = (m, .done out)
    ∧ t.quoted = false ∧ i.dict.lookup t.text = running.head?
    ∧ i.dict.BreaksOff m running word place

theorem BreaksIn.innermost {running : List Entry} {word : Text} {place : Place}
    (h : i.BreaksIn line running word place) :
    ∃ e ∈ i.dict.entries, running.getLast? = some e
      ∧ ∃ code, e.meaning = .compiled word code ∧ imbalance 0 code = some place := by
  obtain ⟨_, _, _, _, _, _, -, -, -, -, -, hoff⟩ := h
  exact hoff.innermost

/-- A token that does not end well is not accepted, or ends as the word does that it stands for. -/
theorem execute_ends {t : Token} {m m' : Machine} {o : Outcome} (h : execute d t m = (m', o))
    (ho : ∀ u, o ≠ .done u) : (∃ f, o = .failed [] f ∧ f.recoverable)
      ∨ t.quoted = false ∧ ∃ e, d.lookup t.text = some e ∧ d.run e.address m = (m', o) := by
  unfold execute at h
  rcases hq : t.quoted
  · rw [if_neg (by simp [hq])] at h
    rcases he : d.lookup t.text with _ | e <;> simp only [he] at h
    · rcases hc : Cell.ofText? t.text with _ | c <;> simp only [hc] at h
      · split_ifs at h <;> cases h
        · exact absurd rfl (ho _)
        · exact .inl ⟨_, rfl, rfl⟩
      · cases h
        exact absurd rfl (ho _)
    · rcases hm : e.meaning.marker? with _ | k <;> simp only [hm] at h
      · exact .inr ⟨rfl, e, rfl, h⟩
      · cases h
        exact .inl ⟨_, rfl, rfl⟩
  · rw [if_pos hq] at h
    cases h
    exact absurd rfl (ho _)

theorem ofOutcome_fault {o : Outcome} {cut : Option Failure} {f : Fault}
    (hcut : ∀ g ∈ cut, g.recoverable) (ho : ∀ out g, o = .failed out g → g.recoverable)
    (h : Reply.ofOutcome o cut = .fault f) :
    ∃ word place, o = .broke word place ∧ f = .unbalanced word place := by
  rcases o with out | ⟨out, g⟩ | ⟨word, place⟩
  · rcases cut with _ | g
    · cases h
    · rw [Reply.ofOutcome, fail_recoverable (hcut g rfl)] at h
      cases h
  · rw [Reply.ofOutcome, fail_recoverable (ho out g rfl)] at h
    cases h
  · cases h
    exact ⟨word, place, rfl, rfl⟩

theorem Effect.of_fault {gs : List Glyph} {f : Fault} (hi : i.toMode.Coherent)
    (he : i.Effect gs s d mode (.fault f)) :
    Token.opensDefinition gs = false ∧ i.inDefinition = false := by
  generalize hreply : Reply.fault f = reply at he
  cases he with
  | nameless | rejected | continued | compiled | noDraftFailed => cases hreply
  | ran ho hout => exact ⟨ho, hout⟩
  | noDraft _ hin hnone => exact absurd hnone (hi.not_missing hin)

/-- A line that ends with a fault changes neither dictionary nor mode, and breaks off in one of the
words that it runs. -/
theorem Effect.breaksIn (hi : i.Sound) (hhost : Hostless i.dict.entries) {f : Fault}
    (he : i.Effect (Text.glyphs line) s d mode (.fault f)) :
    d = i.dict ∧ mode = i.toMode
      ∧ ∃ word place running, f = .unbalanced word place ∧ i.BreaksIn line running word place := by
  obtain ⟨ho, hout⟩ := he.of_fault hi.coherent
  obtain ⟨hdict, hmode, m₀, ran, left, m, out, hm, hts, hran, hend⟩ := he.immediateLine ho hout
  refine ⟨hdict, hmode, ?_⟩
  rcases hend with ⟨-, -, hreply⟩ | ⟨t, rest, rfl, hbad, -, hreply⟩
  · have hcut : ∀ g ∈ (Token.scan (Text.glyphs line)).failure, g.recoverable := by
      intro g hg
      rw [Token.scan_failure hg]
      rfl
    obtain ⟨word, place, hdone, -⟩ := ofOutcome_fault hcut (by simp) hreply.symm
    cases hdone
  · rcases hx : execute i.dict t m with ⟨m', o⟩
    rw [hx] at hbad hreply
    have hfailed : ∀ u g, o = .failed u g → g.recoverable := by
      intro u g hg
      rcases execute_ends hx hbad with ⟨f', hf', hrec⟩ | ⟨-, e, -, hrun⟩
      · obtain ⟨-, rfl⟩ := Outcome.failed.inj (hg.symm.trans hf')
        exact hrec
      · rw [hg] at hrun
        exact runAt_recoverable _ hhost _ _ _ _ _ hrun
    obtain ⟨word, place, rfl, rfl⟩ := ofOutcome_fault (by simp) hfailed hreply.symm
    rcases execute_ends hx hbad with ⟨_, hf', -⟩ | ⟨hquoted, e, hlookup, hrun⟩
    · cases hf'
    · have hmem : e ∈ i.dict.entries := by
        rw [Dictionary.lookup_eq_find hi.wellFormed] at hlookup
        exact List.mem_of_find?_eq_some hlookup
      obtain ⟨running, hbreaks⟩ :=
        breaksOff_of_run hi.wellFormed.numbered hi.bound hmem hrun
      exact ⟨word, place, e :: running, rfl, ran, t, rest, m₀, m, out, hm, hts, hran, hquoted,
        hlookup, hbreaks⟩

end Lines

section Recorded

/-- Every compiled word is one that some of the lines define. -/
def Recorded (history : List Text) (i : Interpreter) : Prop :=
  ∀ e ∈ i.dict.entries, ∀ name code, e.meaning = .compiled name code →
    ∃ written later d, history = written ++ later ∧ Written d written name code

variable {i i' : Interpreter} {history : List Text}

theorem Recorded.concat (h : Recorded history i) (line : Text) :
    Recorded (history ++ [line]) i := by
  intro e he name code hm
  obtain ⟨written, later, d, rfl, hw⟩ := h e he name code hm
  exact ⟨written, later ++ [line], d, by simp, hw⟩

theorem Recorded.install (h : Recorded history i) (name : Text) {meaning : Meaning}
    (hmeaning : meaning.code? = none) : Recorded history (i.install name meaning) := by
  intro e he word code hm
  rw [show (i.install name meaning).dict = i.dict.add name meaning from rfl,
    Dictionary.add_entries] at he
  rcases List.mem_cons.1 he with rfl | he
  · rw [show meaning = .compiled word code from hm] at hmeaning
    cases hmeaning
  · exact h e he word code hm

theorem Recorded.of_effect {line : Text} {s : Stack} {d : Dictionary} {mode : Mode}
    {reply : Reply} (h : Recorded history i) (hd : Drafted history i)
    (he : i.Effect (Text.glyphs line) s d mode reply) (hdict : i'.dict = d) :
    Recorded (history ++ [line]) i' := by
  have hkept := h.concat line
  unfold Recorded at hkept ⊢
  rw [hdict]
  cases he with
  | nameless | rejected | continued | ran | noDraft | noDraftFailed => exact hkept
  | compiled hdef hf _ hname hcode =>
    intro e he name code hm
    rw [Draft.compile, Dictionary.add_entries] at he
    rcases List.mem_cons.1 he with rfl | he
    · obtain ⟨rfl, rfl⟩ := Meaning.compiled.inj hm
      exact ⟨history ++ [line], [], i.dict, by simp, hd.defines hdef hf hname hcode⟩
    · exact hkept e he name code hm

theorem Recorded.readLines : ∀ (lines : List Text) {history : List Text} {i : Interpreter},
    Recorded history i → Drafted history i → i.toMode.Coherent →
      Recorded (history ++ lines) (i.readLines lines)
  | [], history, i, h, _, _ => by rwa [List.append_nil]
  | line :: lines, history, i, h, hd, hmode => by
    have heffect := readLine_effect i line
    have hrest := Recorded.readLines lines (h.of_effect hd heffect rfl)
      (hd.of_effect hmode heffect rfl rfl) (heffect.coherent hmode)
    rwa [List.append_assoc] at hrest

theorem boot_recorded (hi : i.Blank) : Recorded (sources.map Text.ofString) i.boot := by
  have h0 : Recorded [] i ∧ i.toMode = {} := by
    refine ⟨fun e he => ?_, hi.2⟩
    rw [hi.1] at he
    exact absurd he List.not_mem_nil
  unfold boot
  have hnative := List.foldlRecOn (motive := fun i : Interpreter => Recorded [] i ∧ i.toMode = {})
    primitives (fun i w => i.install (Text.ofString w.1) (.native w.2)) h0
    fun i hi w _ => ⟨hi.1.install _ rfl, hi.2⟩
  have hmarker := List.foldlRecOn (motive := fun i : Interpreter => Recorded [] i ∧ i.toMode = {})
    markers (fun i w => i.install (Text.ofString w.1) (.marker w.2)) hnative
    fun i hi w _ => ⟨hi.1.install _ rfl, hi.2⟩
  have hsource := hmarker.1.readLines (sources.map Text.ofString) (drafted_of_closed hmarker.2)
    (hmarker.2 ▸ Mode.coherent_closed)
  rw [Interpreter.readLines, List.foldl_map] at hsource
  exact hsource.install _ rfl

/-- Every compiled word of a session was written by lines that it has read, the builtin sources
among them. -/
theorem readLines_recorded (trees : List SettingTree) (listing : Stack → Text)
    (past : List Text) : Recorded (sources.map Text.ofString ++ past)
      ((Session.new trees listing).core.readLines past) := by
  obtain ⟨i, hblank, hcore⟩ := Session.new_core trees listing
  have hmode := new_mode trees listing
  rw [hcore] at hmode ⊢
  exact (boot_recorded hblank).readLines past (drafted_of_closed hmode)
    (hmode ▸ Mode.coherent_closed)

/-- A line that breaks off, in any state, changes neither dictionary nor mode.  The last of the
words that are running then is the one that is reported; its markers do not balance, and it is
spelled as in the lines that have written it. -/
theorem fault_of_line {trees : List SettingTree} {listing : Stack → Text} {line : Text} {f : Fault}
    (hi : i = (Session.new trees listing).core.readLines history)
    (hfault : (i.readLine line).2 = .fault f) :
    (i.readLine line).1.dict = i.dict ∧ (i.readLine line).1.toMode = i.toMode
      ∧ ∃ word place running e code, f = .unbalanced word place
        ∧ i.BreaksIn line running word place ∧ running.getLast? = some e
        ∧ e.meaning = .compiled word code ∧ imbalance 0 code = some place
        ∧ ∃ written rest d, sources.map Text.ofString ++ history = written ++ rest
          ∧ Written d written word code := by
  have hreachable : i.Reachable := ⟨trees, listing, history, hi⟩
  have heffect := readLine_effect i line
  rw [hfault] at heffect
  obtain ⟨hdict, hmode, word, place, running, hf, hbreaks⟩ :=
    heffect.breaksIn hreachable.sound hreachable.hostless
  obtain ⟨e, he, hlast, code, hmeaning, himbalance⟩ := hbreaks.innermost
  have hrecorded := readLines_recorded trees listing history
  rw [← hi] at hrecorded
  exact ⟨hdict, hmode, word, place, running, e, code, hf, hbreaks, hlast, hmeaning, himbalance,
    hrecorded e he word code hmeaning⟩

end Recorded

end Interpreter

end LineForth
