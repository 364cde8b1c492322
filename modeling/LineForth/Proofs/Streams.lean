import Mathlib.Data.List.Basic
import Mathlib.Data.List.Nodup
import LineForth.Input

/-!
# Histories of an input

Reading an input is a walk through its streams: a stream is opened, its lines are given one at a
time, and at its end it is closed and left behind (`Input.Reads`, `readLine_reads`).  What a stream
has to give is its lines and then the problem with which it ends, if there is one, so reading gives
the first thing that any stream has left (`Reads.takes`).

A history of an input queues streams, reads, and closes, in any order.  The streams that it has
queued stand in a row: those that are closed for good, each with an account of how far it was read,
the current one, and those that wait.  `Input.Ledger` says what the accounts amount to: the answers
of the readings for which there was anything left are theirs, in order and with their locations, and
the streams that were closed are exactly the closable ones among them.  Every step keeps a ledger
and only ever adds to the accounts (`Ledger.extend`).  When nothing is pending any more, as after a
reading that found nothing left, all the streams that were queued have been closed
(`Ledger.finished`).

A stream may end with a problem that is the end of input by its value.  It is one of the things that
the stream has left: a reading gives it once, after the lines, and goes on behind it.
-/

namespace LineForth

namespace Stream

/-- The problem with which a stream ends: one of reading goes before one of closing. -/
def ending (s : Stream) : Option Problem :=
  s.trouble.or (if s.closable then s.closeTrouble else none)

/-- All that reading a stream gives. -/
def deliveries (s : Stream) : List (Except Problem Text) :=
  s.lines.map .ok ++ (s.ending.map .error).toList

def closed (ss : List Stream) : List Nat := (ss.filter closable).map key

theorem deliveries_eq_nil {s : Stream} : s.deliveries = [] ↔ s.lines = [] ∧ s.ending = none := by
  simp [deliveries]

theorem deliveries_of_line {s : Stream} {l : Text} {ls : List Text} (h : s.lines = l :: ls) :
    s.deliveries = .ok l :: { s with lines := ls }.deliveries := by
  simp [deliveries, ending, h]

theorem deliveries_of_ending {s : Stream} {p : Problem} (hl : s.lines = [])
    (hp : s.ending = some p) : s.deliveries = [.error p] := by
  simp [deliveries, hl, hp]

theorem closed_append (ss ss' : List Stream) : closed (ss ++ ss') = closed ss ++ closed ss' := by
  simp [closed]

theorem closed_reverse (s : Stream) : (closed [s]).reverse = closed [s] := by
  rcases h : s.closable <;> simp [closed, h]

end Stream

namespace Input

/-- The streams that can still be read, the current one first. -/
def pending (i : Input) : List Stream := i.current.toList ++ i.queue

def deliveries (i : Input) : List (Except Problem Text) := i.pending.flatMap Stream.deliveries

/-- Leaves the current stream behind, closed. -/
def leave (i : Input) (s : Stream) : Input :=
  { i with current := none, closings := Stream.closed [s] ++ i.closings }

def start (i : Input) (s : Stream) (rest : List Stream) : Input :=
  { i with queue := rest, current := some s, last := { name := s.name } }

section Reading

/-- One reading of an input, with its answer and the input that it leaves. -/
inductive Reads : Input → Except Problem Text → Input → Prop
  | line {i : Input} {s : Stream} {l : Text} {ls : List Text} : i.current = some s →
      s.lines = l :: ls →
      Reads i (.ok l)
        { i with
          current := some { s with lines := ls }
          last := { i.last with line := i.last.line + 1 } }
  | failed {i : Input} {s : Stream} {p : Problem} : i.current = some s → s.lines = [] →
      s.ending = some p → Reads i (.error p) (i.leave s)
  | passed {i i' : Input} {s : Stream} {r : Except Problem Text} : i.current = some s →
      s.deliveries = [] → Reads (i.leave s) r i' → Reads i r i'
  | opened {i i' : Input} {s : Stream} {rest : List Stream} {r : Except Problem Text} :
      i.current = none → i.queue = s :: rest → Reads (i.start s rest) r i' → Reads i r i'
  | ended {i : Input} : i.current = none → i.queue = [] → Reads i (.error .endOfFile) i

theorem close1_eq (i : Input) (s : Stream) : i.close1 s
    = ({ i with closings := Stream.closed [s] ++ i.closings },
      if s.closable then s.closeTrouble else none) := by
  rcases h : s.closable <;> simp [close1, Stream.closed, h]

theorem take_line {i : Input} {s : Stream} {l : Text} {ls : List Text} (h : s.lines = l :: ls) :
    i.take s
      = ({ i with
            current := some { s with lines := ls }
            last := { i.last with line := i.last.line + 1 } },
          some (.ok l)) := by
  simp only [take, h]

theorem take_end {i : Input} {s : Stream} (h : s.lines = []) :
    i.take s = (i.leave s, s.ending.map .error) := by
  simp only [take, h, close1_eq]
  rfl

theorem advance_reads : ∀ (ss : List Stream) (i : Input), i.current = none → i.queue = ss →
    Reads i (i.advance ss).2 (i.advance ss).1
  | [], i, hc, hq => by
    have hi : { i with queue := [] } = i := by rw [← hq]
    rw [advance, hi]
    exact .ended hc hq
  | s :: rest, i, hc, hq => by
    refine .opened hc hq ?_
    rw [advance]
    rcases hl : s.lines with _ | ⟨l, ls⟩
    · rw [take_end hl]
      rcases hp : s.ending with _ | p
      · have hleft : (i.start s rest).leave s
            = { i with queue := rest, last := { name := s.name } }.leave s := rfl
        refine .passed rfl (Stream.deliveries_eq_nil.2 ⟨hl, hp⟩) ?_
        rw [hleft]
        exact advance_reads rest _ rfl rfl
      · exact .failed rfl hl hp
    · rw [take_line hl]
      exact .line (i := i.start s rest) rfl hl

theorem readLine_reads (i : Input) : Reads i i.readLine.2 i.readLine.1 := by
  unfold readLine
  rcases hc : i.current with _ | s
  · exact advance_reads i.queue i hc rfl
  · simp only []
    rcases hl : s.lines with _ | ⟨l, ls⟩
    · rw [take_end hl]
      rcases hp : s.ending with _ | p
      · exact .passed hc (Stream.deliveries_eq_nil.2 ⟨hl, hp⟩) (advance_reads _ _ rfl rfl)
      · exact .failed hc hl hp
    · rw [take_line hl]
      exact .line hc hl

theorem deliveries_current {i : Input} {s : Stream} (h : i.current = some s) :
    i.deliveries = s.deliveries ++ (i.leave s).deliveries := by
  simp [deliveries, pending, leave, h]

theorem deliveries_start {i : Input} {s : Stream} {rest : List Stream} (hc : i.current = none)
    (hq : i.queue = s :: rest) : (i.start s rest).deliveries = i.deliveries := by
  simp [deliveries, pending, start, hc, hq]

/-- Reading takes the first thing that is left; with nothing left it gives the end of input, and
nothing is pending any more. -/
theorem Reads.takes {i i' : Input} {r : Except Problem Text} (h : Reads i r i') :
    i.deliveries = r :: i'.deliveries
      ∨ i.deliveries = [] ∧ r = .error .endOfFile ∧ i'.pending = [] := by
  induction h with
  | @line i s l ls hc hl =>
    left
    rw [deliveries_current hc, Stream.deliveries_of_line hl]
    simp [deliveries, pending, leave]
  | failed hc hl hp =>
    left
    rw [deliveries_current hc, Stream.deliveries_of_ending hl hp]
    rfl
  | passed hc hs _ ih =>
    rw [deliveries_current hc, hs, List.nil_append]
    exact ih
  | opened hc hq _ ih =>
    rw [← deliveries_start hc hq]
    exact ih
  | ended hc hq =>
    right
    simp [deliveries, pending, hc, hq]

theorem deliveries_eq_nil {i : Input} :
    i.deliveries = [] ↔ ∀ s ∈ i.pending, s.lines = [] ∧ s.ending = none := by
  simp only [deliveries, List.flatMap_eq_nil_iff, Stream.deliveries_eq_nil]

/-- The end of input is the answer exactly when no stream has anything left, unless it is itself
the problem with which the next stream ends. -/
theorem readLine_end (i : Input) : i.readLine.2 = .error .endOfFile
    ↔ (∀ s ∈ i.pending, s.lines = [] ∧ s.ending = none)
      ∨ i.deliveries.head? = some (.error .endOfFile) := by
  rw [← deliveries_eq_nil]
  rcases i.readLine_reads.takes with h | ⟨h, hr, -⟩
  · simp [h]
  · simp [h, hr]

end Reading

section Closing

theorem closeAll_eq : ∀ (ss : List Stream) (i : Input) (p : Option Problem),
    (i.closeAll p ss).1 = { i with closings := (Stream.closed ss).reverse ++ i.closings }
  | [], _, _ => rfl
  | s :: ss, i, p => by
    have hcons : Stream.closed (s :: ss) = Stream.closed [s] ++ Stream.closed ss :=
      Stream.closed_append [s] ss
    rw [closeAll, close1_eq, closeAll_eq ss, hcons]
    simp [Stream.closed_reverse]

theorem close_eq (i : Input) : i.close.1
    = { i with
        current := none
        queue := []
        closings := (Stream.closed i.pending).reverse ++ i.closings } :=
  closeAll_eq _ _ _

end Closing

section Histories

inductive Op
  | queue (s : Stream)
  | read
  | close

/-- The answer to a reading, with the location that stands after it. -/
abbrev Answer := Except Problem Text × Location

/-- A reading: whether any stream had anything left for it, and the answer. -/
structure Reading where
  found : Bool
  answer : Answer
deriving DecidableEq

/-- An input after some operations, with its readings so far. -/
structure Played where
  input : Input := {}
  log : List Reading := []

def Played.step (h : Played) : Op → Played
  | .queue s => { h with input := h.input.enqueue s }
  | .read =>
    let (input, r) := h.input.readLine
    ⟨input, h.log ++ [⟨!h.input.deliveries.isEmpty, r, input.last⟩]⟩
  | .close => { h with input := h.input.close.1 }

def played (ops : List Op) : Played := ops.foldl Played.step {}

def Op.queued? : Op → Option Stream
  | .queue s => some s
  | _ => none

def queuedIn (ops : List Op) : List Stream := ops.filterMap Op.queued?

theorem played_concat (ops : List Op) (op : Op) :
    played (ops ++ [op]) = (played ops).step op := by
  simp [played]

theorem queuedIn_concat (ops : List Op) (op : Op) :
    queuedIn (ops ++ [op]) = queuedIn ops ++ op.queued?.toList := by
  unfold queuedIn
  rcases h : op.queued? with _ | s <;> simp [h]

end Histories

section Accounts

/-- How far a stream was read: so many lines, and perhaps to its end. -/
structure Account where
  stream : Stream
  count : Nat := 0
  ended : Bool := false

namespace Account

def rest (a : Account) : Stream := { a.stream with lines := a.stream.lines.drop a.count }

def last (a : Account) : Location := ⟨a.stream.name, a.count⟩

/-- What the stream has given: its first lines, each located by its number, and at the end its
problem, if it has one. -/
def answers (a : Account) : List Answer :=
  (a.stream.lines.take a.count).mapIdx (fun k l => (.ok l, ⟨a.stream.name, (k + 1 : Nat)⟩))
    ++ if a.ended then (a.stream.ending.map fun p => (.error p, a.last)).toList else []

/-- Only a stream whose lines were all read has ended. -/
def Sound (a : Account) : Prop :=
  a.count ≤ a.stream.lines.length ∧ (a.ended → a.count = a.stream.lines.length)

theorem closed_rest (a : Account) : Stream.closed [a.rest] = Stream.closed [a.stream] := by
  rcases h : a.stream.closable <;> simp [Stream.closed, rest, h]

theorem answers_waiting (s : Stream) : ({ stream := s } : Account).answers = [] := by
  simp [answers]

theorem answers_line {a : Account} {l : Text} {ls : List Text} (ha : a.ended = false)
    (h : a.rest.lines = l :: ls) : ({ a with count := a.count + 1 } : Account).answers
      = a.answers ++ [(.ok l, ({ a with count := a.count + 1 } : Account).last)] := by
  have hget : a.stream.lines[a.count]? = some l := by
    have := congrArg List.head? h
    simpa [rest, List.head?_drop] using this
  have hlt : a.count < a.stream.lines.length := (List.getElem?_eq_some_iff.1 hget).1
  have hmin : min a.count a.stream.lines.length = a.count := Nat.min_eq_left (Nat.le_of_lt hlt)
  simp [answers, ha, List.take_add_one, hget, List.mapIdx_append, hmin, last]

theorem answers_end {a : Account} (ha : a.ended = false) :
    ({ a with ended := true } : Account).answers
      = a.answers ++ (a.stream.ending.map fun p => (.error p, a.last)).toList := by
  simp [answers, ha, last]

end Account

/-- The answers of the readings that found something left. -/
def told (log : List Reading) : List Answer := (log.filter Reading.found).map Reading.answer

theorem told_found (log : List Reading) (a : Answer) :
    told (log ++ [⟨true, a⟩]) = told log ++ [a] := by
  simp [told]

theorem told_nothing (log : List Reading) (a : Answer) : told (log ++ [⟨false, a⟩]) = told log := by
  simp [told]

/-- The state of an input, told by accounts of the streams it has left behind and of the current
one. -/
structure Balanced (queued : List Stream) (log : List Reading) (i : Input) (past : List Account)
    (now : Option Account) : Prop where
  order : queued = (past ++ now.toList).map Account.stream ++ i.queue
  current : i.current = now.map Account.rest
  last : ∀ a ∈ now, i.last = a.last
  answers : told log = (past ++ now.toList).flatMap Account.answers
  /-- A reading that found nothing left gave the end of input. -/
  nothing : ∀ r ∈ log, r.found = false → r.answer.1 = .error .endOfFile
  closings : i.closings.reverse = Stream.closed (past.map Account.stream)
  sound : ∀ a ∈ past ++ now.toList, a.Sound
  running : ∀ a ∈ now, a.ended = false

variable {queued : List Stream} {log : List Reading} {i i' : Input} {past : List Account}
  {now : Option Account}

theorem Balanced.account (h : Balanced queued log i past now) {s : Stream}
    (hc : i.current = some s) : ∃ a, now = some a ∧ a.rest = s := by
  rw [h.current, Option.map_eq_some_iff] at hc
  exact hc

theorem Balanced.leave {a : Account} (h : Balanced queued log i past (some a))
    (hl : a.rest.lines = []) :
    Balanced queued (log ++ (a.rest.ending.map fun p => ⟨true, .error p, i.last⟩).toList)
      (i.leave a.rest) (past ++ [{ a with ended := true }]) none where
  order := by
    rw [h.order]
    simp [Input.leave]
  current := rfl
  last := by simp
  answers := by
    have hend : a.rest.ending = a.stream.ending := rfl
    have htold := h.answers
    rw [hend, h.last a rfl]
    rcases hp : a.stream.ending with _ | p
    · simpa [Account.answers_end (h.running a rfl), hp] using htold
    · rw [Option.map_some, Option.toList_some, told_found, htold]
      simp [Account.answers_end (h.running a rfl), hp]
  nothing := List.forall_mem_append.2 ⟨h.nothing, by simp⟩
  closings := by
    rw [show (i.leave a.rest).closings = Stream.closed [a.rest] ++ i.closings from rfl,
      a.closed_rest, List.reverse_append, Stream.closed_reverse, h.closings,
      ← Stream.closed_append]
    simp
  sound := by
    have hcount : a.count = a.stream.lines.length := by
      have hle := (h.sound a (by simp)).1
      have := List.drop_eq_nil_iff.1 hl
      omega
    intro b hb
    simp only [Option.toList_none, List.append_nil, List.mem_append, List.mem_singleton] at hb
    rcases hb with hb | rfl
    · exact h.sound b (by simp [hb])
    · exact ⟨Nat.le_of_eq hcount, fun _ => hcount⟩
  running := by simp

theorem Balanced.start {s : Stream} {rest : List Stream} (h : Balanced queued log i past none)
    (hq : i.queue = s :: rest) :
    Balanced queued log (i.start s rest) past (some { stream := s }) where
  order := by
    rw [h.order, hq]
    simp [Input.start]
  current := rfl
  last := by
    rintro a ⟨⟩
    rfl
  answers := by
    rw [h.answers]
    simp [Account.answers_waiting]
  nothing := h.nothing
  closings := h.closings
  sound := by
    intro b hb
    simp only [Option.toList_some, List.mem_append, List.mem_singleton] at hb
    rcases hb with hb | rfl
    · exact h.sound b (by simp [hb])
    · exact ⟨Nat.zero_le _, fun h => by cases h⟩
  running := by
    rintro a ⟨⟩
    rfl

theorem Balanced.line {a : Account} {l : Text} {ls : List Text}
    (h : Balanced queued log i past (some a)) (hl : a.rest.lines = l :: ls) :
    Balanced queued
      (log ++ [⟨true, .ok l, { i.last with line := i.last.line + 1 }⟩])
      { i with
        current := some { a.rest with lines := ls }
        last := { i.last with line := i.last.line + 1 } }
      past (some { a with count := a.count + 1 }) where
  order := by simpa using h.order
  current := by
    have hdrop : a.stream.lines.drop (a.count + 1) = ls := by
      rw [← List.tail_drop]
      exact congrArg List.tail hl
    simp [Account.rest, hdrop]
  last := by
    rintro b ⟨⟩
    rw [h.last a rfl]
    rfl
  answers := by
    have hlast : ({ i.last with line := i.last.line + 1 } : Location)
        = ({ a with count := a.count + 1 } : Account).last := by
      rw [h.last a rfl]
      rfl
    rw [told_found, h.answers, hlast]
    simp [Account.answers_line (h.running a rfl) hl]
  nothing := List.forall_mem_append.2 ⟨h.nothing, by simp⟩
  closings := h.closings
  sound := by
    have hlt : a.count < a.stream.lines.length := by
      by_contra hge
      have : a.rest.lines = [] := List.drop_eq_nil_iff.2 (by omega)
      rw [this] at hl
      cases hl
    intro b hb
    simp only [Option.toList_some, List.mem_append, List.mem_singleton] at hb
    rcases hb with hb | rfl
    · exact h.sound b (by simp [hb])
    · refine ⟨hlt, fun hb => ?_⟩
      rw [show ({ a with count := a.count + 1 } : Account).ended = a.ended from rfl,
        h.running a rfl] at hb
      cases hb
  running := by
    rintro b ⟨⟩
    exact h.running a rfl

theorem Balanced.ended (h : Balanced queued log i past now) (place : Location) :
    Balanced queued (log ++ [⟨false, .error .endOfFile, place⟩]) i past now where
  __ := h
  answers := (told_nothing log _).trans h.answers
  nothing := List.forall_mem_append.2 ⟨h.nothing, by simp⟩

theorem Balanced.enqueue (h : Balanced queued log i past now) (s : Stream) :
    Balanced (queued ++ [s]) log (i.enqueue s) past now :=
  { h with order := by rw [h.order]; simp [Input.enqueue] }

theorem Balanced.close (h : Balanced queued log i past now) :
    Balanced queued log i.close.1
      (past ++ (now.toList ++ i.queue.map fun s => { stream := s })) none where
  order := by
    rw [h.order, close_eq]
    simp [Function.comp_def]
  current := by rw [close_eq]; rfl
  last := by simp
  answers := by
    have hqueue : (i.queue.map fun s => ({ stream := s } : Account)).flatMap Account.answers
        = [] := by
      simp [List.flatMap_eq_nil_iff, Account.answers_waiting]
    rw [h.answers]
    simp only [Option.toList_none, List.append_nil, List.flatMap_append, hqueue]
  nothing := h.nothing
  closings := by
    have hpending : Stream.closed i.pending
        = Stream.closed (now.toList.map Account.stream ++ i.queue) := by
      rw [pending, h.current, Stream.closed_append, Stream.closed_append]
      rcases now with _ | a
      · rfl
      · exact congrArg (· ++ Stream.closed i.queue) a.closed_rest
    rw [close_eq]
    simp only [List.reverse_append, List.reverse_reverse, h.closings, hpending,
      ← Stream.closed_append]
    simp [Function.comp_def]
  sound := by
    intro b hb
    simp only [Option.toList_none, List.append_nil, List.mem_append, List.mem_map] at hb
    rcases hb with hb | hb | ⟨s, -, rfl⟩
    · exact h.sound b (by simp [hb])
    · exact h.sound b (List.mem_append.2 (.inr hb))
    · exact ⟨Nat.zero_le _, fun h => by cases h⟩
  running := by simp

/-- A reading tells one answer more if there was anything left for it, and leaves behind only
streams that have ended. -/
theorem Reads.balanced {r : Except Problem Text} (hr : Reads i r i') :
    ∀ {past : List Account} {now : Option Account}, Balanced queued log i past now →
      ∃ more now', (∀ a ∈ more, a.ended) ∧
        Balanced queued (log ++ [⟨!i.deliveries.isEmpty, r, i'.last⟩]) i' (past ++ more) now' := by
  induction hr with
  | line hc hl =>
    intro past now h
    obtain ⟨a, rfl, rfl⟩ := h.account hc
    rw [deliveries_current hc, Stream.deliveries_of_line hl]
    exact ⟨[], _, by simp, by simpa using h.line hl⟩
  | failed hc hl hp =>
    intro past now h
    obtain ⟨a, rfl, rfl⟩ := h.account hc
    have hleft := h.leave hl
    rw [hp] at hleft
    rw [deliveries_current hc, Stream.deliveries_of_ending hl hp]
    exact ⟨[{ a with ended := true }], none, by simp, hleft⟩
  | passed hc hs _ ih =>
    intro past now h
    obtain ⟨a, rfl, rfl⟩ := h.account hc
    obtain ⟨hl, hp⟩ := Stream.deliveries_eq_nil.1 hs
    have hleft := h.leave hl
    rw [hp, Option.map_none, Option.toList_none, List.append_nil] at hleft
    obtain ⟨more, now', hmore, hb⟩ := ih hleft
    rw [deliveries_current hc, hs, List.nil_append]
    refine ⟨{ a with ended := true } :: more, now', ?_, by simpa using hb⟩
    intro b hb
    rcases List.mem_cons.1 hb with rfl | hb
    · rfl
    · exact hmore b hb
  | opened hc hq _ ih =>
    intro past now h
    obtain rfl : now = none := by
      have := h.current
      rw [hc] at this
      exact Option.map_eq_none_iff.1 this.symm
    rw [← deliveries_start hc hq]
    exact ih (h.start hq)
  | @ended i hc hq =>
    intro past now h
    have hnil : i.deliveries = [] := by simp [deliveries, pending, hc, hq]
    rw [hnil]
    exact ⟨[], now, by simp, by simpa using h.ended i.last⟩

end Accounts

section Ledgers

/-- Accounts of all the streams that a history has done with.  Those that had not ended were cut
short by a closing of the whole input. -/
structure Ledger (ops : List Op) (past : List Account) (now : Option Account) : Prop
    extends Balanced (queuedIn ops) (played ops).log (played ops).input past now where
  dropped : ∀ a ∈ past, a.ended = false →
    ∃ before after, ops = before ++ .close :: after ∧ a.stream ∈ queuedIn before

variable {ops : List Op} {past : List Account} {now : Option Account}

theorem Ledger.empty : Ledger [] [] none where
  order := rfl
  current := rfl
  last := by simp
  answers := rfl
  nothing := by simp [played]
  closings := rfl
  sound := by simp
  running := by simp
  dropped := by simp

theorem Ledger.dropped_concat (h : Ledger ops past now) (op : Op) :
    ∀ a ∈ past, a.ended = false →
      ∃ before after, ops ++ [op] = before ++ .close :: after ∧ a.stream ∈ queuedIn before := by
  intro a ha hend
  obtain ⟨before, after, rfl, hmem⟩ := h.dropped a ha hend
  exact ⟨before, after ++ [op], by simp, hmem⟩

/-- Whatever is done next, the accounts that are there stay as they are. -/
theorem Ledger.step (h : Ledger ops past now) (op : Op) :
    ∃ more now', Ledger (ops ++ [op]) (past ++ more) now' := by
  have hold := h.dropped_concat op
  cases op with
  | queue s =>
    refine ⟨[], now, ?_, by simpa using hold⟩
    rw [played_concat, queuedIn_concat, List.append_nil]
    exact h.toBalanced.enqueue s
  | read =>
    obtain ⟨more, now', hmore, hb⟩ := (played ops).input.readLine_reads.balanced h.toBalanced
    refine ⟨more, now', ?_, fun a ha hend => ?_⟩
    · rw [played_concat, queuedIn_concat]
      simpa [Played.step, Op.queued?] using hb
    · rcases List.mem_append.1 ha with ha | ha
      · exact hold a ha hend
      · rw [hmore a ha] at hend
        cases hend
  | close =>
    have hb := h.toBalanced.close
    refine ⟨now.toList ++ (played ops).input.queue.map fun s => { stream := s }, none, ?_,
      fun a ha hend => ?_⟩
    · rw [played_concat, queuedIn_concat]
      simpa [Played.step, Op.queued?] using hb
    · rcases List.mem_append.1 ha with ha | ha
      · exact hold a ha hend
      · refine ⟨ops, [], rfl, ?_⟩
        rw [h.order]
        simp only [List.mem_append, List.mem_map] at ha ⊢
        rcases ha with ha | ⟨s, hs, rfl⟩
        · exact .inl ⟨a, .inr ha, rfl⟩
        · exact .inr hs

theorem Ledger.extend : ∀ (ops' : List Op) {ops : List Op} {past : List Account}
    {now : Option Account}, Ledger ops past now →
    ∃ more now', Ledger (ops ++ ops') (past ++ more) now'
  | [], _, _, now, h => ⟨[], now, by simpa using h⟩
  | op :: ops', ops, past, now, h => by
    obtain ⟨more, now₁, h₁⟩ := h.step op
    obtain ⟨more', now₂, h₂⟩ := Ledger.extend ops' h₁
    exact ⟨more ++ more', now₂, by simpa using h₂⟩

/-- With streams that can be told apart, each closable one that is done with was closed once, and no
other was closed. -/
theorem Ledger.closed_once (h : Ledger ops past now)
    (hkeys : ((queuedIn ops).map Stream.key).Nodup) :
    (∀ a ∈ past, (played ops).input.closings.count a.stream.key
        = if a.stream.closable then 1 else 0)
      ∧ ∀ s ∈ (played ops).input.pending, s.key ∉ (played ops).input.closings := by
  have hmem : ∀ k, k ∈ (played ops).input.closings
      ↔ ∃ a ∈ past, a.stream.closable ∧ a.stream.key = k := by
    intro k
    rw [← List.mem_reverse, h.closings]
    simp [Stream.closed, and_assoc]
  have hall := h.order
  rw [List.map_append, List.append_assoc] at hall
  rw [hall, List.map_append, List.nodup_append] at hkeys
  obtain ⟨hpast, -, hdisjoint⟩ := hkeys
  have hnodup : (played ops).input.closings.Nodup := by
    rw [← List.nodup_reverse, h.closings]
    exact hpast.sublist (List.filter_sublist.map _)
  refine ⟨fun a ha => ?_, fun s hs hclosed => ?_⟩
  · split_ifs with hc
    · exact List.count_eq_one_of_mem hnodup ((hmem _).2 ⟨a, ha, hc, rfl⟩)
    · rw [List.count_eq_zero, hmem]
      rintro ⟨b, hb, hbc, hkey⟩
      have hsame := List.inj_on_of_nodup_map hpast (List.mem_map_of_mem hb)
        (List.mem_map_of_mem ha) hkey
      rw [hsame] at hbc
      exact hc hbc
  · obtain ⟨a, ha, -, hkey⟩ := (hmem _).1 hclosed
    refine hdisjoint _ (List.mem_map_of_mem (List.mem_map_of_mem ha)) s.key ?_ hkey
    rw [pending, h.current] at hs
    rcases now with _ | b
    · exact List.mem_map.2 ⟨s, by simpa using hs, rfl⟩
    · rcases List.mem_cons.1 hs with rfl | hs
      · exact List.mem_map.2 ⟨b.stream, by simp, rfl⟩
      · exact List.mem_map.2 ⟨s, by simpa using .inr hs, rfl⟩

/-- Nothing is pending any more, and each of the streams was closed once if it can be closed. -/
def Finished (i : Input) (queued : List Stream) : Prop :=
  i.pending = [] ∧ ∀ s ∈ queued, i.closings.count s.key = if s.closable then 1 else 0

/-- When nothing is pending, all the streams that were queued are closed. -/
theorem Ledger.finished (h : Ledger ops past now) (hkeys : ((queuedIn ops).map Stream.key).Nodup)
    (hpending : (played ops).input.pending = []) : (played ops).input.Finished (queuedIn ops) := by
  obtain ⟨hcurrent, hqueue⟩ := List.append_eq_nil_iff.1 hpending
  obtain rfl : now = none := by
    rw [h.current] at hcurrent
    simpa using hcurrent
  have hall := h.order
  rw [hqueue, Option.toList_none, List.append_nil, List.append_nil] at hall
  refine ⟨hpending, fun s hs => ?_⟩
  rw [hall] at hs
  obtain ⟨a, ha, rfl⟩ := List.mem_map.1 hs
  exact (h.closed_once hkeys).1 a ha

/-- An operation that queues nothing and leaves nothing pending finishes with all the streams. -/
theorem Ledger.finished_of_step (h : Ledger ops past now)
    (hkeys : ((queuedIn ops).map Stream.key).Nodup) {op : Op} (hop : op.queued? = none)
    (hpending : ((played ops).step op).input.pending = []) :
    (played (ops ++ [op])).input.Finished (queuedIn ops) := by
  obtain ⟨more, now', h'⟩ := h.step op
  have hqueued : queuedIn (ops ++ [op]) = queuedIn ops := by
    rw [queuedIn_concat, hop, Option.toList_none, List.append_nil]
  rw [← played_concat] at hpending
  rw [← hqueued] at hkeys ⊢
  exact h'.finished hkeys hpending

end Ledgers

/-- A problem that is the end of input by its value is told like any other, and reading goes on. -/
example :
    let odd : Stream := { key := 1, closable := true, closeTrouble := some .endOfFile }
    let next : Stream := { key := 2, lines := [[0x61]] }
    (played [.queue odd, .queue next, .read, .read, .read]).log.map (fun r => (r.found, r.answer.1))
      = [(true, .error .endOfFile), (true, .ok [0x61]), (false, .error .endOfFile)] := by
  decide

end Input

end LineForth
