import LineForth.Output.Buffer
import LineForth.Problem

/-!
# Sinks

A sink is a place that the host supplies for output.  Some sinks have room for only so many bytes;
they then store what fits and refuse the rest, with a problem or silently.  A `flusher` can be told
to flush, which it counts and may refuse.  The host can also lay down how the coming writes and
flushes go, turn by turn, so that a sink can fail at any time and in any way, and recover.
-/

namespace LineForth

inductive SinkKind
  | buffer
  | builder
  | discard
  | plain
  | string
  | flusher
deriving DecidableEq

/-- How a write or a flush goes: the most bytes that are taken, if not all, and the problem that is
reported. -/
structure Turn where
  most : Option Nat := none
  problem : Option Problem := none
deriving DecidableEq

structure Sink where
  kind : SinkKind
  /-- The bytes that it will still take, if bounded. -/
  room : Option Nat := none
  refusal : Option Problem := none
  flushRefusal : Option Problem := none
  /-- The coming turns; room and refusals count after them. -/
  turns : List Turn := []
  stored : Buffer := .empty
  flushes : Nat := 0
deriving DecidableEq

/-- What a write reports: the number of bytes taken, and perhaps a problem. -/
structure Written where
  count : Nat
  problem : Option Problem := none
deriving DecidableEq

namespace Sink

/-- What the sink holds. -/
def data (s : Sink) : Text := s.stored.bytes

/-- Only these kinds can refuse a write. -/
def bounded (s : Sink) : Bool :=
  match s.kind with
  | .plain | .string | .flusher => true
  | _ => false

def keep (s : Sink) (p : Text) : Sink :=
  if s.kind = .discard then s else { s with stored := s.stored.append p }

/-- Takes what there is room for. -/
def fit (s : Sink) (p : Text) : Sink × Written :=
  match (if s.bounded then s.room else none) with
  | none => (s.keep p, ⟨p.length, none⟩)
  | some room =>
    if p.length ≤ room then ({ s.keep p with room := some (room - p.length) }, ⟨p.length, none⟩)
    else ({ s.keep (p.take room) with room := some 0 }, ⟨room, s.refusal⟩)

def write (s : Sink) (p : Text) : Sink × Written :=
  match (if s.bounded then s.turns else []) with
  | [] => s.fit p
  | t :: turns =>
    let taken := p.take (t.most.getD p.length)
    ({ s.keep taken with turns }, ⟨taken.length, t.problem⟩)

def flush (s : Sink) : Sink × Option Problem :=
  if s.kind = .flusher then
    match s.turns with
    | [] => ({ s with flushes := s.flushes + 1 }, s.flushRefusal)
    | t :: turns => ({ s with turns, flushes := s.flushes + 1 }, t.problem)
  else (s, none)

end Sink

end LineForth
