import LineForth.Output.Sink

/-!
# Outlets

An outlet is a sink made ready for output that is flushed now and then.  In front of a plain sink
stands a buffer: bytes are collected until there is no free space, then the buffer goes out.  A
write that finds the buffer empty and does not fit goes straight to the sink, if the sink takes
writes of that form.  A problem sticks: later writes and flushes report it and do nothing.
-/

namespace LineForth

structure Outlet where
  sink : Sink
  pending : Buffer := .empty
  stuck : Option Problem := none
deriving DecidableEq

/-- A piece of output by how it is handed over: a run of plain bytes, a control in its own bytes, or
one character. -/
inductive Piece
  | run (bytes : Text)
  | control (bytes : Text)
  | character (bytes : Text)
deriving DecidableEq

def Piece.bytes : Piece → Text
  | .run bytes => bytes
  | .control bytes => bytes
  | .character bytes => bytes

namespace Outlet

def capacity : Nat := 4096

def buffered (o : Outlet) : Bool := o.sink.kind = .plain || o.sink.kind = .string

def free (o : Outlet) : Nat := capacity - o.pending.size

/-- Sends the buffer to the sink; what the sink does not take stays. -/
def drain (o : Outlet) : Outlet :=
  if o.stuck.isSome || o.pending.size = 0 then o
  else
    let (sink, w) := o.sink.write o.pending.bytes
    if w.problem.isNone ∧ w.count = o.pending.size then { sink }
    else
      { sink
        pending := .ofText (o.pending.bytes.drop w.count)
        stuck := some (w.problem.getD .shortWrite) }

/-- Stores `p` after `n` bytes that were taken before; `direct` says whether the sink takes a large
write itself. -/
def fill (direct : Bool) : Nat → Nat → Text → Outlet → Outlet × Written
  | 0, n, _, o => (o, ⟨n, o.stuck⟩)
  | fuel + 1, n, p, o =>
    if o.stuck.isSome then (o, ⟨n, o.stuck⟩)
    else if p.length ≤ o.free then ({ o with pending := o.pending.append p }, ⟨n + p.length, none⟩)
    else if direct && o.pending.size = 0 then
      let (sink, w) := o.sink.write p
      fill direct fuel (n + w.count) (p.drop w.count) { o with sink, stuck := w.problem }
    else
      fill direct fuel (n + o.free) (p.drop o.free)
        { o with pending := o.pending.append (p.take o.free) }.drain

/-- Each round but one takes a byte, so `p.length + 2` rounds are enough. -/
def store (o : Outlet) (direct : Bool) (p : Text) : Outlet × Written :=
  fill direct (p.length + 2) 0 p o

/-- Room for the longest character is made before a character is stored. -/
def storeCharacter (o : Outlet) (p : Text) : Outlet × Written :=
  if o.stuck.isSome then (o, ⟨0, o.stuck⟩)
  else
    let o := if o.free < 4 then o.drain else o
    if o.stuck.isSome then (o, ⟨0, o.stuck⟩)
    else ({ o with pending := o.pending.append p }, ⟨p.length, none⟩)

def writeSink (o : Outlet) (p : Text) : Outlet × Written :=
  let (sink, w) := o.sink.write p
  ({ o with sink }, w)

def write (o : Outlet) (p : Text) : Outlet × Written :=
  if o.buffered then o.store true p else o.writeSink p

def deliver (o : Outlet) (p : Piece) : Outlet × Written :=
  if o.buffered then
    match p with
    | .run bytes => o.store (o.sink.kind = .string) bytes
    | .control bytes => o.store true bytes
    | .character bytes => o.storeCharacter bytes
  else o.writeSink p.bytes

def flush (o : Outlet) : Outlet × Option Problem :=
  if o.buffered then (o.drain, o.drain.stuck)
  else
    let (sink, p) := o.sink.flush
    ({ o with sink }, p)

end Outlet

end LineForth
