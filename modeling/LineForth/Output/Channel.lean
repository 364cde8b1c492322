import LineForth.Output.Outlet

/-!
# Channels

A channel leads to one or more leaves, each of which discards what it gets or is one of a store of
outlets.  A write to several leaves goes from left to right and stops at the first that does not
take all of it; a flush reaches every leaf and reports the first problem.
-/

namespace LineForth

inductive Leaf
  | discard
  | outlet (index : Nat)
deriving DecidableEq

/-- A channel is its leaves from left to right; there is always at least one. -/
structure Channel where
  leaves : List Leaf
deriving DecidableEq

abbrev Outlets := List Outlet

/-- The outlets after an operation, and what it reports. -/
abbrev Delivery := Outlets × Written

namespace Leaf

def onOutlet {α : Type} (os : Outlets) (index : Nat) (f : Outlet → Outlet × α) (absent : α) :
    Outlets × α :=
  match os[index]? with
  | none => (os, absent)
  | some o =>
    let (o, r) := f o
    (os.set index o, r)

def write (os : Outlets) (p : Text) : Leaf → Delivery
  | .discard => (os, ⟨p.length, none⟩)
  | .outlet index => onOutlet os index (·.write p) ⟨p.length, none⟩

def deliver (os : Outlets) (p : Piece) : Leaf → Delivery
  | .discard => (os, ⟨p.bytes.length, none⟩)
  | .outlet index => onOutlet os index (·.deliver p) ⟨p.bytes.length, none⟩

def flush (os : Outlets) : Leaf → Outlets × Option Problem
  | .discard => (os, none)
  | .outlet index => onOutlet os index (·.flush) none

end Leaf

inductive ChannelKind
  | tee
  | discard
  | direct
  | buffered
  | flusher
deriving DecidableEq

namespace Channel

def discard : Channel := ⟨[.discard]⟩

/-- Puts a sink into the store and leads to it. -/
def attach (os : Outlets) (s : Sink) : Outlets × Channel :=
  (os ++ [{ sink := s }], if s.kind = .discard then discard else ⟨[.outlet os.length]⟩)

/-- A channel to all the leaves of the given ones; absent ones are passed over. -/
def tee (cs : List (Option Channel)) : Channel :=
  match cs.flatMap fun
    | some c => c.leaves
    | none => [] with
  | [] => discard
  | leaves => ⟨leaves⟩

def writeAll (p : Text) : Outlets → List Leaf → Delivery
  | os, [] => (os, ⟨p.length, none⟩)
  | os, l :: ls =>
    match l.write os p with
    | (os, ⟨n, some e⟩) => (os, ⟨n, some e⟩)
    | (os, ⟨n, none⟩) => if n = p.length then writeAll p os ls else (os, ⟨n, some .shortWrite⟩)

def write (c : Channel) (os : Outlets) (p : Text) : Delivery :=
  match c.leaves with
  | [l] => l.write os p
  | ls => writeAll p os ls

/-- Hands over a piece; several leaves get it as plain bytes. -/
def deliver (c : Channel) (os : Outlets) (p : Piece) : Delivery :=
  match c.leaves with
  | [l] => l.deliver os p
  | ls => writeAll p.bytes os ls

def flushAll (p : Option Problem) : Outlets → List Leaf → Outlets × Option Problem
  | os, [] => (os, p)
  | os, l :: ls =>
    let (os, q) := l.flush os
    flushAll (p.or q) os ls

def flush (c : Channel) (os : Outlets) : Outlets × Option Problem := flushAll none os c.leaves

def kind (c : Channel) (os : Outlets) : ChannelKind :=
  match c.leaves with
  | [.discard] => .discard
  | [.outlet index] =>
    match os[index]? with
    | none => .discard
    | some o => if o.buffered then .buffered else if o.sink.kind = .flusher then .flusher else .direct
  | _ => .tee

end Channel

end LineForth
