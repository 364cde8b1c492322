import LineForth.Language.Builtin
import LineForth.Output.Ansi
import LineForth.Session.Setting

/-!
# Sessions

A session connects an interpreter with its surroundings: where lines come from and where responses
go.  `Session.interpret` reads lines until they end or something goes wrong, and answers each of
them; the end of input is not a problem.  When the interpreter breaks off with a fault, the problem
records it as a crash, at the location of the line if that is known.
-/

namespace LineForth

/-- Something to be closed with the session, by its key. -/
structure Closer where
  key : Nat
  trouble : Option Problem
deriving DecidableEq

structure Session where
  core : Interpreter := {}
  input : Input := {}
  source : Option LineSource := none
  /-- The line sources to be closed, latest first. -/
  closers : List Closer := []
  /-- How many things that may need closing there are; the keys lie below it. -/
  keys : Nat := 0
  /-- The keys of the line sources closed so far, latest first. -/
  closings : List Nat := []
  outlets : Outlets := []
  out : Channel := .discard
  echo : Bool := false

namespace Session

def flush (s : Session) : Session × Option Problem :=
  let (os, p) := s.out.flush s.outlets
  ({ s with outlets := os }, p)

def addSource (s : Session) (source : LineSource) : Session :=
  let s := { s with source := some source }
  if source.closable then
    { s with closers := ⟨s.keys, source.closeTrouble⟩ :: s.closers, keys := s.keys + 1 }
  else s

/-- A new output replaces the old one, which is flushed. -/
def setOutput (s : Session) (sink : Sink) : Session :=
  let (s, _) := s.flush
  let (os, c) := Channel.attach s.outlets sink
  { s with outlets := os, out := c }

def addTee (s : Session) (sink : Sink) : Session :=
  let (os, c) := Channel.attach s.outlets sink
  { s with outlets := os, out := Channel.tee [some s.out, some c] }

def withStack (s : Session) (stack : Stack) : Session :=
  { s with core := { s.core with machine := { s.core.machine with stack } } }

def apply (s : Session) : Setting → Session
  | .input stream =>
    { s with input := s.input.enqueue { stream with key := s.keys }, keys := s.keys + 1 }
  | .lines source => s.addSource source
  | .output sink => s.setOutput sink
  | .tee sink => s.addTee sink
  | .echo value => { s with echo := value }
  | .trace listener => { s with core := s.core.withTrace { s.core.trace with listener } }
  | .stack cells => s.withStack (s.core.stack.pushAll cells)

def applyAll (s : Session) (settings : List Setting) : Session := settings.foldl apply s

/-- A session without settings and without words. -/
def blank (listing : Stack → Text) : Session := { core := { machine := { trace := { listing } } } }

/-- A session with its settings applied and the builtin words added. -/
def ofSettings (settings : Settings) (listing : Stack → Text := Stack.listing) : Session :=
  let s := (blank listing).applyAll settings.toList
  { s with core := s.core.boot }

def new (trees : List SettingTree) (listing : Stack → Text := Stack.listing) : Session :=
  ofSettings (Settings.combine (SettingTree.values trees)) listing

/-- Reads from the line source if there is one, and from the input otherwise. -/
def fetch (s : Session) : Session × Except Problem Text :=
  match s.source with
  | some source =>
    let (source, r) := source.read
    ({ s with source := some source }, r)
  | none =>
    match s.input.readLine with
    | (input, .ok l) => ({ s with input, core := s.core.event (.located input.last) }, .ok l)
    | (input, .error p) => ({ s with input }, .error p)

/-- What is written for a line: nothing if there is nothing to say. -/
def record (echo : Bool) (line response : Text) : Option Text :=
  let t := if echo then line ++ response else response
  if t.isEmpty then none else some (t ++ [Text.newline])

def respond (s : Session) (line response : Text) : Session × Option Problem :=
  match record s.echo line response with
  | none => (s, none)
  | some t =>
    match Ansi.write s.out s.outlets t with
    | (os, ⟨_, some p⟩) => ({ s with outlets := os }, some p)
    | (os, ⟨_, none⟩) => { s with outlets := os }.flush

def readLine (s : Session) (line : Text) : Session × Reply :=
  let (core, r) := s.core.readLine line
  ({ s with core }, r)

/-- Why reading ended. -/
inductive Stop
  | problem (p : Problem)
  | fault (f : Fault)
deriving DecidableEq

def Stop.toProblem : Stop → Problem
  | .problem p => p
  | .fault f => .crashed (Text.ofString "forth") (.ofFault f)

/-- Reads a line; gives it with its response, which is still to be written. -/
def exchange (s : Session) : Session × Except Stop (Text × Text) :=
  match s.fetch with
  | (s, .error p) => (s, .error (.problem p))
  | (s, .ok line) =>
    match s.readLine line with
    | (s, .fault f) => (s, .error (.fault f))
    | (s, .answer response) => (s, .ok (line, response))

/-- Reads and answers lines; `halt` is set when there is no time for any. -/
def run (halt : Option Problem) : Nat → Session → Session × Stop
  | 0, s => (s, .problem .endOfFile)
  | fuel + 1, s =>
    match halt with
    | some p => (s, .problem p)
    | none =>
      match s.exchange with
      | (s, .error stop) => (s, stop)
      | (s, .ok (line, response)) =>
        match s.respond line response with
        | (s, some p) => (s, .problem p)
        | (s, none) => run none fuel s

/-- The most lines that can still be read. -/
def remaining (s : Session) : Nat :=
  match s.source with
  | some source => source.lines.length + source.later.length
  | none => s.input.remaining

/-- The end of input is no problem, and a crash is placed at the last line read. -/
def report (last : Location) (p : Problem) : Option Problem :=
  if p.has .endOfFile then none
  else if p.isCrash ∧ last.name ≠ [] then some (.located last p)
  else some p

/-- One round for each line, and one to find that there are no more. -/
def interpret (s : Session) (halt : Option Problem) : Session × Option Problem :=
  let (s, stop) := s.run halt (s.remaining + 1)
  let (s, _) := s.flush
  (s, report s.input.last stop.toProblem)

def closeSources (s : Session) : Session × Option Problem :=
  ({ s with closings := (s.closers.map Closer.key).reverse ++ s.closings },
    s.closers.findSome? Closer.trouble)

/-- Closes line sources, latest first, and then the input; the first problem counts. -/
def close (s : Session) : Session × Option Problem :=
  let (s, p) := s.closeSources
  let (input, q) := s.input.close
  ({ s with input }, p.or q)

/-- How often each thing that may need closing was closed. -/
def closeCounts (s : Session) : List Nat :=
  (List.range s.keys).map fun k => s.closings.count k + s.input.closings.count k

end Session

end LineForth
