import LineForth.Language.Draft
import LineForth.Language.Perform

/-!
# The interpreter

An interpreter has a machine, a dictionary and perhaps a definition in progress.  It reads a line at
a time and answers with a response: ` output ok` after running the line, `  ok` after a line that
closes a definition, nothing after a line that continues one, and a space and the message after a
failure, which drops any definition in progress.  A fault gives no response.

Whether a definition is open is kept apart from the definition itself, and the two are set one after
the other.  A line goes by the first, and adds its tokens to the second.
-/

namespace LineForth

structure Mode where
  inDefinition : Bool := false
  current : Option Draft := none
deriving DecidableEq

structure Interpreter extends Mode where
  machine : Machine := {}
  dict : Dictionary := {}

inductive Reply
  | answer (response : Text)
  | fault (why : Fault)
deriving DecidableEq

namespace Interpreter

def stack (i : Interpreter) : Stack := i.machine.stack

def trace (i : Interpreter) : Trace := i.machine.trace

def withTrace (i : Interpreter) (t : Trace) : Interpreter :=
  { i with machine := { i.machine with trace := t } }

def event (i : Interpreter) (e : Event) : Interpreter := { i with machine := i.machine.event e }

/-- Answers a recoverable failure with its message; any other is a fault. -/
def fail (i : Interpreter) (f : Failure) : Interpreter × Reply :=
  if f.recoverable then (i.event (.failed f), .answer (Text.space :: f.message))
  else (i, .fault (.host f.message))

/-- Runs one token.  A quoted text does nothing outside a definition. -/
def execute (d : Dictionary) (t : Token) (m : Machine) : Machine × Outcome :=
  if t.quoted then (m, .done [])
  else match d.lookup t.text with
    | some e =>
      match e.meaning.marker? with
      | some _ => (m, .failed [] (.compileOnly t.text))
      | none => d.run e.address m
    | none =>
      match Cell.ofText? t.text with
      | some c => (m.push c, .done [])
      | none =>
        if t.text = Draft.semicolon then (m, .done [])
        else (m, .failed [] (.missingWord t.text))

/-- Runs tokens up to the first one that does not end well; `out` is the output so far, last piece
first. -/
def executeAll (d : Dictionary) : List Text → List Token → Machine → Machine × Outcome
  | out, [], m => (m, .done out.reverse.flatten)
  | out, t :: ts, m =>
    match execute d t m with
    | (m, .done piece) => executeAll d (piece :: out) ts m
    | (m, o) => (m, o)

def okAnswer (out : Text) : Text := Text.space :: out ++ Text.ofString " ok"

/-- Runs a line outside a definition. -/
def immediate (i : Interpreter) (line : List Glyph) : Interpreter × Reply :=
  let scan := Token.scan line
  match executeAll i.dict [] scan.tokens i.machine with
  | (m, .done out) =>
    match scan.failure with
    | none => ({ i with machine := m }, .answer (okAnswer out))
    | some f => { i with machine := m }.fail f
  | (m, .failed _ f) => { i with machine := m }.fail f
  | (m, .broke word place) => ({ i with machine := m }, .fault (.unbalanced word place))

def endDefinition (i : Interpreter) : Interpreter :=
  { i with inDefinition := false, current := none }

/-- Adds the tokens of `body` to the definition in progress, and finishes it if the whole line
closes it. -/
def define (i : Interpreter) (draft : Draft) (line body : List Glyph) : Interpreter × Reply :=
  let scan := Token.scan body
  match Draft.addAll i.dict scan.tokens draft i.trace with
  | (_, t, some f) => (i.withTrace t).endDefinition.fail f
  | (draft, t, none) =>
    match scan.failure with
    | some f => (i.withTrace t).endDefinition.fail f
    | none =>
      if Token.closesDefinition line then
        let i := (i.withTrace t).event draft.compiledEvent
        ({ i with dict := draft.compile i.dict }.endDefinition, .answer (Text.ofString "  ok"))
      else ({ i.withTrace t with current := some draft }, .answer [])

/-- What the same line comes to when there is no definition: a fault, where one is needed. -/
def defineNone (i : Interpreter) (line body : List Glyph) : Interpreter × Reply :=
  match (Token.scan body).tokens, (Token.scan body).failure with
  | _ :: _, _ => (i, .fault .noDraft)
  | [], some f => i.endDefinition.fail f
  | [], none => if Token.closesDefinition line then (i, .fault .noDraft) else (i, .answer [])

/-- The name that an opening line gives to its definition, and what follows it. -/
def heading (line : List Glyph) : Except Failure (Text × List Glyph) :=
  match Token.next line with
  | (.error f, _) => .error f
  | (.ok _, rest) =>
    match Token.next rest with
    | (.error f, _) => .error f
    | (.ok t, rest) => .ok (t.text, rest)

/-- Opens a definition.  One that is open is given up, also if the new one has no name. -/
def startDefinition (i : Interpreter) (line : List Glyph) :
    Interpreter × Except Failure (List Glyph) :=
  match heading line with
  | .error f => (i.endDefinition, .error f)
  | .ok (name, body) =>
    ({ i.endDefinition.event (.opened name) with inDefinition := true, current := some { name } },
      .ok body)

/-- What of a line is left after a definition has been opened, if the line opens one. -/
def enter (i : Interpreter) (line : List Glyph) : Interpreter × Except Failure (List Glyph) :=
  if Token.opensDefinition line then i.startDefinition line else (i, .ok line)

/-- Reads a line without recording the line or the response. -/
def process (i : Interpreter) (line : List Glyph) : Interpreter × Reply :=
  match i.enter line with
  | (i, .error f) => i.fail f
  | (i, .ok body) =>
    if i.inDefinition then
      match i.current with
      | some draft => i.define draft line body
      | none => i.defineNone line body
    else i.immediate body

def readLine (i : Interpreter) (line : Text) : Interpreter × Reply :=
  match (i.event (.heard line)).process (Text.glyphs line) with
  | (i, .answer response) => (i.event (.replied response i.stack), .answer response)
  | (i, .fault why) => (i, .fault why)

end Interpreter

end LineForth
