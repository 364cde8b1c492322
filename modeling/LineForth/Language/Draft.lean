import LineForth.Language.Dictionary
import LineForth.Language.Token
import LineForth.Language.Trace

/-!
# Definitions in progress

A draft collects the actions of a definition.  Each token is resolved when it is added, against the
dictionary of that moment, so entries added later do not change it.  A token is a word or marker of
the dictionary if there is one, quoted or not; otherwise a number; otherwise a text to print if it
was quoted; and a semicolon adds nothing.
-/

namespace LineForth

structure Draft where
  name : Text
  code : Array Action := #[]
deriving DecidableEq

namespace Draft

def semicolon : Text := Text.ofString ";"

/-- The action that a token stands for; none for a semicolon. -/
def resolve (d : Dictionary) (t : Token) : Except Failure (Option Action) :=
  match d.lookup t.text with
  | some e =>
    match e.meaning.marker? with
    | some m => .ok (some (.mark m))
    | none => .ok (some (.call (Text.fold t.text) e.address))
  | none =>
    match Cell.ofText? t.text with
    | some c => .ok (some (.push c))
    | none =>
      if t.quoted then .ok (some (.print t.text))
      else if t.text = semicolon then .ok none
      else .error (.missingWord t.text)

def add (d : Dictionary) (t : Token) (draft : Draft) (trace : Trace) :
    Draft × Trace × Option Failure :=
  match resolve d t with
  | .ok (some a) =>
    let trace := trace.event (.added draft.name draft.code.size a)
    ({ draft with code := draft.code.push a }, trace, none)
  | .ok none => (draft, trace, none)
  | .error f => (draft, trace, some f)

/-- Adds tokens up to the first one that fails. -/
def addAll (d : Dictionary) : List Token → Draft → Trace → Draft × Trace × Option Failure
  | [], draft, trace => (draft, trace, none)
  | t :: ts, draft, trace =>
    match draft.add d t trace with
    | (draft, trace, none) => addAll d ts draft trace
    | (draft, trace, some f) => (draft, trace, some f)

/-- The dictionary with the finished definition. -/
def compile (d : Dictionary) (draft : Draft) : Dictionary :=
  d.add draft.name (.compiled draft.name draft.code.toList)

def compiledEvent (draft : Draft) : Event := .compiled draft.name draft.code.size

def listing (draft : Draft) : Text := Action.listing draft.name draft.code.toList

end Draft

end LineForth
