import LineForth.Language.Cell

/-!
# Actions

A compiled definition is a flat list of actions.  A call names an entry of the dictionary by its
address.  The three markers of a conditional stay in the list, and are resolved each time the
definition runs: `fork` opens it, `other` starts an alternative, `join` ends it.
-/

namespace LineForth

inductive Marker
  | fork
  | other
  | join
deriving DecidableEq

def Marker.text : Marker → Text
  | .fork => Text.ofString "if"
  | .other => Text.ofString "else"
  | .join => Text.ofString "then"

inductive Action
  | call (name : Text) (address : Nat)
  | push (c : Cell)
  | print (t : Text)
  | mark (m : Marker)
deriving DecidableEq

namespace Action

def text : Action → Text
  | .call name _ => name
  | .push c => c.text
  | .print t => Text.ofString ".\" " ++ t ++ Text.ofString "\""
  | .mark m => m.text

/-- The kind of an action as a number; numbers past the last kind stand for no action. -/
def ofCode? (code : Nat) (name : Text) (address : Nat) (c : Cell) (t : Text) : Option Action :=
  match code with
  | 0 => some (.call name address)
  | 1 => some (.push c)
  | 2 => some (.print t)
  | 3 => some (.mark .fork)
  | 4 => some (.mark .other)
  | 5 => some (.mark .join)
  | _ => none

def textOf : Option Action → Text
  | some a => a.text
  | none => Text.ofString "<invalid>"

/-- The code of a definition under its name. -/
def listing (name : Text) (code : List Action) : Text :=
  Text.join [Text.space] (name :: code.map text)

end Action

end LineForth
