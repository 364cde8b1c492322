import LineForth.Language.Action
import LineForth.Language.Primitive
import LineForth.Text.LowerCase

/-!
# The dictionary

Names are compared in lower case, and every name ever defined keeps its place in the list of names;
its symbol is that place, counted from one.  Entries are only ever added.  They are kept newest
first, each with its address, counted from one in the order of definition, so looking up a name
finds the newest entry for it and older ones are shadowed.
-/

namespace LineForth

/-- What a name stands for. -/
inductive Meaning
  | marker (m : Marker)
  | native (p : Primitive)
  | host (w : HostWord)
  | compiled (name : Text) (code : List Action)
deriving DecidableEq

structure Entry where
  address : Nat
  symbol : Nat
  meaning : Meaning
deriving DecidableEq

structure Dictionary where
  names : List Text := []
  entries : List Entry := []
deriving DecidableEq

def Meaning.marker? : Meaning → Option Marker
  | .marker m => some m
  | _ => none

def Meaning.code? : Meaning → Option (List Action)
  | .compiled _ code => some code
  | _ => none

namespace Dictionary

/-- The symbol of a name, zero if it was never defined. -/
def symbol (d : Dictionary) (name : Text) : Nat :=
  match d.names.idxOf? (Text.fold name) with
  | some i => i + 1
  | none => 0

/-- The name of a symbol, empty if there is none. -/
def spelling (d : Dictionary) (symbol : Nat) : Text :=
  match symbol with
  | 0 => []
  | i + 1 => d.names[i]?.getD []

def intern (d : Dictionary) (name : Text) : Dictionary :=
  if d.symbol name = 0 then { d with names := d.names ++ [Text.fold name] } else d

/-- The address after that of the newest entry. -/
def nextAddress (d : Dictionary) : Nat :=
  match d.entries with
  | [] => 1
  | e :: _ => e.address + 1

def add (d : Dictionary) (name : Text) (meaning : Meaning) : Dictionary :=
  let d := d.intern name
  { d with entries := ⟨d.nextAddress, d.symbol name, meaning⟩ :: d.entries }

/-- The newest entry for a name. -/
def lookup (d : Dictionary) (name : Text) : Option Entry :=
  match d.symbol name with
  | 0 => none
  | symbol => d.entries.find? fun e => e.symbol = symbol

end Dictionary

end LineForth
