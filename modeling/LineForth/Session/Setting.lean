import LineForth.Input
import LineForth.Language.Stack
import LineForth.Output.Sink

/-!
# Settings

A session is set up by a list of settings, applied in order.  Settings can be grouped, groups can be
nested, and places can be left empty; what counts is the list of the settings that are there.
Grouping never nests: `Settings.combine` takes in whole lists, and a single setting stays itself.
-/

namespace LineForth

/-- A source of lines that the host supplies in place of streams. -/
structure LineSource where
  lines : List Text
  /-- What comes after these lines: problems, and lines again. -/
  later : List (Problem ⊕ Text) := []
  /-- What follows all of it, if not the end of input. -/
  trouble : Option Problem := none
  closable : Bool := false
  closeTrouble : Option Problem := none
deriving DecidableEq

def LineSource.read (s : LineSource) : LineSource × Except Problem Text :=
  match s.lines, s.later with
  | l :: lines, _ => ({ s with lines }, .ok l)
  | [], r :: later => ({ s with later }, r.elim .error .ok)
  | [], [] => (s, .error (s.trouble.getD .endOfFile))

inductive Setting
  | input (s : Stream)
  | lines (s : LineSource)
  | output (s : Sink)
  | tee (s : Sink)
  | echo (value : Bool)
  /-- Gives the trace to a listener, named by its key, or to none. -/
  | trace (listener : Option Nat := some 0)
  | stack (cells : List Cell)
deriving DecidableEq

/-- One setting, or a list of any other number of them. -/
inductive Settings
  | single (s : Setting)
  | many (ss : List Setting)
deriving DecidableEq

namespace Settings

def toList : Settings → List Setting
  | .single s => [s]
  | .many ss => ss

def ofList : List Setting → Settings
  | [s] => .single s
  | ss => .many ss

def listed : Option Settings → List Setting
  | none => []
  | some ss => ss.toList

def combine (given : List (Option Settings)) : Settings := ofList (given.flatMap listed)

end Settings

/-- Settings as the host writes them down. -/
inductive SettingTree
  | absent
  | one (s : Setting)
  | group (ts : List SettingTree)

namespace SettingTree

mutual

def value : SettingTree → Option Settings
  | .absent => none
  | .one s => some (.single s)
  | .group ts => some (Settings.combine (values ts))

def values : List SettingTree → List (Option Settings)
  | [] => []
  | t :: ts => t.value :: values ts

end

end SettingTree

end LineForth
