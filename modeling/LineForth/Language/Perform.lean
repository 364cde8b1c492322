import LineForth.Language.Dictionary
import LineForth.Language.Machine

/-!
# Running compiled words

The actions of a definition are performed from left to right.  For each open conditional there is a
frame, innermost first, and only the innermost one decides whether an action is executed: the
conditional itself must be reached, and the branch must be the one that its condition selects.  A
conditional inside a branch that is skipped pops nothing.

`perform` takes the called words as a parameter.  `runAt` ties the knot over the entries of a
dictionary, newest first: an entry can call only the entries below it, so every word ends.
-/

namespace LineForth

/-- An open conditional: whether it was reached, whether the branch is its first, and its
condition. -/
structure Frame where
  reached : Bool
  firstBranch : Bool
  condition : Bool
deriving DecidableEq

def Frame.live (f : Frame) : Bool := f.reached && (f.condition == f.firstBranch)

/-- Whether actions under these frames are executed. -/
def executing : List Frame → Bool
  | [] => true
  | f :: _ => f.live

/-- How words are called: by address, on a machine. -/
abbrev Calls := Nat → Machine → Machine × Outcome

def Action.run (call : Calls) : Action → Machine → Machine × Outcome
  | .call _ address, m => call address m
  | .push c, m => (m.push c, .done [])
  | .print t, m => (m, .done t)
  | .mark _, m => (m, .done [])

/-- Performs a definition called `name`; `out` is its output so far, last piece first. -/
def perform (call : Calls) (name : Text) :
    List Frame → List Text → List Action → Machine → Machine × Outcome
  | [], out, [], m => (m, .done out.reverse.flatten)
  | _ :: _, _, [], m => (m, .broke name .atEnd)
  | fs, out, .mark .fork :: code, m =>
    if executing fs then
      match m.stack.pop? with
      | none => (m, .failed [] .stackUnderflow)
      | some (c, s) => perform call name (⟨true, true, c ≠ 0⟩ :: fs) out code { m with stack := s }
    else perform call name (⟨false, true, false⟩ :: fs) out code m
  | [], _, .mark .other :: _, m => (m, .broke name .atElse)
  | f :: fs, out, .mark .other :: code, m =>
    perform call name ({ f with firstBranch := false } :: fs) out code m
  | [], _, .mark .join :: _, m => (m, .broke name .atThen)
  | _ :: fs, out, .mark .join :: code, m => perform call name fs out code m
  | fs, out, a :: code, m =>
    if executing fs then
      match a.run call (m.event (.stepped name a)) with
      | (m, .done t) => perform call name fs (t :: out) code m
      | (m, .failed _ f) => (m, .failed [] f)
      | (m, .broke word place) => (m, .broke word place)
    else perform call name fs out code m

/-- What stands in front of a trace line for each compiled word that is running. -/
def indentation : Text := Text.ofString "  "

def runCompiled (call : Calls) (name : Text) (code : List Action) (m : Machine) :
    Machine × Outcome :=
  let (m', o) := perform call name [] [] code { m with trace := m.trace.indent indentation }
  ({ m' with trace := m'.trace.withLead m.trace.lead }, o)

def Meaning.run (call : Calls) : Meaning → Machine → Machine × Outcome
  | .marker _, m => (m, .done [])
  | .native p, m => m.primitive p
  | .host w, m => m.host w
  | .compiled name code, m => runCompiled call name code m

/-- Runs the entry at an address. -/
def runAt : List Entry → Calls
  | [], _, m => (m, .done [])
  | e :: older, address, m =>
    if e.address = address then e.meaning.run (runAt older) m else runAt older address m

def Dictionary.run (d : Dictionary) : Calls := runAt d.entries

end LineForth
