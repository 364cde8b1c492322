import LineForth.Text.Quoted

/-!
# Failures and faults

A failure is what a word or a token reports instead of a result.  All failures of the language are
recoverable: the line is answered with the message and the next line can be read.  A failure of a
word that the host supplied is not; it ends reading with a fault, as does a definition whose
conditionals do not balance, and one that is open but not there.
-/

namespace LineForth

inductive Failure
  | stackUnderflow
  | endOfInput
  | divisionByZero
  | tooManySpaces
  | missingWord (word : Text)
  | compileOnly (word : Text)
  | host (message : Text)
deriving DecidableEq

def Failure.message : Failure → Text
  | .stackUnderflow => Text.ofString "Stack underflow"
  | .endOfInput => Text.ofString "nextToken called with no more tokens"
  | .divisionByZero => Text.ofString "Division by zero"
  | .tooManySpaces => Text.ofString "Too many spaces"
  | .missingWord word => word ++ Text.ofString " ? "
  | .compileOnly word => word ++ Text.ofString " is compile-only"
  | .host message => message

def Failure.recoverable : Failure → Bool
  | .host _ => false
  | _ => true

/-- Where a definition's conditionals are found not to balance. -/
inductive Place
  | atElse
  | atThen
  | atEnd
deriving DecidableEq

def Place.text : Place → Text
  | .atElse => Text.ofString "else"
  | .atThen => Text.ofString "then"
  | .atEnd => Text.ofString "end"

inductive Fault
  | unbalanced (word : Text) (place : Place)
  | host (message : Text)
  /-- A definition is open, but there is none that anything could be done to. -/
  | noDraft
deriving DecidableEq

def unbalancedMessage (word place : Text) : Text :=
  Text.ofString "unbalanced control flow in " ++ Text.quoted word ++ Text.ofString " at " ++ place

def noDraftMessage : Text :=
  Text.ofString "runtime error: invalid memory address or nil pointer dereference"

def Fault.message : Fault → Text
  | .unbalanced word place => unbalancedMessage word place.text
  | .host message => message
  | .noDraft => noDraftMessage

end LineForth
