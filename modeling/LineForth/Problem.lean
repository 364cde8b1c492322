import LineForth.Language.Failure
import LineForth.Location

/-!
# Problems

The errors of a session.  A problem may have a cause: it can carry a note or a location, or record
the crash of a task.  `Problem.causes` is the whole chain, and `Problem.kind` classifies a problem by
the gravest link of it.  The verbose text of a crash ends with the stack of the crash, which is
always elided.
-/

namespace LineForth

inductive Problem
  | failure (f : Failure)
  | unbalanced (word place : Text)
  | endOfFile
  | lineTooLong
  | shortWrite
  | cancelled
  | deadlinePassed
  | plain (message : Text)
  | noted (note : Text) (cause : Problem)
  | located (location : Location) (cause : Problem)
  /-- A location with nothing behind it. -/
  | unexplained (location : Location)
  /-- A task that crashed with a problem. -/
  | crashed (task : Text) (cause : Problem)
  /-- A task that crashed with some other value. -/
  | aborted (task : Text) (value : Text)
  /-- A task that ended without returning. -/
  | exited (task : Text)
deriving DecidableEq

/-- The kinds of problems, gravest first. -/
inductive Kind
  | crash
  | exit
  | stackUnderflow
  | endOfInput
  | divisionByZero
  | tooManySpaces
  | missingWord
  | compileOnly
  | cancelled
  | endOfFile
  | lineTooLong
  | shortWrite
  | other
deriving DecidableEq

def Kind.byGravity : List Kind :=
  [.crash, .exit, .stackUnderflow, .endOfInput, .divisionByZero, .tooManySpaces, .missingWord,
    .compileOnly, .cancelled, .endOfFile, .lineTooLong, .shortWrite]

def Failure.kind : Failure → Kind
  | .stackUnderflow => .stackUnderflow
  | .endOfInput => .endOfInput
  | .divisionByZero => .divisionByZero
  | .tooManySpaces => .tooManySpaces
  | .missingWord _ => .missingWord
  | .compileOnly _ => .compileOnly
  | .host _ => .other

namespace Problem

def ofFailure : Failure → Problem
  | .host message => .plain message
  | f => .failure f

def ofFault : Fault → Problem
  | .unbalanced word place => .unbalanced word place.text
  | .host message => .plain message
  | .noDraft => .plain noDraftMessage

def crashLead (task : Text) : Text :=
  (if task.isEmpty then [] else task ++ [Text.space]) ++ Text.ofString "panicked: "

def message : Problem → Text
  | .failure f => f.message
  | .unbalanced word place => unbalancedMessage word place
  | .endOfFile => Text.ofString "EOF"
  | .lineTooLong => Text.ofString "bufio.Scanner: token too long"
  | .shortWrite => Text.ofString "short write"
  | .cancelled => Text.ofString "context canceled"
  | .deadlinePassed => Text.ofString "context deadline exceeded"
  | .plain message => message
  | .noted note cause => note ++ Text.ofString ": " ++ cause.message
  | .located location cause => location.text ++ Text.ofString ": " ++ cause.message
  | .unexplained location => location.text ++ Text.ofString ": <nil>"
  | .crashed task cause => crashLead task ++ cause.message
  | .aborted task value => crashLead task ++ value
  | .exited task =>
    if task.isEmpty then Text.ofString "runtime.Goexit called"
    else task ++ Text.ofString " called runtime.Goexit"

def cause? : Problem → Option Problem
  | .noted _ cause => some cause
  | .located _ cause => some cause
  | .crashed _ cause => some cause
  | _ => none

/-- The problem, its cause, the cause of that, and so on. -/
def causes : Problem → List Problem
  | .noted note cause => .noted note cause :: cause.causes
  | .located location cause => .located location cause :: cause.causes
  | .crashed task cause => .crashed task cause :: cause.causes
  | p => [p]

def ownKind : Problem → Kind
  | .failure f => f.kind
  | .endOfFile => .endOfFile
  | .lineTooLong => .lineTooLong
  | .shortWrite => .shortWrite
  | .cancelled => .cancelled
  | .crashed _ _ => .crash
  | .aborted _ _ => .crash
  | .exited _ => .exit
  | _ => .other

def has (p : Problem) (k : Kind) : Bool := p.causes.any (·.ownKind = k)

def kind (p : Problem) : Kind := (Kind.byGravity.find? p.has).getD .other

def isCrash (p : Problem) : Bool := p.has .crash

def isExit (p : Problem) : Bool := p.has .exit

def location? (p : Problem) : Option Location :=
  p.causes.findSome? fun
    | .located l _ => some l
    | .unexplained l => some l
    | _ => none

/-- The word and place of an unbalanced conditional among the causes. -/
def unbalanced? (p : Problem) : Option (Text × Text) :=
  p.causes.findSome? fun
    | .unbalanced word place => some (word, place)
    | _ => none

/-- A crash shows its stack; a location passes that on, a note does not. -/
def showsStack : Problem → Bool
  | .crashed _ _ => true
  | .aborted _ _ => true
  | .located _ cause => cause.showsStack
  | _ => false

def stackHeading : Text := Text.ofString "\nPanic stack: "

/-- Replaces everything after the first stack heading; `acc` is what stands before, last byte
first. -/
def elideOnto (acc : Text) : Text → Text
  | [] => acc.reverse
  | b :: t =>
    match Text.after? stackHeading (b :: t) with
    | some _ => acc.reverse ++ stackHeading ++ Text.ofString "..."
    | none => elideOnto (b :: acc) t

def elideStack (t : Text) : Text := elideOnto [] t

def verbose (p : Problem) : Text :=
  elideStack (p.message ++ if p.showsStack then stackHeading else [])

end Problem

end LineForth
