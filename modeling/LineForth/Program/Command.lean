import LineForth.Language.Dump
import LineForth.Program.Duration
import LineForth.Program.Files
import LineForth.Program.Transcript

/-!
# The command

The command reads lines from its standard input, echoes each with its response on its standard
output, and writes its log to its standard error.  `Command.parse` reads the flags,
`Command.execute` does the work of a run, and `Command.run` is a whole run with the files that it
finds and leaves.
-/

namespace LineForth.Command

inductive Flag
  | dump
  | history
  | tee
  | timeout
  | trace
deriving DecidableEq

structure Flags where
  dump : Bool := false
  history : Text := []
  tee : Text := []
  timeout : Int := 0
  trace : Bool := false
deriving DecidableEq

def Flag.ofName? (name : Text) : Option Flag :=
  if name = Text.ofString "dump" then some .dump
  else if name = Text.ofString "history" then some .history
  else if name = Text.ofString "tee" then some .tee
  else if name = Text.ofString "timeout" then some .timeout
  else if name = Text.ofString "trace" then some .trace
  else none

def Flag.isSwitch (f : Flag) : Bool := f = .dump || f = .trace

def truth? (t : Text) : Option Bool :=
  if ["1", "t", "T", "TRUE", "true", "True"].any (Text.ofString · = t) then some true
  else if ["0", "f", "F", "FALSE", "false", "False"].any (Text.ofString · = t) then some false
  else none

/-- The flags with one of them set, if the value can be read. -/
def Flags.set? (fs : Flags) (f : Flag) (value : Text) : Option Flags :=
  match f with
  | .dump => (truth? value).map fun b => { fs with dump := b }
  | .trace => (truth? value).map fun b => { fs with trace := b }
  | .history => some { fs with history := value }
  | .tee => some { fs with tee := value }
  | .timeout => (Duration.ofText? value).map fun n => { fs with timeout := n }

/-- An argument: the end of the flags, something that is no flag at all, or a flag with its value if
it has one. -/
inductive Argument
  | stop
  | lastStop
  | malformed
  | flag (name : Text) (value : Option Text)
deriving DecidableEq

def dash : UInt8 := 0x2D
def equals : UInt8 := 0x3D

def splitValue (b : UInt8) (name : Text) : Argument :=
  match name.dropWhile (· ≠ equals) with
  | [] => .flag (b :: name) none
  | _ :: value => .flag (b :: name.takeWhile (· ≠ equals)) (some value)

def Argument.ofName : Text → Argument
  | [] => .malformed
  | b :: name => if b = dash ∨ b = equals then .malformed else splitValue b name

def Argument.ofText : Text → Argument
  | a :: b :: name =>
    if a ≠ dash then .stop
    else if b ≠ dash then .ofName (b :: name)
    else if name.isEmpty then .lastStop
    else .ofName name
  | _ => .stop

/-- Why the arguments cannot be used: help was asked for, or something is wrong with them. -/
inductive Refusal
  | help
  | wrong (message : Text)
deriving DecidableEq

def isHelp (name : Text) : Bool := name = Text.ofString "help" || name = Text.ofString "h"

def wrongSwitch (name value : Text) : Refusal :=
  .wrong (Text.ofString "invalid boolean value " ++ Text.quoted value ++ Text.ofString " for -" ++
    name ++ Text.ofString ": parse error")

def wrongValue (name value : Text) : Refusal :=
  .wrong (Text.ofString "invalid value " ++ Text.quoted value ++ Text.ofString " for flag -" ++
    name ++ Text.ofString ": parse error")

def undefinedFlag (name : Text) : Refusal :=
  if isHelp name then .help
  else .wrong (Text.ofString "flag provided but not defined: -" ++ name)

def needsArgument (name : Text) : Refusal :=
  .wrong (Text.ofString "flag needs an argument: -" ++ name)

def badSyntax (argument : Text) : Refusal :=
  .wrong (Text.ofString "bad flag syntax: " ++ argument)

/-- Reads flags up to the first argument that is not one. -/
def parse (fs : Flags) : List Text → Except Refusal Flags
  | [] => .ok fs
  | a :: rest =>
    match Argument.ofText a with
    | .stop => .ok fs
    | .lastStop => .ok fs
    | .malformed => .error (badSyntax a)
    | .flag name value =>
      match Flag.ofName? name with
      | none => .error (undefinedFlag name)
      | some f =>
        if f.isSwitch then
          let v := value.getD (Text.ofString "true")
          match fs.set? f v with
          | none => .error (wrongSwitch name v)
          | some fs => parse fs rest
        else match value, rest with
          | some v, rest =>
            match fs.set? f v with
            | none => .error (wrongValue name v)
            | some fs => parse fs rest
          | none, [] => .error (needsArgument name)
          | none, v :: rest =>
            match fs.set? f v with
            | none => .error (wrongValue name v)
            | some fs => parse fs rest

/-- Where an interactive history is kept, if there is a home. -/
def historyPath (home : Text) : Text :=
  if home.isEmpty then [] else Path.join home (Text.ofString ".easyforth_history")

def usage (history : Text) : Text :=
  Text.ofString "Usage of easyforth:\n  -dump\n    \tdump the stack and dictionary on exit\n" ++
    Text.ofString "  -history string\n    \tinteractive history file" ++
    (if history.isEmpty then []
      else Text.ofString " (default " ++ Text.quoted history ++ Text.ofString ")") ++
    Text.ofString "\n  -tee string\n    \talso write output to a transcript file\n" ++
    Text.ofString "  -timeout duration\n    \tspecify a time limit\n" ++
    Text.ofString "  -trace\n    \tenable trace logging\n"

structure Refused where
  code : Nat
  text : Text

/-- What is said when the arguments cannot be used, and the code to end with. -/
def Refusal.report (history : Text) : Refusal → Refused
  | .help => ⟨0, usage history⟩
  | .wrong message => ⟨2, message ++ [Text.newline] ++ usage history⟩

structure Execution where
  code : Nat
  output : Text
  errors : Text

def settings (fs : Flags) (stdin : Text) : List Setting :=
  let stream := (Stream.ofText (Text.ofString "/dev/stdin") stdin none).closing none
  [.output Transcript.file] ++ (if fs.trace then [.trace] else []) ++
    (if fs.tee.isEmpty then [] else [.tee (Transcript.sink fs.tee)]) ++ [.input stream, .echo true]

def logProblem (j : Journal) : Option Problem → Journal
  | none => j
  | some p => j.error p.verbose

/-- The moments of a run, of which there are none if there is no time. -/
def moments (halt : Option Problem) (s : Session) : List Moment :=
  if halt.isSome then [] else s.moments (s.remaining + 1)

/-- What comes out on the standard output of a run that began with `start` and ended with `s`. -/
def output (device : Option Device) (halt : Option Problem) (start s : Session) : Text :=
  if device = some .output then Transcript.doubled (moments halt start)
  else (s.outlets.head?.map (·.sink.data)).getD []

/-- The log of a run, before anything is said of how it ended. -/
def journal (device : Option Device) (halt : Option Problem) (start s : Session) : Journal :=
  let j : Journal := ({} : Journal).setOutput { kind := .plain }
  if device = some .errors then
    Transcript.logMoments (Transcript.logLines j start.core.trace.lines) (moments halt start)
  else Transcript.logLines j s.core.trace.lines

/-- What follows from the first line on that begins a dump. -/
def fromDump : Text → Text
  | [] => []
  | b :: t =>
    if (Text.after? (Text.ofString "\n# Forth Dump") (b :: t)).isSome then t else fromDump t

/-- A log in which the stack of a crash is elided up to the dump; `acc` is what stands before, last
byte first. -/
def elideOnto (acc : Text) : Text → Text
  | [] => acc.reverse
  | b :: t =>
    match Text.after? Problem.stackHeading (b :: t) with
    | some rest =>
      acc.reverse ++ Problem.stackHeading ++ Text.ofString "...\n" ++ fromDump rest
    | none => elideOnto (b :: acc) t

/-- A run of the interpreter over its whole input. -/
def execute (fs : Flags) (stdin : Text) : Execution :=
  let start := Session.ofSettings (.ofList (settings fs stdin))
  let halt := if fs.timeout < 0 then some .deadlinePassed else none
  let device := Device.ofPath? fs.tee
  let (s, p) := start.interpret halt
  let j := logProblem (journal device halt start s) p
  let j := if fs.dump then (j.put s.core.dump).1 else j
  let j := logProblem j s.close.2
  { code := j.exitCode
    output := output device halt start s
    errors := elideOnto [] ((j.outputs.head?.map Sink.data).getD []) }

/-- What a run says when its transcript cannot be made. -/
def refuseTee (path : Text) (t : PathTrouble) : Execution :=
  let j := (({} : Journal).setOutput { kind := .plain }).error (t.opening path)
  { code := j.exitCode, output := [], errors := (j.outputs.head?.map Sink.data).getD [] }

/-- A whole run with its arguments, home, input and files. -/
def run (args : List Text) (home stdin : Text) (files : Files) : Execution × Files :=
  let history := historyPath home
  match parse { history } args with
  | .error r =>
    let refused := r.report history
    ({ code := refused.code, output := [], errors := refused.text }, files)
  | .ok fs =>
    if fs.tee.isEmpty then (execute fs stdin, files)
    else match files.create fs.tee with
      | .error t => (refuseTee fs.tee t, files)
      | .ok files =>
        let e := execute fs stdin
        (e, if (Device.ofPath? fs.tee).isSome then files else files.put fs.tee e.output)

end LineForth.Command
