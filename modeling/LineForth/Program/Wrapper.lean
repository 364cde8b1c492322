import LineForth.Program.Command

/-!
# Wrappers for test builders

A test case is built by methods that take arguments.  For each such method found in a source file,
one function is written that takes the same parameters and returns the method as a function on test
cases.  A method is recognised by its heading (`Builder.ofLine?`): its name is as short as can be,
and then so is its list of parameters.
-/

namespace LineForth

structure Builder where
  base : Text
  what : Text
  params : Text
deriving DecidableEq

namespace Builder

def receiver : Text := Text.ofString "func (ft forthTestCase) "

def bases : List Text := [Text.ofString "expect", Text.ofString "with"]

def paramsEnd : Text := Text.ofString ") forthTestCase"

/-- The shortest text before `stop`, not counting what `acc` holds, last byte first. -/
def untilOnto (stop : Text) (acc : Text) : Text → Option Text
  | [] => none
  | b :: t =>
    if !acc.isEmpty && (Text.after? stop (b :: t)).isSome then some acc.reverse
    else untilOnto stop (b :: acc) t

/-- The shortest text that is not empty and has `stop` after it. -/
def shortestBefore? (stop t : Text) : Option Text := untilOnto stop [] t

/-- A name and parameters, each as short as can be.  The name ends at the first parenthesis after
its first byte: if no parameters follow there, none follow later. -/
def split? : Text → Option (Text × Text)
  | [] => none
  | b :: t =>
    match t.dropWhile (· ≠ 0x28) with
    | [] => none
    | _ :: rest =>
      (shortestBefore? paramsEnd rest).map fun params => (b :: t.takeWhile (· ≠ 0x28), params)

def ofLine? (line : Text) : Option Builder :=
  match Text.after? receiver line with
  | none => none
  | some rest =>
    bases.findSome? fun base =>
      match Text.after? base rest with
      | none => none
      | some rest => (split? rest).map fun (what, params) => ⟨base, what, params⟩

def dots : Text := Text.ofString "..."

/-- The argument that passes on a parameter; a blank one has no name. -/
def argument? (param : Text) : Option Text :=
  match Text.fields param with
  | [] => none
  | [name] => some name
  | name :: type :: _ =>
    some (if (Text.after? dots type).isSome then name ++ dots else name)

def arguments? (params : Text) : Option (List Text) :=
  (Text.splitOn 0x2C params).mapM argument?

def text (b : Builder) (arguments : List Text) : Text :=
  Text.ofString "func " ++ b.base ++ Text.ofString "Forth" ++ b.what ++ Text.ofString "(" ++
    b.params ++ Text.ofString ") func(forthTestCase) forthTestCase \x7b\n" ++
    Text.ofString "\treturn func(ft forthTestCase) forthTestCase \x7b\n" ++
    Text.ofString "\t\treturn ft." ++ b.base ++ b.what ++ Text.ofString "(" ++
    Text.join (Text.ofString ", ") arguments ++ Text.ofString ")\n\t\x7d\n\x7d\n\n"

def wrapper? (b : Builder) : Option Text := (arguments? b.params).map b.text

end Builder

namespace Generator

/-- How the generator ends early. -/
inductive Stop
  /-- A parameter is blank. -/
  | blankParameter
  | fatal (message : Text)
deriving DecidableEq

def Stop.message : Stop → Text
  | .blankParameter =>
    Text.ofString "panic: runtime error: index out of range [0] with length 0"
  | .fatal message => message ++ [Text.newline]

def header (name : Text) (args : List Text) : Text :=
  Text.ofString "package main\n\n// @generated from " ++ name ++ Text.ofString "\n\n" ++
    if 2 ≤ args.length then
      Text.ofString "//go:generate go run scripts/gen_forth_expects.go --" ++
        (args.flatMap fun a => Text.space :: a) ++ Text.ofString "\n\n"
    else []

/-- The wrappers of the lines that are headings of builder methods. -/
def wrappers? (lines : List Text) : Option (List Text) :=
  (lines.filterMap Builder.ofLine?).mapM Builder.wrapper?

/-- The whole output; it has a header as soon as there is a line. -/
def generate (name : Text) (args : List Text) (source : Text) : Except Stop Text :=
  let cut := Lines.ofText source
  match wrappers? cut.lines with
  | none => .error .blankParameter
  | some ws =>
    if cut.overlong then .error (.fatal Problem.lineTooLong.message)
    else .ok (if cut.lines.isEmpty then [] else header name args ++ ws.flatten)

/-- The arguments after the flags, of which there are none to be set; otherwise the code to end
with. -/
def operands : List Text → Except Nat (List Text)
  | [] => .ok []
  | a :: rest =>
    match Command.Argument.ofText a with
    | .stop => .ok (a :: rest)
    | .lastStop => .ok rest
    | .malformed => .error 2
    | .flag name _ => .error (if Command.isHelp name then 0 else 2)

structure Execution where
  code : Nat
  output : Text
  files : Files

def opened (name : Text) (files : Files) : Except Stop Files.Opened :=
  match files.access name with
  | .ok found => .ok found
  | .error t =>
    .error (.fatal (Text.ofString "failed to open " ++ name ++ Text.ofString ": " ++
      t.opening name))

/-- What is read from a device.  Of zeros without end, a line that is too long is enough. -/
def deviceText (stdin : Text) : Device → Text
  | .input => stdin
  | .zero | .full => List.replicate Lines.limit 0
  | _ => []

/-- The contents of what was opened; a directory has none to read. -/
def contents (name stdin : Text) : Files.Opened → Except Stop Text
  | .text t => .ok t
  | .device d => .ok (deviceText stdin d)
  | .directory =>
    .error (.fatal (Text.ofString "read " ++ name ++ Text.ofString ": " ++
      PathTrouble.directory.message))

/-- The files with an empty output file, if one is named. -/
def target (args : List Text) (files : Files) : Except Stop Files :=
  match args with
  | _ :: name :: _ =>
    match files.create name with
    | .ok files => .ok files
    | .error t =>
      .error (.fatal (Text.ofString "failed to create " ++ name ++ Text.ofString ": " ++
        t.opening name))
  | _ => .ok files

/-- The name of the standard input. -/
def standardInput : Text := Text.ofString "/dev/stdin"

/-- The name and contents of the input, and the files with the output file, which is made between
opening the input and reading it. -/
def prepare (args : List Text) (stdin : Text) (files : Files) :
    Except Stop (Text × Text × Files) :=
  match args with
  | [] => .ok (standardInput, stdin, files)
  | name :: _ => do
    let _ ← opened name files
    let files ← target args files
    let text ← contents name stdin (← opened name files)
    return (name, text, files)

/-- Puts the output where it goes; a device without room stops the program that writes it. -/
def deliver (path output : Text) (files : Files) : Except Stop Execution :=
  match Device.ofPath? path with
  | none => .ok ⟨0, [], files.put path output⟩
  | some .output => .ok ⟨0, output, files⟩
  | some .full =>
    if output.isEmpty then .ok ⟨0, [], files⟩
    else .error (.fatal (Text.ofString "goimports run failed: exit status 1"))
  | some _ => .ok ⟨0, [], files⟩

def run (args : List Text) (stdin : Text) (files : Files) : Except Stop Execution :=
  match operands args with
  | .error code => .ok ⟨code, [], files⟩
  | .ok args =>
    match prepare args stdin files with
    | .error stop => .error stop
    | .ok (name, text, files) =>
      match generate name args text with
      | .error stop => .error stop
      | .ok output =>
        match args with
        | _ :: path :: _ => deliver path output files
        | _ => .ok ⟨0, output, files⟩

end Generator

end LineForth
