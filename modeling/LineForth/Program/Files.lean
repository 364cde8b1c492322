import LineForth.Program.Device

/-!
# Files

The files of a working directory, by clean path.  A path with several names leads through
directories, which exist if some file lies in them, if they lead out of the working directory, or if
every system has them.  A path can also lead to a device.
-/

namespace LineForth

structure Files where
  entries : List (Text × Text) := []

inductive PathTrouble
  | missing
  | directory
  | notDirectory
  | invalid
  | tooLong
  | noDevice
deriving DecidableEq

def PathTrouble.message : PathTrouble → Text
  | .missing => Text.ofString "no such file or directory"
  | .directory => Text.ofString "is a directory"
  | .notDirectory => Text.ofString "not a directory"
  | .invalid => Text.ofString "invalid argument"
  | .tooLong => Text.ofString "file name too long"
  | .noDevice => Text.ofString "no such device or address"

/-- What is said of a path that could not be opened. -/
def PathTrouble.opening (t : PathTrouble) (path : Text) : Text :=
  Text.ofString "open " ++ path ++ Text.ofString ": " ++ t.message

namespace Files

def get? (fs : Files) (path : Text) : Option Text :=
  (fs.entries.find? fun e => e.1 = Path.clean path).map Prod.snd

def put (fs : Files) (path text : Text) : Files :=
  let name := Path.clean path
  ⟨fs.entries.filter (fun e => e.1 ≠ name) ++ [(name, text)]⟩

/-- Whether a clean path is a directory. -/
def isDirectory (fs : Files) (name : Text) : Bool :=
  name = Path.dot || (Path.parts name).all (· = Path.dots) || Device.isDirectory name ||
    fs.entries.any fun e => (Text.after? (name ++ [Path.slash]) e.1).isSome

/-- The most bytes in one name. -/
def nameLimit : Nat := 255

/-- The least number of bytes that is too many for a whole path. -/
def pathLimit : Nat := 4096

/-- The first trouble on the way through directories; `passed` is the path to the first of them. -/
def walk (fs : Files) (passed : Text) : List Text → Option PathTrouble
  | [] => none
  | name :: rest =>
    let here := passed ++ name
    if nameLimit < name.length then some .tooLong
    else if fs.isDirectory (Path.clean here) then fs.walk (here ++ [Path.slash]) rest
    else if (fs.get? here).isSome || (Device.ofPath? here).isSome then some .notDirectory
    else some .missing

/-- The trouble on the way to the last name of a path. -/
def trouble? (fs : Files) (path : Text) : Option PathTrouble :=
  if path.isEmpty then some .missing
  else if path.contains 0 then some .invalid
  else if pathLimit ≤ path.length then some .tooLong
  else fs.walk (if Path.rooted path then [Path.slash] else []) (Path.names path).dropLast

/-- Whether the last name of a path can only be a directory. -/
def endsInDots (path : Text) : Bool :=
  Path.lastName path = [] || Path.lastName path = Path.dot || Path.lastName path = Path.dots

/-- Makes a new file, or empties the one that is there.  A slash at the end asks for a directory,
whatever there is.  A device is not changed. -/
def create (fs : Files) (path : Text) : Except PathTrouble Files :=
  match fs.trouble? path with
  | some t => .error t
  | none =>
    if endsInDots path || Path.trailing path then .error .directory
    else if nameLimit < (Path.lastName path).length then .error .tooLong
    else if fs.isDirectory (Path.clean path) then .error .directory
    else match Device.ofPath? path with
      | some .terminal => .error .noDevice
      | some _ => .ok fs
      | none => if Device.isClosed (Path.clean path) then .error .missing else .ok (fs.put path [])

/-- What can be opened for reading. -/
inductive Opened
  | text (t : Text)
  | directory
  | device (d : Device)
deriving DecidableEq

/-- What a path leads to, apart from the way to it. -/
def find? (fs : Files) (path : Text) : Option Opened :=
  match Device.ofPath? path, fs.get? path with
  | some d, _ => some (.device d)
  | none, some t => some (.text t)
  | none, none => if fs.isDirectory (Path.clean path) then some .directory else none

/-- Opens a file for reading.  Only a directory can have a slash after its name. -/
def access (fs : Files) (path : Text) : Except PathTrouble Opened :=
  match fs.trouble? path with
  | some t => .error t
  | none =>
    if nameLimit < (Path.lastName path).length then .error .tooLong
    else match fs.find? path with
      | none => .error .missing
      | some .directory => .ok .directory
      | some found =>
        if Path.trailing path then .error .notDirectory
        else if found = .device .terminal then .error .noDevice
        else .ok found

end Files

end LineForth
