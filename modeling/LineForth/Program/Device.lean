import LineForth.Program.Path

/-!
# Devices

Some paths lead to no file of the working directory but to a device: the standard streams of the
program, under several names, and a few files that every system has.
-/

namespace LineForth

inductive Device
  /-- Always empty; what is written to it is gone. -/
  | null
  /-- Zeros without end; what is written to it is gone. -/
  | zero
  /-- Zeros without end, and never any room. -/
  | full
  | input
  | output
  | errors
  /-- The terminal, which a program in a pipeline does not have. -/
  | terminal
deriving DecidableEq

namespace Device

def names : List (String × Device) :=
  [("/dev/null", .null), ("/dev/zero", .zero), ("/dev/random", .zero), ("/dev/urandom", .zero),
    ("/dev/full", .full), ("/dev/tty", .terminal),
    ("/dev/stdin", .input), ("/dev/fd/0", .input), ("/proc/self/fd/0", .input),
    ("/dev/stdout", .output), ("/dev/fd/1", .output), ("/proc/self/fd/1", .output),
    ("/dev/stderr", .errors), ("/dev/fd/2", .errors), ("/proc/self/fd/2", .errors)]

/-- The device that a path leads to. -/
def ofPath? (path : Text) : Option Device :=
  (names.find? fun d => Text.ofString d.1 = Path.clean path).map Prod.snd

/-- The directories that every system has. -/
def directories : List String :=
  ["/", "/bin", "/dev", "/dev/fd", "/dev/pts", "/dev/shm", "/etc", "/home", "/lib", "/media", "/mnt",
    "/opt", "/proc", "/proc/self", "/proc/self/fd", "/root", "/run", "/sbin", "/srv", "/sys", "/tmp",
    "/usr", "/var"]

/-- The directories in which no file can be made. -/
def closedDirectories : List String := ["/dev/fd/", "/proc/"]

def isDirectory (name : Text) : Bool := directories.any (Text.ofString · = name)

def isClosed (name : Text) : Bool :=
  closedDirectories.any fun d => (Text.after? (Text.ofString d) name).isSome

end Device

end LineForth
