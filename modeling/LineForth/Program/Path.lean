import LineForth.Text

/-!
# Paths

A path is cleaned by dropping empty parts and single dots, and by letting a double dot take away the
part before it.  Double dots at the start of a relative path stay.
-/

namespace LineForth.Path

def slash : UInt8 := 0x2F
def dot : Text := Text.ofString "."
def dots : Text := Text.ofString ".."

def parts (p : Text) : List Text := Text.splitOn slash p

/-- The names that a path leads through; empty parts do not count. -/
def names (p : Text) : List Text := (parts p).filter fun part => !part.isEmpty

/-- The name that a path ends with, empty if there is none. -/
def lastName (p : Text) : Text := (names p).getLast?.getD []

/-- Whether a path ends with a slash. -/
def trailing (p : Text) : Bool := p.getLast? = some slash

def rooted (p : Text) : Bool := p.head? = some slash

/-- Adds a part to a clean path, last part first. -/
def enter (rooted : Bool) (clean : List Text) (part : Text) : List Text :=
  if part = [] ∨ part = dot then clean
  else if part = dots then
    match clean with
    | [] => if rooted then [] else [dots]
    | top :: rest => if top = dots then dots :: clean else rest
  else part :: clean

def clean (p : Text) : Text :=
  let body := Text.join [slash] ((parts p).foldl (enter (rooted p)) []).reverse
  if rooted p then slash :: body else if body.isEmpty then dot else body

def join (dir name : Text) : Text := clean (dir ++ slash :: name)

end LineForth.Path
