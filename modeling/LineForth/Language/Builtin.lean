import LineForth.Language.Interpreter

/-!
# The builtin dictionary

The primitives, the markers of conditionals, and two words that are compiled from source like any
other definition.
-/

namespace LineForth

def primitives : List (String × Primitive) :=
  [(".", .dot), (".s", .dotS), ("+", .add), ("*", .mul), ("/", .div), ("/mod", .divMod),
    ("mod", .mod), ("=", .eq), ("<", .lt), (">", .gt), ("emit", .emit), ("swap", .swap),
    ("dup", .dup), ("over", .over), ("rot", .rot), ("drop", .drop)]

def markers : List (String × Marker) := [("if", .fork), ("else", .other), ("then", .join)]

def sources : List String := [": cr 10 emit ;", ": space 32 emit ;"]

namespace Interpreter

def install (i : Interpreter) (name : Text) (meaning : Meaning) : Interpreter :=
  { i with dict := i.dict.add name meaning }

/-- Adds the builtin words. -/
def boot (i : Interpreter) : Interpreter :=
  let i := primitives.foldl (fun i w => i.install (Text.ofString w.1) (.native w.2)) i
  let i := markers.foldl (fun i w => i.install (Text.ofString w.1) (.marker w.2)) i
  let i := sources.foldl (fun i s => (i.readLine (Text.ofString s)).1) i
  i.install (Text.ofString "spaces") (.native .spaces)

end Interpreter

end LineForth
