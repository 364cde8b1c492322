import LineForth.Text.Format.Style

/-!
# Arguments

An argument of a format is an integer or a text, and is shown as its verb says.  A verb that does
not fit is shown together with the type and the value.
-/

namespace LineForth.Format

inductive Arg
  | int (n : Int)
  | text (t : Text)
deriving DecidableEq

namespace Arg

def type : Arg → Text
  | .int _ => Text.ofString "int"
  | .text _ => Text.ofString "string"

/-- The value as such. -/
def value (s : Style) : Arg → Text
  | .int n => s.integer 10 false [] n
  | .text t => if s.source then s.quoted t else s.plain t

/-- The value with its type. -/
def typed (s : Style) (a : Arg) : Text := a.type ++ Text.ofString "=" ++ a.value s

def intBy? (s : Style) (n : Int) (verb : Char) : Option Text :=
  match verb with
  | 'd' => some (s.integer 10 false [] n)
  | 'b' => some (s.integer 2 false [] n)
  | 'o' => some (s.integer 8 false [] n)
  | 'O' => some (s.integer 8 false (Text.ofString "0o") n)
  | 'x' => some (s.integer 16 false [] n)
  | 'X' => some (s.integer 16 true [] n)
  | 'c' => some (s.character n)
  | 'q' => some (s.quotedCharacter n)
  | 'U' => some (s.codePoint n)
  | _ => none

def textBy? (s : Style) (t : Text) (verb : Char) : Option Text :=
  match verb with
  | 's' => some (s.plain t)
  | 'q' => some (s.quoted t)
  | 'x' => some (s.hex false t)
  | 'X' => some (s.hex true t)
  | _ => none

/-- The argument as a verb shows it, if the verb fits. -/
def forVerb? (s : Style) (verb : Char) (a : Arg) : Option Text :=
  if verb = 'T' then some (s.plain a.type)
  else if verb = 'v' then some (a.value s)
  else match a with
    | .int n => intBy? s n verb
    | .text t => textBy? s t verb

end Arg

/-- What is said of a verb that cannot be carried out. -/
def misfit (verb : Char) (what : Text) : Text :=
  Text.ofString "%!" ++ charBytes verb ++ Text.ofString "(" ++ what ++ Text.ofString ")"

def Arg.shown (s : Style) (verb : Char) (a : Arg) : Text :=
  (a.forVerb? s verb).getD (misfit verb (a.typed s))

end LineForth.Format
