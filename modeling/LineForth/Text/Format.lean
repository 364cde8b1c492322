import LineForth.Text.Format.Directive

/-!
# Formats

A format is a text in which directives stand for arguments: a percent sign, perhaps flags, a width
and a precision, and a verb.  `%v` is the value as such, `%s` a text, `%d` a number, `%q` a quoted
text, and `%%` a percent sign.  A verb that does not fit its argument, a missing argument and
arguments left over are shown in the text, never an error.
-/

namespace LineForth.Format

def verbOf : Glyph → Char
  | .char c => c
  | .stray _ => replacement

/-- What a directive stands for with its verb, and the place of the next argument. -/
def Directive.finish (args : List Arg) (verb : Char) (d : Directive) : Text × Nat :=
  let place := d.reading.place
  if verb = '%' then (charBytes '%', place)
  else if !d.possible then
    (Text.ofString "%!" ++ charBytes verb ++ Text.ofString "(BADINDEX)", place)
  else match args[place]? with
    | none => (misfit verb (Text.ofString "MISSING"), place)
    | some a => (a.shown (d.style.forVerb verb) verb, place + 1)

/-- What is said of a directive without a verb. -/
def noVerb : Text := Text.ofString "%!(NOVERB)"

/-- The pieces of the rendered format on top of `acc`, last one first, and the reading at its end. -/
def pieces (args : List Arg) : Nat → List Text → Reading → List Text × Reading
  | 0, acc, r => (acc, r)
  | fuel + 1, acc, r =>
    match r.rest with
    | [] => (acc, r)
    | .char '%' :: gs =>
      let d := Directive.read args { r with rest := gs }
      match d.rest with
      | [] => (noVerb :: d.complaints :: acc, d.reading)
      | g :: gs =>
        let (t, place) := d.finish args (verbOf g)
        pieces args fuel (t :: d.complaints :: acc) { d.reading with rest := gs, place }
    | g :: gs => pieces args fuel (g.bytes :: acc) { r with rest := gs }

def surplus (args : List Arg) : Text :=
  Text.ofString "%!(EXTRA " ++ Text.join (Text.ofString ", ") (args.map (Arg.typed {})) ++
    Text.ofString ")"

/-- Each step reads at least one glyph, so there are no more steps than glyphs.  Arguments left over
are shown unless some argument was chosen by its number. -/
def render (format : Text) (args : List Arg) : Text :=
  let gs := Text.glyphs format
  let (acc, r) := pieces args gs.length [] { rest := gs }
  acc.reverse.flatten ++
    if r.chosen || args.length ≤ r.place then [] else surplus (args.drop r.place)

/-- A message with no arguments is taken as it is. -/
def message (format : Text) (args : List Arg) : Text :=
  if args.isEmpty then format else render format args

end LineForth.Format
