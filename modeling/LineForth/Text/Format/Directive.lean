import LineForth.Text.Format.Arg

/-!
# Directives

What stands between a percent sign and its verb: flags, a width and a precision, in this order and
each optional.  A width or precision is a number or a star, which takes it from the arguments.
Before a star and before the verb the number of an argument can stand in brackets; arguments are
then taken from there on.  Nothing that is wrong ends the reading: it is kept for the output.
-/

namespace LineForth.Format

/-- How far a format has been read: what is left of it, the place of the next argument, and whether
an argument was ever chosen by its number. -/
structure Reading where
  rest : List Glyph
  place : Nat := 0
  chosen : Bool := false

structure Directive where
  reading : Reading
  style : Style := {}
  /-- Whether every argument that was chosen exists. -/
  possible : Bool := true
  /-- Whether the number of an argument was the last thing read. -/
  pointed : Bool := false
  /-- What is said of a width or precision that could not be taken from the arguments. -/
  complaints : Text := []

namespace Style

def flag? (s : Style) : Glyph → Option Style
  | .char '#' => some { s with sharp := true }
  | .char '0' => some { s with zeros := true }
  | .char '+' => some { s with plus := true }
  | .char '-' => some { s with leftmost := true }
  | .char ' ' => some { s with space := true }
  | _ => none

def readFlags (s : Style) : List Glyph → Style × List Glyph
  | [] => (s, [])
  | g :: gs =>
    match s.flag? g with
    | some s => s.readFlags gs
    | none => (s, g :: gs)

/-- The style for a verb: for a value as such, the alternate form is that of a source. -/
def forVerb (s : Style) (verb : Char) : Style :=
  if verb = 'v' ∨ verb = 'w' then { s with source := s.sharp, sharp := false, plus := false }
  else s

end Style

/-- The number after which no further digit is read. -/
def mostAmount : Nat := 1000000

def digit? : Glyph → Option Nat
  | .char c => if c.isDigit then some (c.toNat - 48) else none
  | .stray _ => none

/-- The number at the start, after the digits of `n`, and what follows it.  One that is too large is
no number, and takes everything with it. -/
def numberFrom (n : Option Nat) : List Glyph → Option Nat × List Glyph
  | [] => (n, [])
  | g :: gs =>
    match digit? g with
    | none => (n, g :: gs)
    | some d =>
      if mostAmount < n.getD 0 then (none, []) else numberFrom (some (n.getD 0 * 10 + d)) gs

def number (gs : List Glyph) : Option Nat × List Glyph := numberFrom none gs

/-- The amount that the argument at a place stands for, and the place after it. -/
def amountAt (args : List Arg) (place : Nat) : Option Int × Nat :=
  match args[place]? with
  | none => (none, place)
  | some (.int n) => (if n.natAbs ≤ mostAmount then some n else none, place + 1)
  | some (.text _) => (none, place + 1)

/-- What is said of a width that is no number. -/
def badWidth : Text := Text.ofString "%!(BADWIDTH)"

/-- What is said of a precision that is no number. -/
def badPrecision : Text := Text.ofString "%!(BADPREC)"

namespace Directive

def rest (d : Directive) : List Glyph := d.reading.rest

def withRest (d : Directive) (gs : List Glyph) : Directive :=
  { d with reading := { d.reading with rest := gs } }

def withPlace (d : Directive) (place : Nat) : Directive :=
  { d with reading := { d.reading with place } }

/-- Nothing but a star or a verb can follow the number of an argument. -/
def unlessPointed (d : Directive) : Directive := { d with possible := d.possible && !d.pointed }

/-- Goes on after the number of an argument, which must be one of `count`. -/
def pointTo (d : Directive) (count : Nat) (inside after : List Glyph) : Directive :=
  let d := d.withRest after
  match number inside with
  | (some n, []) =>
    if 1 ≤ n ∧ n ≤ count then { d.withPlace (n - 1) with pointed := true }
    else { d with pointed := true, possible := false }
  | _ => { d with pointed := false, possible := false }

/-- Reads the number of an argument in brackets, if there is one.  A bracket that is never closed,
or closed at once at the end, stands for itself. -/
def readChoice (count : Nat) (d : Directive) : Directive :=
  match d.rest with
  | .char '[' :: gs =>
    let d := { d with reading := { d.reading with chosen := true } }
    match gs.dropWhile (· ≠ .char ']') with
    | [] => { d.withRest gs with pointed := false, possible := false }
    | _ :: after =>
      if gs.length < 2 then { d.withRest gs with pointed := false, possible := false }
      else d.pointTo count (gs.takeWhile (· ≠ .char ']')) after
  | _ => { d with pointed := false }

/-- A negative width fills up on the right. -/
def setWidth (d : Directive) : Option Int → Directive
  | none => { d with complaints := d.complaints ++ badWidth }
  | some (.ofNat n) => { d with style := { d.style with width := some n } }
  | some (.negSucc n) =>
    { d with style := { d.style with width := some (n + 1), leftmost := true, zeros := false } }

def setPrecision (d : Directive) : Option Int → Directive
  | some (.ofNat n) => { d with style := { d.style with precision := some n } }
  | _ => { d with complaints := d.complaints ++ badPrecision }

def readWidth (args : List Arg) (d : Directive) : Directive :=
  match d.rest with
  | .char '*' :: gs =>
    let (n, place) := amountAt args d.reading.place
    { (d.withRest gs).withPlace place with pointed := false }.setWidth n
  | gs =>
    match number gs with
    | (none, rest) => d.withRest rest
    | (some n, rest) => (d.unlessPointed.withRest rest).setWidth (some (.ofNat n))

def readAmount (args : List Arg) (d : Directive) : Directive :=
  match d.rest with
  | .char '*' :: gs =>
    let (n, place) := amountAt args d.reading.place
    { (d.withRest gs).withPlace place with pointed := false }.setPrecision n
  | gs =>
    let (n, rest) := number gs
    (d.withRest rest).setPrecision (some (.ofNat (n.getD 0)))

/-- Reads a point and what follows it.  A point at the end of the format is a verb. -/
def readPrecision (args : List Arg) (d : Directive) : Directive :=
  match d.rest with
  | .char '.' :: g :: gs =>
    ((d.unlessPointed.withRest (g :: gs)).readChoice args.length).readAmount args
  | _ => d

/-- Reads up to the verb. -/
def read (args : List Arg) (r : Reading) : Directive :=
  let (style, rest) := ({} : Style).readFlags r.rest
  let d : Directive := { reading := { r with rest }, style }
  let d := ((d.readChoice args.length).readWidth args).readPrecision args
  if d.pointed then d else d.readChoice args.length

end Directive

end LineForth.Format
