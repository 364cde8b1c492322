import LineForth.Language.Action
import LineForth.Language.Failure
import LineForth.Language.Stack
import LineForth.Location
import LineForth.Text.Format

/-!
# Traces

A trace records what an interpreter does, one line per event.  Each line starts with a short mark;
marks are padded to the widest one so far by repeating their first character.  In front of the mark
stands the lead, which grows while a compiled word runs and is put back when it ends.  The lead is
part of the line's format, so a percent sign in it is a verb.

The lines go to a listener of the host, and without one nothing is recorded.  How the stack is
listed in a line is a parameter of the trace.
-/

namespace LineForth

structure Trace where
  /-- Who is given the lines, by its key. -/
  listener : Option Nat := none
  /-- How a stack is listed. -/
  listing : Stack → Text := Stack.listing
  width : Nat := 0
  lead : Text := []
  recorded : List Text := []

inductive Event
  | heard (line : Text)
  | replied (response : Text) (stack : Stack)
  | opened (name : Text)
  | added (name : Text) (index : Nat) (action : Action)
  | compiled (name : Text) (count : Nat)
  | stepped (name : Text) (action : Action)
  | failed (failure : Failure)
  | located (location : Location)

namespace Event

def mark : Event → Text
  | .heard _ => Text.ofString ">"
  | .replied _ _ => Text.ofString "<"
  | .opened _ => Text.ofString ":"
  | .added _ _ _ => Text.ofString "+"
  | .compiled _ _ => Text.ofString ";"
  | .stepped _ _ => Text.ofString "@"
  | .failed _ => Text.ofString "!"
  | .located _ => Text.ofString "#"

def message (listing : Stack → Text) : Event → Text
  | .heard line => Text.quoted line
  | .replied response stack =>
    Text.quoted response ++ Text.ofString " stack:" ++ listing stack
  | .opened name => name
  | .added name index action =>
    name ++ Text.ofString "[" ++ Decimal.ofNat index ++ Text.ofString "] " ++ action.text
  | .compiled name count =>
    name ++ Text.ofString " compiled " ++ Decimal.ofNat count ++ Text.ofString " actions"
  | .stepped name action => name ++ [Text.space] ++ action.text
  | .failed failure => failure.message
  | .located location => location.text

end Event

namespace Trace

def on (t : Trace) : Bool := t.listener.isSome

/-- The lines in the order in which they were recorded. -/
def lines (t : Trace) : List Text := t.recorded.reverse

/-- A mark with its first character repeated once for every byte that it is short of `width`. -/
def padded (width : Nat) (mark : Text) : Text :=
  match (Text.glyphs mark).head? with
  | none => mark
  | some g =>
    (List.replicate (width - mark.length) (charBytes (Format.verbOf g))).flatten ++ mark

def line (t : Trace) (mark message : Text) : Text :=
  Format.render (t.lead ++ Text.ofString "%v %v") [.text (padded t.width mark), .text message]

def note (t : Trace) (mark message : Text) : Trace :=
  if t.on then
    { t with
      width := max t.width mark.length
      recorded := t.line mark message :: t.recorded }
  else t

def event (t : Trace) (e : Event) : Trace :=
  if t.on then t.note e.mark (e.message t.listing) else t

def indent (t : Trace) (more : Text) : Trace :=
  if t.on then { t with lead := t.lead ++ more } else t

def withLead (t : Trace) (lead : Text) : Trace := { t with lead := lead }

end Trace

end LineForth
