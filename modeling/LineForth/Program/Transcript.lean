import LineForth.Log.Journal
import LineForth.Program.Device
import LineForth.Session

/-!
# Transcripts

A transcript is a second copy of the output.  It goes to a file, or to a device.  If it goes to the
standard output itself, both copies come out there, each through its own buffer; if it goes to the
standard error, it comes out between the lines of the log.  So the moments of a session matter
there: what was traced while a line was read, and what is then written for it.
-/

namespace LineForth

structure Moment where
  traced : List Text
  written : Option Text

namespace Session

/-- The same session with nothing traced yet. -/
def untraced (s : Session) : Session :=
  { s with core := s.core.withTrace { s.core.trace with recorded := [] } }

/-- The moments of a session that writes without trouble. -/
def moments : Nat → Session → List Moment
  | 0, _ => []
  | fuel + 1, s =>
    match s.untraced.exchange with
    | (s, .error _) => [⟨s.core.trace.lines, none⟩]
    | (s, .ok (line, response)) =>
      ⟨s.core.trace.lines, record s.echo line response⟩ :: moments fuel s

end Session

namespace Transcript

/-- Standard output and most transcripts take all that they are given. -/
def file : Sink := { kind := .string }

def sink (path : Text) : Sink :=
  if Device.ofPath? path = some .full then
    { file with
      room := some 0
      refusal := some (.plain (Text.ofString "write " ++ path ++
        Text.ofString ": no space left on device")) }
  else file

/-- Two outlets that lead to the same place. -/
structure Pair where
  first : Outlet := { sink := file }
  second : Outlet := { sink := file }

namespace Pair

/-- Does something with the first outlet and then with the second. -/
def both (f : Outlet → Outlet) (p : Pair) : Pair :=
  let first := f p.first
  let second := f { p.second with sink := first.sink }
  { first := { first with sink := second.sink }, second }

def write (p : Pair) (t : Text) : Pair :=
  ((Ansi.pieces t).foldl (fun p piece => p.both fun o => (o.write piece.bytes).1) p).both fun o =>
    o.flush.1

end Pair

/-- What comes out where both copies of the output go. -/
def doubled (ms : List Moment) : Text :=
  ((ms.filterMap Moment.written).foldl Pair.write {}).first.sink.data

/-- The bytes that are written for a text. -/
def written (t : Text) : Text := (Ansi.pieces t).flatMap Piece.bytes

def logLines (j : Journal) (lines : List Text) : Journal :=
  lines.foldl (fun j l => j.print (Text.ofString "TRACE") l) j

/-- A log with a transcript in it. -/
def logMoments (j : Journal) (ms : List Moment) : Journal :=
  ms.foldl (fun j m => ((logLines j m.traced).put (written (m.written.getD []))).1) j

end Transcript

end LineForth
