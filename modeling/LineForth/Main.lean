import LineForth.Program.Command

/-!
# The program

Reads the arguments, the environment and the standard input, and hands them to the command.
-/

namespace LineForth

open Command

partial def readAll (stream : IO.FS.Stream) (acc : ByteArray) : IO ByteArray := do
  let chunk ← stream.read 65536
  if chunk.isEmpty then return acc else readAll stream (acc ++ chunk)

def writeText (stream : IO.FS.Stream) (t : Text) : IO Unit := do
  stream.write ⟨t.toArray⟩
  stream.flush

def finish (e : Execution) : IO UInt32 := do
  writeText (← IO.getStdout) e.output
  writeText (← IO.getStderr) e.errors
  return e.code.toUInt32

def troubleOf : IO.Error → PathTrouble
  | .inappropriateType .. => .directory
  | .invalidArgument .. => .invalid
  | _ => .missing

def start (fs : Flags) : IO UInt32 := do
  let input ← readAll (← IO.getStdin) .empty
  let e := execute fs input.toList
  if !fs.tee.isEmpty && (Device.ofPath? fs.tee).isNone then
    IO.FS.writeBinFile (String.fromUTF8! ⟨fs.tee.toArray⟩) ⟨e.output.toArray⟩
  finish e

def command (args : List String) : IO UInt32 := do
  let home := Text.ofString ((← IO.getEnv "HOME").getD "")
  let history := historyPath home
  match parse { history } (args.map Text.ofString) with
  | .error r =>
    let refused := r.report history
    finish { code := refused.code, output := [], errors := refused.text }
  | .ok fs =>
    if fs.tee.isEmpty then start fs
    else
      let made ← (IO.FS.writeBinFile (String.fromUTF8! ⟨fs.tee.toArray⟩) .empty).toBaseIO
      match made with
      | .ok () => start fs
      | .error e => finish (refuseTee fs.tee (troubleOf e))

end LineForth

def main (args : List String) : IO UInt32 := LineForth.command args
