import Galley.Command.Run

/-!
The command line program.
-/

namespace Galley.Command

/-- What is said about a file that cannot be used. -/
def fileMessage (name : Text) (e : IO.Error) : Text :=
  match e with
  | .noFileOrDirectory .. => Folder.missing name
  | .inappropriateType .. => Folder.isFolder name
  | .permissionDenied .. => ("open " : Text) ++ name ++ (": permission denied" : Text)
  | e => ("open " : Text) ++ name ++ (": " : Text) ++ (e.toString : Text)

/-- Runs an action on a file. -/
def tryFile {α : Type} (name : Text) (act : String → IO α) : IO (Except Text α) := do
  try
    return .ok (← act name.toString)
  catch e =>
    return .error (fileMessage name e)

/-- The files of the working directory. -/
def diskFiles : Files IO where
  read name := tryFile name fun path => return (← IO.FS.readBinFile path).data.toList
  write name content := tryFile name fun path => IO.FS.writeBinFile path ⟨content.toArray⟩

/-- Reads all of the input. -/
def readInput : IO Text := do
  return (← (← IO.getStdin).readBinToEnd).data.toList

/-- Writes a text to a stream. -/
def writeText (out : IO.FS.Stream) (t : Text) : IO Unit := do
  out.write ⟨t.toArray⟩
  out.flush

end Galley.Command

open Galley

/-- Runs the command on what the system gives it. -/
def main (args : List String) : IO UInt32 := do
  let known ← Command.lookedUp.filterMapM fun name => do
    return (← IO.getEnv name.toString).map fun value => (name, Text.ofString value)
  let ending ← Command.run Int64 Command.diskFiles Command.readInput
    (fun name => known.lookup name) (args.map Text.ofString)
  match ending with
  | .exit outcome =>
    Command.writeText (← IO.getStdout) outcome.output
    Command.writeText (← IO.getStderr) outcome.notes
    return UInt32.ofNat outcome.status
  | .serve announcement address _ =>
    Command.writeText (← IO.getStdout) announcement
    Command.writeText (← IO.getStderr)
      (("listen " : Text) ++ address ++ (": not supported\n" : Text))
    return 1
