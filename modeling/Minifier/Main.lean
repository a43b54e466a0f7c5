import Minifier.Command.Execute

/-!
# The command line program

The outer layer: access to real files and streams. All decisions are made in
`Minifier.Command.execute`.
-/

namespace Minifier.Command

/-- The reason of a failure, as it is reported. -/
def failureReason : IO.Error → String
  | .noFileOrDirectory _ code _ => "No such file or directory (os error " ++ toString code ++ ")"
  | .permissionDenied _ code _ => "Permission denied (os error " ++ toString code ++ ")"
  | error => toString error

/-- Do something with a file, and keep the reason if it fails. -/
def attempt {α : Type} (action : IO α) : IO (Except String α) := do
  match ← action.toBaseIO with
  | .ok value => pure (.ok value)
  | .error error => pure (.error (failureReason error))

/-- All of standard input. -/
partial def readAll (stream : IO.FS.Stream) (read : ByteArray) : IO ByteArray := do
  let chunk ← stream.read 65536
  if chunk.isEmpty then pure read else readAll stream (read ++ chunk)

/-- The files of the machine. -/
def realFiles : Files IO where
  read path := attempt (IO.FS.readFile path)
  write path text := attempt (IO.FS.writeFile path text)
  input := do
    match ← attempt (do readAll (← IO.getStdin) .empty) with
    | .ok bytes =>
      match String.fromUTF8? bytes with
      | some text => pure (.ok text)
      | none => pure (.error "stream did not contain valid UTF-8")
    | .error reason => pure (.error reason)

end Minifier.Command

/-- Run the command with the arguments of the process. -/
def main (args : List String) : IO UInt32 := do
  let ending ← Minifier.Command.execute Minifier.Command.realFiles args
  (← IO.getStdout).putStr ending.output
  (← IO.getStderr).putStr ending.complaint
  pure (UInt32.ofNat ending.code)
