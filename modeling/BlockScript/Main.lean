import BlockScript.Cli.Invocation

/-!
# The program
-/

namespace BlockScript.Cli

/-- The bytes of a file, if it can be read. -/
def fileBytes (path : String) : IO (Option ByteArray) := do
  try
    return some (← IO.FS.readBinFile path)
  catch _ =>
    return none

/-- Everything on a stream. -/
partial def streamBytes (stream : IO.FS.Stream) (bytes : ByteArray) : IO ByteArray := do
  let more ← stream.read 65536
  if more.isEmpty then return bytes else streamBytes stream (bytes ++ more)

/-- The files that a command reads. -/
def Command.paths : Command → List String
  | .run path => [path]
  | .parse paths _ => paths
  | _ => []

/-- Whether a command reads the standard input. -/
def Command.readsInput : Command → Bool
  | .repl _ _ => true
  | command => command.paths.contains "-"

/-- What a command finds around it. -/
def surroundings (command : Command) : IO Surroundings := do
  let files ← command.paths.mapM fun path => return (path, ← fileBytes path)
  let input ← if command.readsInput then streamBytes (← IO.getStdin) .empty else pure .empty
  return {
    file? := fun path => (files.find? fun (key, _) => key == path).bind Prod.snd
    writable := fun _ => true
    input }

end BlockScript.Cli

open BlockScript in
def main (args : List String) : IO UInt32 := do
  let command := (Cli.Command.ofArguments? args).getD .help
  let outcome := Cli.invoke amplyFueled (← Cli.surroundings command) args
  (← IO.getStdout).write ⟨outcome.output.bytes⟩
  (← IO.getStdout).flush
  for complaint in outcome.complaints do
    IO.eprintln complaint
  return UInt32.ofNat outcome.exit.code
