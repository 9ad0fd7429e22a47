import Trivalent.Command

/-!
# The program

Reads the file that the arguments name and the log specification of the environment, hands both to
`Command.run`, and prints what it reports: output to standard output, log and failure to standard
error.
-/

open Trivalent in
/-- The bytes of a file. -/
def readBytes (path : String) : IO (Except ReadError ByteArray) := do
  try
    return .ok (← IO.FS.readBinFile path)
  catch
    | .noFileOrDirectory _ _ _ => return .error .notFound
    | .inappropriateType _ 20 _ => return .error .notDirectory
    | .inappropriateType _ 21 _ => return .error .isDirectory
    | e => return .error (.other (toString e))

open Trivalent in
/-- Runs the command. -/
def main (args : List String) : IO UInt32 := do
  let spec ← IO.getEnv "RUST_LOG"
  let bytes ← match Arguments.read args with
    | .ok a => if a.file then readBytes a.contents else pure (.error .notFound)
    | .error _ => pure (.error .notFound)
  let report := Command.run args spec fun _ => bytes
  let err ← IO.getStderr
  for event in report.events do
    err.putStrLn event.text
  let out ← IO.getStdout
  out.putStr report.output
  if let some d := report.diagnostic then
    err.putStrLn (d.problem.code ++ ": " ++ d.message)
    if let some help := d.problem.help then
      err.putStrLn ("help: " ++ help)
  if let some closing := report.closing then
    err.putStrLn closing
  return UInt32.ofNat report.status
