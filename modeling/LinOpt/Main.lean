import LinOpt.Document.Print
import LinOpt.Instance.Command
/-!
# The generator of random instances

Reads the command line, and prints the instances asked for or writes them to a file.
-/

open LinOpt

/-- Generates instances. -/
def main (arguments : List String) : IO UInt32 := do
  match Instance.Request.parse arguments with
  | .error .help =>
    IO.println Instance.Request.usage
    return 0
  | .error .usage =>
    IO.eprintln Instance.Request.usage
    return 2
  | .ok request =>
    let text := (Document.list (request.instances.map Model.toDocument)).toJson
    match request.out with
    | none => IO.println text
    | some path => IO.FS.writeFile path text
    return 0
