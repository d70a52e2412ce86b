import AlgoFrontEnd.Command.Run

/-! The command line: reads the environment and files, runs the command, and writes its output. -/
namespace AlgoFrontEnd.Command
open Files (Entry)

/-- The path of the directory that holds a path. -/
def parentOf (path : String) : String :=
  match (Files.pathParts path.toList).dropLast with
  | [] => "."
  | [[]] => "/"
  | parts => String.ofList (['/'].intercalate parts)

/-- Reads a file; a failure tells what else is at its path. -/
def lookAt (path : String) : IO Entry := do
  try
    return .file (← IO.FS.readBinFile path).data.toList
  catch
    | .inappropriateType _ 21 _ => return .directory
    | .inappropriateType _ _ _ => return .blocked
    | .invalidArgument _ _ _ => return .overlong
    | .noFileOrDirectory _ _ _ =>
      try
        let _ ← IO.FS.readBinFile (parentOf path)
        return .blocked
      catch
        | .inappropriateType _ 21 _ => return .vacant
        | _ => return .absent
    | _ => return .absent

def perform (e : Ending) : IO UInt32 := do
  match e.write with
  | some w => IO.FS.writeFile w.path w.text
  | none => pure ()
  IO.print e.stdout
  IO.eprint e.stderr
  return e.exitCode.toUInt32

end AlgoFrontEnd.Command

open AlgoFrontEnd AlgoFrontEnd.Command

def main (arguments : List String) : IO UInt32 := do
  let paths := match Arguments.initial.read arguments with
    | .ok a => a.paths
    | .error _ => []
  let entries ← paths.mapM fun path => return (path, ← lookAt path)
  let look (path : String) : Files.Entry := (entries.lookup path).getD .absent
  let entry ← IO.getEnv Options.entryVariable
  let layout ← IO.getEnv Options.layoutVariable
  let environment (name : String) : Option String :=
    if name = Options.entryVariable then entry else layout
  match run look environment arguments with
  | .ended e => perform e
  | .usage =>
    IO.eprint usageText
    return invalidArguments.toUInt32
