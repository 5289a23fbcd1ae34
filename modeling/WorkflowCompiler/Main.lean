import WorkflowCompiler.CommandLine.Run

/-! # The command line program

Fetches what a run asks for, shows what it says and writes what it wants to be written.
-/
namespace WorkflowCompiler

def fetchEntry (path : Path) : IO (Except StorageFault FileEntry) := do
  try
    return .ok (.file (← IO.FS.readBinFile path.text))
  catch
    | .noFileOrDirectory .. => return .error .missing
    | .inappropriateType none .. => return .ok .directory
    | .inappropriateType (some _) .. => return .error .notADirectory
    | fault => throw fault

/-- A text as a terminal shows it: a surrogate by its number. -/
def shown (text : Text) : String :=
  String.ofList (text.flatMap fun
    | .char c => [c]
    | .surrogate offset => '\\' :: 'u' :: Text.toHex 4 (CodePoint.surrogate offset).toNat)

def finishRun (result : CommandLine.Result) : IO Unit := do
  result.messages.forM fun message => IO.eprintln (shown message)
  IO.print (shown result.output)
  if let some writing := result.writing then
    IO.FS.createDirAll writing.directory.text
    IO.FS.writeFile writing.path.text (shown writing.text)
    IO.eprintln (shown (CommandLine.writtenEntry writing.path).line)

def usageLine : String :=
  "usage: agentflow-compile [-h] [--module NAME] [--target NAME|PROFILE.json] [--out DIR] "
    ++ "[--print] [--max-nodes N] [-v] workflow.json"

end WorkflowCompiler

open WorkflowCompiler

def main (arguments : List String) : IO UInt32 := do
  match CommandLine.parse arguments with
  | .error stop =>
    match stop.message? with
    | none => IO.println usageLine
    | some message =>
      IO.eprintln usageLine
      IO.eprintln message
    return stop.status.toUInt32
  | .ok settings =>
    let target :=
      match settings.target with
      | .value name => [Path.ofText name]
      | _ => []
    let paths := Path.ofText settings.workflow :: target
    let found ← paths.mapM fun path => do return (path, ← fetchEntry path)
    let find : Lookup := fun path => (found.lookup path).getD (.error .missing)
    match CommandLine.runSettings find settings with
    | .finished result =>
      finishRun result
      return result.status.toUInt32
    | _ =>
      IO.eprintln "[error] The workflow cannot be read"
      return 1
