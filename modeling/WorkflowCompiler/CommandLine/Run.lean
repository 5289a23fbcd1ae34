import WorkflowCompiler.CommandLine.Arguments
import WorkflowCompiler.Compilation
import WorkflowCompiler.Document.Load
import WorkflowCompiler.Storage.FileSystem

/-! # Runs of the command line

A run reads a workflow, compiles it and either prints the code or asks for it to be written to a
file. All it needs from outside is what paths lead to.
-/
namespace WorkflowCompiler.CommandLine

/-- A fault that ends a run without a report of its own. -/
inductive Crash where
  | document (fault : Document.FileFault)
  | target (fault : TargetFault)
  | storage (fault : StorageFault)
  /-- An option that is set to nothing is needed. -/
  | nothingGiven (opt : Opt)

/-- A file to be written: the directory that has to be there, the name in it and the text. -/
structure Writing where
  directory : Path
  name : String
  text : Text

def Writing.path (writing : Writing) : Path := writing.directory.join writing.name

structure Result where
  /-- Zero when the workflow was compiled, else one. -/
  status : Nat
  output : Text := []
  /-- The lines of the error output. -/
  messages : List Text
  writing : Option Writing := none

inductive Ending where
  | stopped (stop : Stop)
  | crashed (crash : Crash)
  | finished (result : Result)

def Stop.message? : Stop → Option String
  | .help => none
  | .problem p => some ("agentflow-compile: error: " ++ p.message)

def Stop.status : Stop → Nat
  | .help => 0
  | .problem _ => 2

def failed (messages : List Text) : Ending := .finished { status := 1, messages }

def logLines (verbose : Bool) (log : List LogEntry) : List Text :=
  (log.filter (LogEntry.isShown verbose)).map LogEntry.line

def isMalformed : Document.FileFault → Option Text
  | .document fault => fault.malformed?
  | .storage _ => none

def fileName (moduleName : Text) : String :=
  String.ofList (Identifier.ofName moduleName Identifier.workflowFallback).chars ++ ".py"

def moduleNameOf (settings : Settings) (workflow : Workflow) : Text :=
  let own := Identifier.ofName workflow.name Identifier.workflowFallback
  match settings.moduleName with
  | .value name => if name = "" then own else name
  | .unset | .nothing => own

/-- The target of a run. Nothing is no target, and is shown as an empty list. -/
def targetOf (find : Lookup) (settings : Settings) : Except TargetFault Target :=
  match settings.target with
  | .unset => .ok Target.default
  | .nothing => .error (.unknown "[]")
  | .value name => Target.load find name

def directoryOf (settings : Settings) : Except Crash Path :=
  match settings.out with
  | .unset => .ok (Path.ofText ".")
  | .nothing => .error (.nothingGiven .out)
  | .value text => .ok (Path.ofText text)

def ceilingOf (settings : Settings) : Except Crash (Option Int) :=
  match settings.maxNodes with
  | .unset => .ok none
  | .nothing => .error (.nothingGiven .maxNodes)
  | .value n => .ok (some n)

def loadedEntry (workflow : Workflow) : LogEntry :=
  ⟨.debug, .document, "Loaded workflow '" ++ workflow.name ++ "': " ++ workflow.graph.describe⟩

def targetEntries (target : Target) : List LogEntry :=
  match target.path with
  | none => []
  | some path =>
    [⟨.info, .profile, "Loaded target profile '" ++ target.profile.name ++ "' from " ++ path.text⟩]

def introduction (workflow : Workflow) (target : Target) : List LogEntry :=
  [⟨.info, .commandLine, "workflow : " ++ workflow.name⟩,
    ⟨.info, .commandLine, "target   : " ++ target.profile.name⟩,
    ⟨.info, .commandLine, "nodes    : " ++ toString workflow.graph.size⟩,
    ⟨.info, .commandLine, "edges    : " ++ toString workflow.graph.edges.length⟩]

def writtenEntry (path : Path) : LogEntry :=
  ⟨.info, .commandLine, "wrote    : " ++ path.text⟩

def diagnosticLine (d : Diagnostic) : Text := "  " ++ d.line

def compileLoaded (settings : Settings) (workflow : Workflow) (target : Target) :
    Except Crash Result := do
  let ceiling ← ceilingOf settings
  let moduleName := moduleNameOf settings workflow
  let report := compile target.profile moduleName ceiling workflow.graph
  let diagnostics := report.outcome.diagnostics
  let log := loadedEntry workflow :: targetEntries target ++ introduction workflow target
    ++ report.log
  let messages := logLines settings.verbose log ++ diagnostics.map diagnosticLine
  match report.outcome with
  | .refused _ =>
    let summary : Text :=
      "[error] Compilation failed with " ++ toString diagnostics.length ++ " diagnostic(s)"
    return { status := 1, messages := messages ++ [summary] }
  | .compiled source _ =>
    if settings.printOnly then return { status := 0, output := source, messages }
    else
      let directory ← directoryOf settings
      let writing := { directory, name := fileName moduleName, text := source }
      return { status := 0, messages, writing := some writing }

def runSettings (find : Lookup) (settings : Settings) : Ending :=
  let path := Path.ofText settings.workflow
  match find.find? path with
  | .error fault => .crashed (.storage fault)
  | .ok none => failed ["[error] File not found: " ++ path.text]
  | .ok (some _) =>
    match Document.loadFile find path with
    | .error fault =>
      match isMalformed fault with
      | some message => failed ["[error] Schema validation failed: " ++ message]
      | none => .crashed (.document fault)
    | .ok workflow =>
      match targetOf find settings with
      | .ok target =>
        match compileLoaded settings workflow target with
        | .ok result => .finished result
        | .error crash => .crashed crash
      | .error fault =>
        if fault.isMistake then
          failed (logLines settings.verbose [loadedEntry workflow] ++ ["[error] " ++ fault.message])
        else .crashed (.target fault)

def run (find : Lookup) (arguments : List String) : Ending :=
  match parse arguments with
  | .error stop => .stopped stop
  | .ok settings => runSettings find settings

def Writing.perform (writing : Writing) (fs : FileSystem) : FileSystem.Outcome Unit :=
  match fs.makeDirectory writing.directory with
  | (after, .error fault) => (after, .error fault)
  | (after, .ok directory) =>
    match FileSystem.check writing.path with
    | .error fault => (after, .error fault)
    | .ok () => after.writeText directory writing.name writing.text

/-- A run in a file system: its end, and the file system after it. -/
def runIn (fs : FileSystem) (arguments : List String) : Ending × FileSystem :=
  match run fs.find arguments with
  | .finished result =>
    match result.writing with
    | none => (.finished result, fs)
    | some writing =>
      match writing.perform fs with
      | (after, .error fault) => (.crashed (.storage fault), after)
      | (after, .ok ()) =>
        let messages := result.messages ++ [(writtenEntry writing.path).line]
        (.finished { result with messages }, after)
  | ending => (ending, fs)

end WorkflowCompiler.CommandLine
