import WorkflowCompiler.Text.Basic

/-! # Log entries

What the compiler notes while it works, and at which level.
-/
namespace WorkflowCompiler

inductive Level where
  | debug
  | info
  | error
deriving DecidableEq

def Level.name : Level → Text
  | .debug => "DEBUG"
  | .info => "INFO"
  | .error => "ERROR"

inductive Origin where
  | commandLine
  | compilation
  | document
  | validation
  | resolution
  | emission
  | profile
deriving DecidableEq

def Origin.name : Origin → Text
  | .commandLine => "agentflow.cli"
  | .compilation => "agentflow.compiler"
  | .document => "agentflow.compiler.deserialiser"
  | .validation => "agentflow.compiler.validator"
  | .resolution => "agentflow.compiler.resolver"
  | .emission => "agentflow.compiler.emitter"
  | .profile => "agentflow.compiler.templates"

structure LogEntry where
  level : Level
  origin : Origin
  message : Text
deriving DecidableEq

namespace LogEntry

def line (entry : LogEntry) : Text :=
  entry.level.name ++ " " ++ entry.origin.name ++ ": " ++ entry.message

/-- Whether an entry is shown: always, except for those that are of use only in a search for
errors. -/
def isShown (verbose : Bool) (entry : LogEntry) : Bool := verbose || entry.level != .debug

end LogEntry

end WorkflowCompiler
