import WorkflowCompiler.Value.Basic

/-! # Diagnostics

What the compiler tells about a workflow: errors, which block the compilation, and warnings.
-/
namespace WorkflowCompiler

inductive Severity where
  | error
  | warning
deriving DecidableEq

def Severity.name : Severity → Text
  | .error => "error"
  | .warning => "warning"

structure Diagnostic where
  severity : Severity
  code : Text
  message : Text
  nodeId : Option Text := none
deriving DecidableEq

namespace Diagnostic

def error (code message : Text) (nodeId : Option Text := none) : Diagnostic :=
  ⟨.error, code, message, nodeId⟩

def warning (code message : Text) (nodeId : Option Text := none) : Diagnostic :=
  ⟨.warning, code, message, nodeId⟩

def isError (d : Diagnostic) : Bool := d.severity = .error

/-- One line of text. The node is left out when its id is empty. -/
def line (d : Diagnostic) : Text :=
  let place : Text :=
    match d.nodeId with
    | some id => if id = [] then [] else " [" ++ id ++ "]"
    | none => []
  d.severity.name ++ ": " ++ d.code ++ place ++ ": " ++ d.message

def toValue (d : Diagnostic) : Value :=
  .object [("severity", .str d.severity.name), ("code", .str d.code), ("message", .str d.message),
    ("nodeId", .ofOption d.nodeId)]

end Diagnostic

def errorsOf (ds : List Diagnostic) : List Diagnostic := ds.filter (·.isError)

def warningsOf (ds : List Diagnostic) : List Diagnostic := ds.filter fun d => !d.isError

def hasErrors (ds : List Diagnostic) : Bool := ds.any (·.isError)

end WorkflowCompiler
