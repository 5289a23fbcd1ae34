import WorkflowCompiler.Validation.Branches
import WorkflowCompiler.Validation.Config
import WorkflowCompiler.Validation.Cycles
import WorkflowCompiler.Validation.Structure

/-! # Validation

All checks run, and none stops at the first problem. A graph without errors is validated, and only
such graphs are compiled.
-/
namespace WorkflowCompiler

def validate (g : Graph) : Except Fault (List Diagnostic) := do
  let config ← Validation.checkConfig g
  let branches ← Validation.checkBranches g
  return Validation.checkIdentity g ++ config ++ Validation.checkEdges g
    ++ Validation.checkReachability g ++ Validation.checkCycles g ++ branches

/-- A graph in which the checks found no error, with the warnings they gave. -/
structure Validated where
  graph : Graph
  warnings : List Diagnostic
  accepted : validate graph = .ok warnings
  clean : hasErrors warnings = false

inductive Verdict where
  | accepted (validated : Validated)
  | rejected (diagnostics : List Diagnostic)

def Verdict.diagnostics : Verdict → List Diagnostic
  | .accepted v => v.warnings
  | .rejected ds => ds

def judge (g : Graph) : Except Fault Verdict :=
  match h : validate g with
  | .error fault => .error fault
  | .ok ds =>
    if clean : hasErrors ds = false then .ok (.accepted ⟨g, ds, h, clean⟩)
    else .ok (.rejected ds)

end WorkflowCompiler
