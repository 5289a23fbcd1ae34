import WorkflowCompiler.Emission.Basic
import WorkflowCompiler.Log
import WorkflowCompiler.Profile.Target
import WorkflowCompiler.Resolution.Basic

/-! # Compilation

A graph is validated, resolved and emitted. Mistakes in a workflow come back as diagnostics; a
fault of the compiler comes back as one diagnostic that says no more than that.
-/
namespace WorkflowCompiler

inductive Compilation where
  | compiled (source : Text) (warnings : List Diagnostic)
  | refused (diagnostics : List Diagnostic)
deriving DecidableEq

namespace Compilation

def source? : Compilation → Option Text
  | .compiled source _ => some source
  | .refused _ => none

def diagnostics : Compilation → List Diagnostic
  | .compiled _ warnings => warnings
  | .refused ds => ds

def toValue : Compilation → Value
  | .compiled source warnings =>
    .object [("ok", .bool true), ("source", .str source),
      ("warnings", .list (warnings.map Diagnostic.toValue))]
  | .refused ds =>
    .object [("ok", .bool false), ("diagnostics", .list (ds.map Diagnostic.toValue))]

end Compilation

structure Report where
  outcome : Compilation
  log : List LogEntry

def tooManyNodes (g : Graph) (ceiling : Option Int) : Option Diagnostic :=
  ceiling.bind fun limit =>
    if (g.size : Int) ≤ limit then none
    else some (.error "too-many-nodes"
      ("workflow has " ++ toString g.size ++ " nodes; the limit is " ++ toString limit))

def internalError : Diagnostic :=
  .error "internal-error" "internal compiler error; the workflow could not be compiled"

def invalidTarget (fault : TargetFault) : Diagnostic := .error "invalid-target" fault.message

namespace Compilation

def validatedEntry (g : Graph) (ds : List Diagnostic) : LogEntry :=
  ⟨.debug, .validation, "Validated " ++ g.describe ++ ": " ++ toString (errorsOf ds).length
    ++ " error(s), " ++ toString (warningsOf ds).length ++ " warning(s)"⟩

def blockedEntry (name : Text) (ds : List Diagnostic) : LogEntry :=
  ⟨.info, .compilation, "Compilation of '" ++ name ++ "' blocked by "
    ++ toString (errorsOf ds).length ++ " error(s)"⟩

def mergeEntry (id : Text) : LogEntry :=
  ⟨.debug, .resolution, "Merge point '" ++ id ++ "': resolving shared chain"⟩

def resolvedEntry (description : Text) : LogEntry :=
  ⟨.debug, .resolution, "Resolved IR: " ++ description⟩

def emittedEntry (name : Text) (profile : Profile) (lines : List Text) : LogEntry :=
  ⟨.debug, .emission, "Emitted " ++ toString lines.length ++ " line(s) for '" ++ name
    ++ "' with the " ++ profile.name ++ " profile"⟩

def compiledEntry (name : Text) (warnings : List Diagnostic) : LogEntry :=
  ⟨.info, .compilation, "Compiled '" ++ name ++ "' (" ++ toString warnings.length
    ++ " warning(s))"⟩

def internalEntry (name : Text) : LogEntry :=
  ⟨.error, .compilation, "Internal error while compiling '" ++ name ++ "'"⟩

def faulted (name : Text) (log : List LogEntry) : Report :=
  ⟨.refused [internalError], log ++ [internalEntry name]⟩

def ofValidated (profile : Profile) (name : Text) (validated : Validated) : Report :=
  let resolution := resolve validated
  let log := validatedEntry validated.graph validated.warnings :: resolution.merges.map mergeEntry
  match resolution.block with
  | .error _ => faulted name log
  | .ok block =>
    match block.describe with
    | .error _ => faulted name log
    | .ok description =>
      let log := log ++ [resolvedEntry description]
      match emit profile name block with
      | .error _ => faulted name log
      | .ok lines =>
        ⟨.compiled (sourceText lines) validated.warnings,
          log ++ [emittedEntry name profile lines, compiledEntry name validated.warnings]⟩

end Compilation

/-- Compiles a graph under a name. A graph with too many nodes is not looked at any further. -/
def compile (profile : Profile) (name : Text) (ceiling : Option Int) (g : Graph) : Report :=
  match tooManyNodes g ceiling with
  | some d => ⟨.refused [d], []⟩
  | none =>
    match judge g with
    | .error _ => Compilation.faulted name []
    | .ok (.rejected ds) =>
      ⟨.refused ds, [Compilation.validatedEntry g ds, Compilation.blockedEntry name ds]⟩
    | .ok (.accepted validated) => Compilation.ofValidated profile name validated

/-- Compiles a graph for a target. A target that is unknown or not well-formed is reported like a
mistake in the workflow. -/
def compileFor (target : Except TargetFault Target) (name : Text) (ceiling : Option Int)
    (g : Graph) : Except TargetFault Report :=
  match target with
  | .ok target => .ok (compile target.profile name ceiling g)
  | .error fault =>
    if fault.isMistake then
      .ok ⟨.refused [invalidTarget fault],
        [⟨.info, .compilation, "Compilation of '" ++ name ++ "' refused: " ++ fault.message⟩]⟩
    else .error fault

end WorkflowCompiler
