import WorkflowCompiler.Text.Basic

/-! # Kinds of nodes

The kinds that a workflow may be built from, with the names they have in documents.
-/
namespace WorkflowCompiler

inductive NodeKind where
  | agent
  | sequential
  | parallel
  | conditional
  | loop
  | input
  | output
  | apiCall
  | database
  | fileOperation
  | transform
  | validator
  | router
  | delay
  | debug
  | binding
deriving DecidableEq

namespace NodeKind

def all : List NodeKind :=
  [.agent, .sequential, .parallel, .conditional, .loop, .input, .output, .apiCall, .database,
    .fileOperation, .transform, .validator, .router, .delay, .debug, .binding]

def wireName : NodeKind → Text
  | .agent => "llm-agent"
  | .sequential => "sequential-workflow"
  | .parallel => "parallel-workflow"
  | .conditional => "conditional"
  | .loop => "loop"
  | .input => "input"
  | .output => "output"
  | .apiCall => "api-call"
  | .database => "database"
  | .fileOperation => "file-operations"
  | .transform => "data-transform"
  | .validator => "validator"
  | .router => "router"
  | .delay => "delay"
  | .debug => "debug"
  | .binding => "variable"

def ofWire? (name : Text) : Option NodeKind := all.find? fun kind => kind.wireName == name

def isContainer : NodeKind → Bool
  | .sequential | .parallel | .conditional | .loop | .router => true
  | _ => false

/-- The ports for success and failure of a kind that reports an outcome. -/
def outcomePorts? : NodeKind → Option (Text × Text)
  | .apiCall => some ("success", "error")
  | .validator => some ("valid", "invalid")
  | _ => none

end NodeKind

end WorkflowCompiler
