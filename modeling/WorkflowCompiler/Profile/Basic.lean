import WorkflowCompiler.Identifier.Basic

/-! # Profiles

A profile says how a framework names the constructs of the generated code and the keywords of
their arguments. The same blocks are written for another framework by changing the profile.
-/
namespace WorkflowCompiler

inductive Role where
  | agent
  | step
  | sequence
  | parallel
  | branch
  | switch
  | loop
deriving DecidableEq

namespace Role

def all : List Role := [.agent, .step, .sequence, .parallel, .branch, .switch, .loop]

def name : Role → Text
  | .agent => "agent"
  | .step => "step"
  | .sequence => "sequence"
  | .parallel => "parallel"
  | .branch => "branch"
  | .switch => "switch"
  | .loop => "loop"

def ofName? (s : Text) : Option Role := all.find? fun role => role.name == s

end Role

/-- An argument of a construct that a profile gives a keyword to. -/
inductive Slot where
  | children
  | branches
  | join
  | predecessor
  | condition
  | ifTrue
  | ifFalse
  | routes
  | body
  | loopKind
  | count
  | loopCondition
  | items
  | maxIterations
deriving DecidableEq

namespace Slot

def all : List Slot :=
  [.children, .branches, .join, .predecessor, .condition, .ifTrue, .ifFalse, .routes, .body,
    .loopKind, .count, .loopCondition, .items, .maxIterations]

def name : Slot → Text
  | .children => "children"
  | .branches => "branches"
  | .join => "join"
  | .predecessor => "upstream"
  | .condition => "condition"
  | .ifTrue => "if_true"
  | .ifFalse => "if_false"
  | .routes => "routes"
  | .body => "body"
  | .loopKind => "loop_kind"
  | .count => "count"
  | .loopCondition => "loop_condition"
  | .items => "items"
  | .maxIterations => "max_iterations"

def ofName? (s : Text) : Option Slot := all.find? fun slot => slot.name == s

end Slot

structure Profile where
  name : Text
  imports : List Text
  construct : Role → Text
  /-- The keyword of a slot. The argument of a slot without one is left out. -/
  keyword : Slot → Option Text
  rootIdentifier : Text
  /-- The last lines of the code, with a mark where the root identifier belongs. -/
  entrypoint : List Text := []
  /-- Identifiers that the code may not bind. -/
  reserved : List Text := []
  /-- Whether a construct is named by its identifier and not by the name of its node. -/
  identifierNames : Bool := false
  /-- Whether the body of a loop is written as a list. -/
  bodyAsList : Bool := false

namespace Profile

def rootMark : Text := "\x7broot\x7d"

def standard : Profile where
  name := "agentflow"
  imports :=
    ["from agentflow_runtime import Agent, Branch, Loop, Parallel, Sequential, Step, Switch, run"]
  construct
    | .agent => "Agent"
    | .step => "Step"
    | .sequence => "Sequential"
    | .parallel => "Parallel"
    | .branch => "Branch"
    | .switch => "Switch"
    | .loop => "Loop"
  keyword
    | .children => some "steps"
    | .branches => some "branches"
    | .join => some "join"
    | .predecessor => some "after"
    | .condition => some "condition"
    | .ifTrue => some "if_true"
    | .ifFalse => some "if_false"
    | .routes => some "routes"
    | .body => some "body"
    | .loopKind => some "kind"
    | .count => some "count"
    | .loopCondition => some "condition"
    | .items => some "items"
    | .maxIterations => some "max_iterations"
  rootIdentifier := "workflow"
  entrypoint := ["if __name__ == \"__main__\":", "    run(" ++ rootMark ++ ")"]
  reserved := ["run"]

/-- The profile of the agent development kit, which has neither joins nor references to
predecessors. -/
def adk : Profile where
  name := "adk"
  imports :=
    ["from google.adk.agents import LlmAgent, LoopAgent, ParallelAgent, SequentialAgent",
      "from agentflow_runtime.adk import Branch, Step, Switch"]
  construct
    | .agent => "LlmAgent"
    | .step => "Step"
    | .sequence => "SequentialAgent"
    | .parallel => "ParallelAgent"
    | .branch => "Branch"
    | .switch => "Switch"
    | .loop => "LoopAgent"
  keyword
    | .children => some "sub_agents"
    | .branches => some "sub_agents"
    | .join => none
    | .predecessor => none
    | .condition => some "condition"
    | .ifTrue => some "if_true"
    | .ifFalse => some "if_false"
    | .routes => some "routes"
    | .body => some "sub_agents"
    | .loopKind => none
    | .count => some "max_iterations"
    | .loopCondition => some "condition"
    | .items => some "items"
    | .maxIterations => some "max_iterations"
  rootIdentifier := "root_agent"
  identifierNames := true
  bodyAsList := true

/-- The profiles that can be chosen by name, in ascending order of names. -/
def builtIn : List Profile := [adk, standard]

def builtInNames : List Text := builtIn.map (·.name)

def named? (name : Text) : Option Profile := builtIn.find? (·.name == name)

def reservedNames (profile : Profile) : List Text :=
  profile.reserved ++ Role.all.map profile.construct ++ [profile.rootIdentifier]

def displayName (profile : Profile) (label ident : Text) : Text :=
  if profile.identifierNames then ident else label

end Profile

end WorkflowCompiler
