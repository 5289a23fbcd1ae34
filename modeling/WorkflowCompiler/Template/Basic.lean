import WorkflowCompiler.Code.Basic
import WorkflowCompiler.Fault
import WorkflowCompiler.Graph.Basic
import WorkflowCompiler.Profile.Basic
import WorkflowCompiler.Text.Character

/-! # Templates

A template gives the statement of a node: comments, and a construct with the arguments that the
kind of the node asks for.
-/
namespace WorkflowCompiler

structure Parts where
  children : Option Expression := none
  members : Option Expression := none
  join : Option Value := none
  condition : Option Value := none
  ifTrue : Option Expression := none
  ifFalse : Option Expression := none
  routes : Option Expression := none
  body : Option Expression := none

inductive Template where
  | agent
  | step
  /-- A step that reports an outcome. -/
  | outcomeStep
  | delay
  | sequential
  | parallel
  | conditional
  | router
  | loop
  /-- The split by the outcome of a step. -/
  | outcomeSplit
deriving DecidableEq

def NodeKind.template : NodeKind → Template
  | .agent => .agent
  | .sequential => .sequential
  | .parallel => .parallel
  | .conditional => .conditional
  | .loop => .loop
  | .router => .router
  | .apiCall | .validator => .outcomeStep
  | .delay => .delay
  | .input | .output | .database | .fileOperation | .transform | .debug | .binding => .step

namespace Template

def role : Template → Role
  | .agent => .agent
  | .step | .outcomeStep | .delay => .step
  | .sequential => .sequence
  | .parallel => .parallel
  | .conditional | .outcomeSplit => .branch
  | .router => .switch
  | .loop => .loop

/-- An argument; one without a keyword is left out. -/
abbrev Argument := Option Text × Expression

abbrev Passed := Option Text × Value

def fixed (keyword : Text) (value : Value) : Passed := (some keyword, value)

def written (value : Value) : Except Fault Expression :=
  match Literal.ofValue? value with
  | some l => .ok (.literal l)
  | none => .error .longNumber

def passing (values : List Passed) : Except Fault (List Argument) :=
  values.mapM fun passed => do return (passed.1, ← written passed.2)

def stepFields (kind : NodeKind) : List Field :=
  (Field.own kind).filter fun field => field.name != "terminatedPorts"

def stepConfig (kind : NodeKind) (settings : Members) : Members :=
  (stepFields kind).filterMap fun field =>
    let value := settings.get field.name
    if value.isNull then none else some (field.name, value)

def description (settings : Members) : List Passed :=
  let value := settings.get "description"
  if value.isGiven then [fixed "description" value] else []

def stepValues (kind : NodeKind) (settings : Members) : List Passed :=
  [fixed "kind" (.str kind.wireName), fixed "config" (.object (stepConfig kind settings))]
    ++ description settings

def agentValues (settings : Members) : List Passed :=
  [fixed "model" (settings.get "model"),
    fixed "instruction" ((settings.get? "instruction").getD (.str []))]
    ++ description settings

def choose {α : Type} (table : List (Text × α)) (value : Value) : Except Fault α :=
  match value with
  | .list _ | .object _ => .error (.notAChoice value)
  | .str name =>
    match table.lookup name with
    | some a => .ok a
    | none => .error (.unknownChoice value)
  | _ => .error (.unknownChoice value)

def secondsOf : List (Text × Nat) := [("seconds", 1), ("minutes", 60), ("hours", 3600)]

/-- An amount so many times over. Numbers are multiplied, texts and lists repeated, and a truth
value counts as zero or one. -/
def scaled (amount : Value) (times : Nat) : Except Fault Value :=
  match amount with
  | .int n => .ok (.int (n * times))
  | .bool b => .ok (.int (if b then times else 0))
  | .float x => .ok (.float (x * Float.ofNat times))
  | .str s => .ok (.str (List.replicate times s).flatten)
  | .list items => .ok (.list (List.replicate times items).flatten)
  | .null | .object _ => .error (.notScalable amount)

def seconds (settings : Members) : Except Fault Value :=
  match settings.get? "delayAmount" with
  | none => .error .noAmount
  | some amount => do scaled amount (← choose secondsOf (settings.get "delayUnit"))

def needed (name : Text) (part : Option Expression) : Except Fault Expression :=
  match part with
  | some e => .ok e
  | none => .error (.missingPart name)

/-- How a parallel container is joined: as its parts say, or else as it is configured. -/
def joinOf (settings : Members) (parts : Parts) : Value :=
  parts.join.getD (settings.get "joinStrategy")

def conditionOf (settings : Members) (parts : Parts) : Value :=
  parts.condition.getD ((settings.get? "condition").getD (.str []))

def splitArguments (settings : Members) (profile : Profile) (parts : Parts) :
    Except Fault (List Argument) := do
  let condition ← written (conditionOf settings parts)
  let ifTrue ← needed "if_true" parts.ifTrue
  let ifFalse ← needed "if_false" parts.ifFalse
  return [(profile.keyword .condition, condition), (profile.keyword .ifTrue, ifTrue),
    (profile.keyword .ifFalse, ifFalse)]

def loopParameters : List (Text × Text × Slot) :=
  [("fixed-count", "loopCount", .count), ("while", "loopCondition", .loopCondition),
    ("for-each", "loopItems", .items)]

def fieldValue (settings : Members) (profile : Profile) (field : Text) (slot : Slot) :
    List Passed :=
  let value := settings.get field
  if value.isNull then [] else [(profile.keyword slot, value)]

def loopArguments (settings : Members) (profile : Profile) (parts : Parts) :
    Except Fault (List Argument) := do
  let kind ← written (settings.get "loopType")
  let (field, slot) ← choose loopParameters (settings.get "loopType")
  let params ← passing (fieldValue settings profile field slot
    ++ fieldValue settings profile "maxIterations" .maxIterations)
  let body ← needed "body" parts.body
  return (profile.keyword .loopKind, kind) :: params ++ [(profile.keyword .body, body)]

def outcomePorts (kind : NodeKind) : Except Fault (Text × Text) :=
  match kind.outcomePorts? with
  | some ports => .ok ports
  | none => .error (.noOutcome kind.wireName)

def arguments (template : Template) (kind : NodeKind) (settings : Members) (profile : Profile)
    (parts : Parts) : Except Fault (List Argument) :=
  match template with
  | .agent => passing (agentValues settings)
  | .step => passing (stepValues kind settings)
  | .outcomeStep => do
    let args ← passing (stepValues kind settings)
    let ports ← outcomePorts kind
    return args ++ (← passing [fixed "outcomes" (.ofTexts [ports.1, ports.2])])
  | .delay => do
    let args ← passing (stepValues kind settings)
    let amount ← seconds settings
    return args ++ (← passing [fixed "seconds" amount])
  | .sequential => .ok [(profile.keyword .children, parts.children.getD (.list []))]
  | .parallel => do
    let join ← written (joinOf settings parts)
    return [(profile.keyword .branches, parts.members.getD (.list [])),
      (profile.keyword .join, join)]
  | .conditional | .outcomeSplit => splitArguments settings profile parts
  | .router => .ok [(profile.keyword .routes, parts.routes.getD (.list []))]
  | .loop => loopArguments settings profile parts

def remarks (template : Template) (kind : NodeKind) (settings : Members) (profile : Profile)
    (parts : Parts) : Except Fault (List Text) :=
  match template with
  | .parallel => do
    if (profile.keyword .join).isNone then return ["join: " ++ (← (joinOf settings parts).shown)]
    else return []
  | .outcomeSplit => do
    let ports ← outcomePorts kind
    return ["outcome split: " ++ ports.1 ++ " / " ++ ports.2]
  | _ => .ok []

/-- Adds an argument, unless it has no keyword or its keyword is in use. -/
def addArgument (args : List (Text × Expression)) (arg : Argument) : List (Text × Expression) :=
  match arg.1 with
  | none => args
  | some keyword =>
    if args.any (·.1 == keyword) then args else args ++ [(keyword, arg.2)]

def predecessorArgument (profile : Profile) (predecessor : Option Text) : List Argument :=
  match predecessor with
  | none => []
  | some ident => if ident = [] then [] else [(profile.keyword .predecessor, .name ident)]

/-- The statement of a node. The name comes first, and of two arguments with one keyword the first
one counts. -/
def statement (template : Template) (profile : Profile) (node : Node) (ident label : Text)
    (parts : Parts) (predecessor : Option Text) : Except Fault Statement := do
  let settings := node.settings
  let args ← template.arguments node.kind settings profile parts
  let remarks ← template.remarks node.kind settings profile parts
  let named : List (Text × Expression) := [("name", .string (profile.displayName label ident))]
  return {
    comments := (Text.oneLine label ++ " (" ++ node.kind.wireName ++ ")") :: remarks
    ident
    construct := profile.construct template.role
    args := (args ++ predecessorArgument profile predecessor).foldl addArgument named }

end Template

end WorkflowCompiler
