import WorkflowCompiler.Block.Describe
import WorkflowCompiler.Identifier.Basic
import WorkflowCompiler.Template.Basic

/-! # Progress of an emission

The statements made so far, with the identifiers that have been given away. Every block is claimed
under its key before its statement is made, and a key can be claimed once.
-/
namespace WorkflowCompiler.Emission

structure Progress where
  statements : List Statement := []
  allocator : Identifier.Allocator
  /-- The identifiers of shared sequences by key, the last one first. -/
  shared : List (Text × Text) := []
  /-- The identifiers of claimed blocks by key, the last one first. -/
  claimed : List (Text × Text) := []

abbrev Emitting := StateT Progress (Except Fault)

def exportsName : Text := "__all__"

def Progress.start (profile : Profile) : Progress :=
  { allocator := ⟨profile.reservedNames ++ [exportsName]⟩ }

def allocate (label : Text) : Emitting Text :=
  modifyGet fun p =>
    let (ident, allocator) := p.allocator.allocate label Identifier.nodeFallback
    (ident, { p with allocator })

def claim (key label : Text) : Emitting Text := do
  if ((← get).claimed.lookup key).isSome then throw (.repeatedBlock key)
  let ident ← allocate label
  modify fun p => { p with claimed := (key, ident) :: p.claimed }
  return ident

/-- The identifier of a shared sequence, which is stated when it is first asked for. -/
def once (key : Text) (stated : Emitting Text) : Emitting Text := do
  match (← get).shared.lookup key with
  | some ident => return ident
  | none =>
    let ident ← stated
    modify fun p => { p with shared := (key, ident) :: p.shared }
    return ident

def state (statement : Statement) : Emitting Unit :=
  modify fun p => { p with statements := p.statements ++ [statement] }

def defaultChildren : Text := "steps"

def childrenKeyword (profile : Profile) : Text := (profile.keyword .children).getD defaultChildren

def sequenceArguments (profile : Profile) (label ident : Text) (refs : List Text) :
    List (Text × Expression) :=
  [("name", .string (profile.displayName label ident)), (childrenKeyword profile, .names refs)]

def stateNode (profile : Profile) (template : Template) (node : Node) (ident label : Text)
    (parts : Parts) (predecessor : Option Text) : Emitting Unit := do
  state (← template.statement profile node ident label parts predecessor)

def sequenceStatement (profile : Profile) (label ident : Text) (refs : List Text) : Statement :=
  { ident, construct := profile.construct .sequence,
    args := sequenceArguments profile label ident refs }

/-- States a sequence of its own. Its identifier is taken before its items are stated. -/
def namedSequence (profile : Profile) (label : Text) (items : Emitting (List Text)) :
    Emitting Text := do
  let ident ← allocate label
  let refs ← items
  state (sequenceStatement profile label ident refs)
  return ident

end WorkflowCompiler.Emission
