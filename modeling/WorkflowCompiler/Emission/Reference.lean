import WorkflowCompiler.Emission.Progress

/-! # References

What refers to a block in the code. A block is stated before anything refers to it: its inner
blocks first, then its own construct.
-/
namespace WorkflowCompiler.Emission

def headLabel (block : Block) (what : Text) : Except Fault Text :=
  block.head.map fun head => head.2 ++ " " ++ what

/-- An arm. A shared sequence is referred to by `whole`; any other is written in place, from the
references to its items. -/
def arm (profile : Profile) (block : Block) (whole : Emitting Text)
    (items : Emitting (List Text)) (label ident exit : Text) : Emitting Expression :=
  match block with
  | .sequence .. =>
    if block.sharedKey?.isSome then return .name (← whole)
    else do
      let refs ← items
      return .call (profile.construct .sequence)
        (sequenceArguments profile (label ++ " " ++ exit) (ident ++ "_" ++ exit) refs)
  | _ => throw (.looseArm exit ident)

def sortMembers {α : Type} (members : List (Text × α)) : List (Text × α) :=
  members.mergeSort fun a b => Text.le a.1 b.1

def outcomeCondition (step outcome : Text) : Value :=
  .str (step ++ ".outcome == '" ++ outcome ++ "'")

mutual

def reference (profile : Profile) (block : Block) (predecessor : Option Text) :
    Emitting Text :=
  match block with
  | .absent => throw .noBlock
  | .leaf _ node => do
    let ident ← claim node.id node.name
    stateNode profile node.kind.template node ident node.name {} predecessor
    return ident
  | .sequence n items container key =>
    match (Block.sequence n items container key).sharedKey?, container with
    | some key, container =>
      once key <|
        match items with
        | [item] => reference profile item none
        | items => do
          let label ← headLabel (.sequence n items container (some key)) "chain"
          namedSequence profile label (references profile items none)
    | none, none => do
      let label ← headLabel (.sequence n items none none) "branch"
      namedSequence profile label (references profile items none)
    | none, some node => do
      let ident ← claim node.id node.name
      let refs ← references profile items none
      let parts := { children := some (.names refs) }
      stateNode profile node.kind.template node ident node.name parts predecessor
      return ident
  | .parallel _ node members join => do
    let ident ← claim node.id node.name
    let heads ← members.mapM fun member => member.head
    let sorted := sortMembers ((heads.map (·.1)).zip (memberReferences profile members))
    let refs ← sorted.mapM (·.2)
    let parts := { members := some (.names refs), join := some (.str join.name) }
    stateNode profile node.kind.template node ident node.name parts predecessor
    return ident
  | .branch _ node condition onTrue onFalse outcomePort => do
    let key := Block.branchKey node outcomePort
    let armTrue := arm profile onTrue (reference profile onTrue none)
      (itemReferences profile onTrue) node.name
    let armFalse := arm profile onFalse (reference profile onFalse none)
      (itemReferences profile onFalse) node.name
    if (outcomePort.getD []) = [] then
      let ident ← claim key node.name
      let ifTrue ← armTrue ident "true"
      let ifFalse ← armFalse ident "false"
      let parts :=
        { condition := some condition, ifTrue := some ifTrue, ifFalse := some ifFalse }
      stateNode profile node.kind.template node ident node.name parts predecessor
      return ident
    else
      let step := ((← get).claimed.lookup node.id).getD
        (Identifier.ofName node.name Identifier.nodeFallback)
      let label := node.name ++ " outcome"
      let ident ← claim key label
      match node.kind.outcomePorts? with
      | none => throw (.noOutcome node.kind.wireName)
      | some (success, failure) =>
        let ifTrue ← armTrue ident success
        let ifFalse ← armFalse ident failure
        let parts :=
          { condition := some (outcomeCondition step success), ifTrue := some ifTrue,
            ifFalse := some ifFalse }
        stateNode profile .outcomeSplit node ident label parts predecessor
        return ident
  | .switch _ node routes => do
    let ident ← claim node.id node.name
    let arms ← routeReferences profile routes node.name ident
    let parts := { routes := some (.list arms) }
    stateNode profile node.kind.template node ident node.name parts predecessor
    return ident
  | .loop _ node body _ _ => do
    let ident ← claim node.id node.name
    let inner ← arm profile body (reference profile body none) (itemReferences profile body)
      node.name ident "body"
    let parts := { body := some (if profile.bodyAsList then .list [inner] else inner) }
    stateNode profile node.kind.template node ident node.name parts predecessor
    return ident

/-- The identifiers of items one after the other. Each one is the predecessor of the next, except
for a shared sequence, which has producers elsewhere. -/
def references (profile : Profile) (blocks : List Block) (previous : Option Text) :
    Emitting (List Text) :=
  match blocks with
  | [] => return []
  | block :: rest => do
    let ident ← reference profile block previous
    let previous := if block.sharedKey?.isSome then none else some ident
    return ident :: (← references profile rest previous)

def itemReferences (profile : Profile) (block : Block) : Emitting (List Text) :=
  match block with
  | .sequence _ items _ _ => references profile items none
  | _ => return []

/-- How each of some members is referred to; nothing is stated yet. -/
def memberReferences (profile : Profile) (members : List Block) : List (Emitting Text) :=
  match members with
  | [] => []
  | member :: rest => reference profile member none :: memberReferences profile rest

def routeReferences (profile : Profile) (routes : List (Exit × Block)) (label ident : Text) :
    Emitting (List Expression) :=
  match routes with
  | [] => return []
  | (exit, block) :: rest => do
    let inner ← arm profile block (reference profile block none) (itemReferences profile block)
      label ident exit.port
    return .pair exit.label inner :: (← routeReferences profile rest label ident)

end

end WorkflowCompiler.Emission
