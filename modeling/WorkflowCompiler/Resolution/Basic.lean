import WorkflowCompiler.Block.Basic
import WorkflowCompiler.Resolution.Facts
import WorkflowCompiler.Validation.Basic

/-! # Resolution

A validated graph is resolved into one block, which holds every step that can be reached.
-/
namespace WorkflowCompiler.Resolution

/-! ## Joining sibling chains

A shared sequence ends every chain that leads to it, and runs after all of them.
-/

def heldBack (blocks : List Block) : List (Text × Block) :=
  blocks.foldl (fun held block =>
    match block.sharedKey? with
    | none => held
    | some key => if held.any (·.1 == key) then held else held ++ [(key, block)]) []

def nestedKeys (block : Block) : List Text :=
  block.walk.filterMap fun inner =>
    if inner.serial = block.serial then none else inner.sharedKey?

/-- One list of blocks of sibling chains: first what belongs to one chain only, then the shared
sequences, without those that stand inside another one. -/
def splice (chains : List (List Block)) : List Block :=
  let blocks := chains.flatten
  let held := heldBack blocks
  let nested := held.flatMap fun h => nestedKeys h.2
  blocks.filter (·.sharedKey?.isNone)
    ++ (held.filter fun h => !nested.contains h.1).map (·.2)

/-! ## Chains

A chain is what is run from a node on. It follows the ports of the kinds: a single successor
continues the chain, several are run one after the other, and a container holds the chains of its
arms. A chain ends at the head of a loop around it. Where several producers meet, the chain behind
the meeting point is resolved once and shared.
-/

/-- How far resolution has come: the serial number of the next block, the shared sequences by key,
and the merge points that were come upon, the last one first. -/
structure Progress where
  next : Nat := 1
  shared : List (Text × Block) := []
  merges : List Text := []

abbrev Resolving := EStateM Fault Progress

def freshSerial : Resolving Nat :=
  modifyGet fun p => (p.next, { p with next := p.next + 1 })

def newLeaf (node : Node) : Resolving Block := return .leaf (← freshSerial) node

def newSequence (items : List Block) (container : Option Node) (key : Option Text) :
    Resolving Block :=
  return .sequence (← freshSerial) items container key

def joined (chain : Text → Resolving (List Block)) (starts : List Text) :
    Resolving (List Block) :=
  return splice (← starts.mapM chain)

/-- The sequence of an arm. An arm that is nothing but a shared sequence is that sequence. -/
def arm (chain : Text → Resolving (List Block)) (starts : List Text) : Resolving Block := do
  let items ← joined chain starts
  match items with
  | [item] => if item.sharedKey?.isSome then return item else newSequence [item] none none
  | items => newSequence items none none

/-- The members of a parallel container: one for each start, unless its chain is empty. -/
def members (chain : Text → Resolving (List Block)) : List Text → Resolving (List Block)
  | [] => return []
  | start :: rest => do
    match ← chain start with
    | [] => members chain rest
    | [block] => return block :: (← members chain rest)
    | items =>
      let block ← newSequence items none none
      return block :: (← members chain rest)

def routes (chain : Text → Resolving (List Block)) (targets : Text → List Text) :
    List (Text × Text) → Resolving (List (Exit × Block))
  | [] => return []
  | (port, label) :: rest => do
    let block ← arm chain (targets port)
    return (⟨label, port⟩, block) :: (← routes chain targets rest)

def loopParams (kind : LoopKind) (settings : Members) : Members :=
  let own :=
    match kind with
    | .fixedCount => ("count", settings.get "loopCount")
    | .whileTrue => ("condition", settings.get "loopCondition")
    | .forEach => ("items", settings.get "loopItems")
  let limit := settings.get "maxIterations"
  if limit.isNull then [own] else [own, ("max_iterations", limit)]

/-- The blocks of a node and the nodes with which its chain goes on. The chains of the arms are
resolved by `chain`, which is given the loop heads at which to stop. -/
def resolveNode (facts : Facts) (chain : List Text → Text → Resolving (List Block))
    (stop : List Text) (node : Node) : Resolving (List Block × List Text) := do
  let targets := facts.targets node.id
  let settings := node.settings
  match node.kind with
  | .sequential =>
    let items ← joined (chain stop) (targets defaultPort)
    return ([← newSequence items (some node) none], [])
  | .parallel =>
    let members ← members (chain stop) (facts.allTargets node.id)
    let join ← MonadExcept.ofExcept (JoinStrategy.ofValue (settings.get "joinStrategy"))
    return ([.parallel (← freshSerial) node members join], [])
  | .conditional =>
    let onTrue ← arm (chain stop) (targets "true")
    let onFalse ← arm (chain stop) (targets "false")
    let condition := (settings.get? "condition").getD (.str "")
    return ([.branch (← freshSerial) node condition onTrue onFalse none], [])
  | .router =>
    let routes ← routes (chain stop) targets (routeLabels node.config)
    return ([.switch (← freshSerial) node routes], [])
  | .loop =>
    let body ← arm (chain (node.id :: stop)) (targets "loop")
    let kind ← MonadExcept.ofExcept (LoopKind.ofValue (settings.get "loopType"))
    return ([.loop (← freshSerial) node body kind (loopParams kind settings)], targets "exit")
  | kind =>
    let leaf ← newLeaf node
    match kind.outcomePorts? with
    | none => return ([leaf], targets defaultPort)
    | some (success, failure) =>
      if (targets failure).isEmpty then return ([leaf], targets success)
      else
        let onTrue ← arm (chain stop) (targets success)
        let onFalse ← arm (chain stop) (targets failure)
        return ([leaf, .branch (← freshSerial) node (.str success) onTrue onFalse (some success)],
          [])

/-- The blocks from a node on that no producer shares. `chain` resolves what follows; it is given
the merge point to which the present chain belongs, if the chain just goes on. -/
def enter (facts : Facts) (chain : Option Text → List Text → Text → Resolving (List Block))
    (owner : Option Text) (active stop : List Text) (id : Text) : Resolving (List Block) := do
  if active.contains id then throw (.reentered id)
  match facts.graph.node? id with
  | none => throw (.unknownNode id)
  | some node =>
    let (blocks, nexts) ← resolveNode facts (chain none) stop node
    match nexts with
    | [next] => return blocks ++ (← chain owner stop next)
    | nexts => return blocks ++ (← joined (chain none stop) nexts)

def sharedSequence (id : Text) (resolved : Resolving (List Block)) : Resolving Block := do
  match (← get).shared.lookup id with
  | some block => return block
  | none =>
    modify fun p => { p with merges := id :: p.merges }
    let block ← newSequence (← resolved) none (some id)
    modify fun p => { p with shared := (id, block) :: p.shared }
    return block

/-- The chain from a node on. `active` are the nodes whose chains are being resolved, and `stop` the
heads of the loops around. `owner` is the merge point whose own chain this is. Every entered node
is active from then on, so the number of nodes bounds the depth. -/
def chain (facts : Facts) : (depth : Nat) → (owner : Option Text) → (active stop : List Text) →
    (id : Text) → Resolving (List Block)
  | 0, _, _, _, id => throw (.reentered id)
  | depth + 1, owner, active, stop, id => do
    let follow := fun owner => chain facts depth owner (id :: active)
    if stop.contains id then return []
    else if facts.isMerge id && owner != some id then
      return [← sharedSequence id (enter facts follow (some id) active stop id)]
    else enter facts follow owner active stop id

def root (facts : Facts) : Resolving Block := do
  let starts := facts.graph.entries.map (·.id)
  newSequence (← joined (chain facts (facts.graph.size + 1) none [] []) starts) none none

end WorkflowCompiler.Resolution

namespace WorkflowCompiler

structure Resolution where
  block : Except Fault Block
  merges : List Text

def resolve (validated : Validated) : Resolution :=
  match (Resolution.root (.ofGraph validated.graph)).run {} with
  | .ok block progress => ⟨.ok block, progress.merges.reverse⟩
  | .error fault progress => ⟨.error fault, progress.merges.reverse⟩

end WorkflowCompiler
