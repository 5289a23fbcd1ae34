import WorkflowCompiler.Graph.Components
import WorkflowCompiler.Validation.Structure

/-! # Legal cycles

A cyclic component is legal when one of its loops owns it: the other members are in the body of the
loop, the component is entered through the loop only, the exit does not lead back into the body,
and the cycles that remain without the loop are legal themselves.
-/
namespace WorkflowCompiler.Validation

def isLoop (g : Graph) (id : Text) : Bool := (g.node? id).any (·.kind = .loop)

def successors (g : Graph) (edges : List Edge) : Graph.Successors :=
  let sorted := sortEdges edges
  g.nodeIds.map fun id => (id, Graph.targets sorted id)

/-- Whether an edge enters the members past their head, or the exit leads back into the body. -/
def isBroken (edges : List Edge) (head : Text) (body members : List Text) : Bool :=
  edges.any (fun e =>
    members.contains e.target && e.target != head && !body.contains e.source && e.source != head)
    || (Graph.reachableFromPort edges head (some "exit")).any body.contains

/-- Whether a head owns the members, apart from the cycles that remain without it. -/
def owns (edges : List Edge) (head : Text) (members : List Text) : Bool :=
  let body := Graph.loopBody edges head
  members.all (fun m => m == head || body.contains m) && !isBroken edges head body members

def restrict (succ : Graph.Successors) (members : List Text) : Graph.Successors :=
  (succ.filter fun s => members.contains s.1).map fun s => (s.1, s.2.filter members.contains)

/-- Whether the members of a cyclic component are legal. A component that remains is smaller, so
the number of nodes is fuel enough. -/
def isLegal (g : Graph) (edges : List Edge) : (fuel : Nat) → (members : List Text) → Bool
  | 0, _ => false
  | fuel + 1, members =>
    (Text.sort (members.filter (isLoop g))).any fun head =>
      owns edges head members &&
        let inner := restrict (successors g edges) (members.filter (· != head))
        inner.components.all fun c => inner.isTrivial c || isLegal g edges fuel c

def illegalCycle (g : Graph) (members : List Text) : Diagnostic :=
  let names := members.filterMap fun id => (g.node? id).map (·.name)
  .error "illegal-cycle"
    ("illegal cycle through " ++ Text.join ", " names
      ++ ": cycles must be enclosed in a loop container body")
    members.head?

def checkCycles (g : Graph) : List Diagnostic :=
  let edges := soundEdges g
  let succ := successors g edges
  (succ.components.filter fun c =>
    !succ.isTrivial c && !isLegal g edges (g.nodes.length + 1) c).map (illegalCycle g)

end WorkflowCompiler.Validation
