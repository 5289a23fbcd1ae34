import WorkflowCompiler.Catalogue.Port

/-! # Workflow graphs

A graph is a snapshot of a document: nodes and edges in the order in which they were given,
repetitions included. A look-up by id finds the first node with that id.
-/
namespace WorkflowCompiler

structure Node where
  id : Text
  kind : NodeKind
  config : Members
  /-- Where the editor draws the node; the compiler never looks at it. -/
  position : Option (Float × Float) := none

structure Edge where
  id : Text
  source : Text
  target : Text
  sourcePort : Option Text := none
  targetPort : Option Text := none
deriving DecidableEq

structure Graph where
  nodes : List Node
  edges : List Edge

/-- The name of a node: a configured name with more than blanks, else the id. -/
def Node.name (node : Node) : Text :=
  match node.config.get "name" with
  | .str name => if Text.isBlankText name then node.id else name
  | _ => node.id

def Node.describe (node : Node) : Text := "Node(" ++ node.id ++ ":" ++ node.kind.wireName ++ ")"

def Node.settings (node : Node) : Members := node.kind.resolve node.config

def Edge.toPort (edge : Edge) : Text :=
  match edge.targetPort with
  | some port => if port = [] then defaultPort else port
  | none => defaultPort

def Edge.describe (edge : Edge) : Text :=
  let port : Text :=
    match edge.sourcePort with
    | some port => if port = [] then "*" else port
    | none => "*"
  "Edge(" ++ edge.id ++ ": " ++ edge.source ++ "." ++ port ++ " -> " ++ edge.target ++ "."
    ++ edge.toPort ++ ")"

namespace Graph

def size (g : Graph) : Nat := g.nodes.length

def describe (g : Graph) : Text :=
  "Graph(nodes=" ++ toString g.nodes.length ++ ", edges=" ++ toString g.edges.length ++ ")"

def node? (g : Graph) (id : Text) : Option Node := g.nodes.find? (·.id == id)

/-- The ids of the nodes in the order of their first occurrence, each once. -/
def nodeIds (g : Graph) : List Text := (g.nodes.map (·.id)).eraseDups

def outgoing (g : Graph) (id : Text) : List Edge := g.edges.filter (·.source == id)

def incoming (g : Graph) (id : Text) : List Edge := g.edges.filter (·.target == id)

end Graph

/-- Edges in ascending order of their ids; edges with one id keep their order. -/
def sortEdges (edges : List Edge) : List Edge := edges.mergeSort fun a b => Text.le a.id b.id

/-- The nodes at which a workflow begins, in ascending order of ids: its inputs or, where it has
none, the nodes that no edge enters. -/
def Graph.entries (g : Graph) : List Node :=
  let inputs := g.nodes.filter (·.kind = .input)
  let starts := if inputs.isEmpty then g.nodes.filter fun n => (g.incoming n.id).isEmpty else inputs
  (Text.sort (starts.map (·.id)).eraseDups).filterMap fun id => starts.find? (·.id == id)

/-! ## Search along edges

A worklist search collects what can be reached from some starts. Regions of a graph, such as the
body of a loop, are what can be reached from a port without passing the node it belongs to.
-/

namespace Graph

/-- Takes items off the worklist; one that is new is recorded and its successors are put in front.
Every step removes an item, and the successors of a node are put once, so as many steps as there
are starts and edges suffice. -/
def search (next : Text → List Text) : (fuel : Nat) → (work seen : List Text) → List Text
  | 0, _, seen => seen
  | _, [], seen => seen
  | fuel + 1, id :: work, seen =>
    if seen.contains id then search next fuel work seen
    else search next fuel (next id ++ work) (id :: seen)

def targets (edges : List Edge) (id : Text) : List Text :=
  (edges.filter (·.source == id)).map (·.target)

def reachable (edges : List Edge) (starts : List Text) : List Text :=
  search (targets edges) (starts.length + edges.length + 1) starts []

/-- What can be reached along the edges that leave `head` with a given port, without passing
`head`. -/
def reachableFromPort (edges : List Edge) (head : Text) (port : Option Text) : List Text :=
  let starts := (edges.filter fun e => e.source == head && e.sourcePort == port).map (·.target)
  (search (targets edges) (starts.length + edges.length + 1) starts [head]).filter (· != head)

def loopBody (edges : List Edge) (head : Text) : List Text :=
  reachableFromPort edges head (some "loop")

end Graph

end WorkflowCompiler
