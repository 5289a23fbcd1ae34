import WorkflowCompiler.Diagnostic
import WorkflowCompiler.Graph.Basic

/-! # The structure of a graph

Every occurrence of an id after its first is an error. An edge is sound when both its ends are nodes
of the graph and both its ports exist there. A graph with nodes has an entry, and a node that no
entry leads to gets a warning.
-/
namespace WorkflowCompiler.Validation

/-! ## Unique ids -/

/-- The ids that stand behind an equal one, in order. -/
def repeated : (seen ids : List Text) → List Text
  | _, [] => []
  | seen, id :: rest =>
    if seen.contains id then id :: repeated seen rest else repeated (id :: seen) rest

def duplicateNode (id : Text) : Diagnostic :=
  .error "duplicate-node" ("duplicate node id '" ++ id ++ "'") (some id)

def duplicateEdge (id : Text) : Diagnostic :=
  .error "duplicate-edge" ("duplicate edge id '" ++ id ++ "'")

def checkIdentity (g : Graph) : List Diagnostic :=
  (repeated [] (g.nodes.map (·.id))).map duplicateNode
    ++ (repeated [] (g.edges.map (·.id))).map duplicateEdge

/-! ## Edges that attach -/

def danglingEnd (edge : Edge) (place id : Text) : Diagnostic :=
  .error "dangling-edge"
    ("edge '" ++ edge.id ++ "' " ++ place ++ " '" ++ id ++ "' is not in the graph")

def unnamedOutput (edge : Edge) (source : Node) : Diagnostic :=
  let names := source.kind.outputNames source.config
  let choice : Text := if names.isEmpty then "none" else Text.join ", " names
  .error "invalid-port"
    ("edge '" ++ edge.id ++ "' must name an output port of " ++ source.kind.wireName ++ " '"
      ++ source.name ++ "' (" ++ choice ++ ")")
    (some source.id)

def unknownOutput (edge : Edge) (source : Node) (port : Text) : Diagnostic :=
  .error "invalid-port"
    ("edge '" ++ edge.id ++ "': " ++ source.kind.wireName ++ " '" ++ source.name
      ++ "' has no output port '" ++ port ++ "'")
    (some source.id)

def unknownInput (edge : Edge) (target : Node) : Diagnostic :=
  .error "invalid-port"
    ("edge '" ++ edge.id ++ "': " ++ target.kind.wireName ++ " '" ++ target.name
      ++ "' has no input port '" ++ edge.toPort ++ "'")
    (some target.id)

def checkOutput (edge : Edge) (source : Node) : List Diagnostic :=
  match source.kind.effectivePort? edge.sourcePort with
  | none => [unnamedOutput edge source]
  | some port =>
    if (source.kind.outputNames source.config).contains port then []
    else [unknownOutput edge source port]

def checkInput (edge : Edge) (target : Node) : List Diagnostic :=
  if target.kind.inputNames.contains edge.toPort then [] else [unknownInput edge target]

def checkEdge (g : Graph) (edge : Edge) : List Diagnostic :=
  match g.node? edge.source, g.node? edge.target with
  | some source, some target => checkOutput edge source ++ checkInput edge target
  | source, target =>
    (if source.isNone then [danglingEnd edge "source" edge.source] else [])
      ++ if target.isNone then [danglingEnd edge "target" edge.target] else []

def checkEdges (g : Graph) : List Diagnostic := g.edges.flatMap (checkEdge g)

def soundEdges (g : Graph) : List Edge := g.edges.filter fun e => (checkEdge g e).isEmpty

/-! ## Reachable nodes -/

def noEntry : Diagnostic :=
  .error "no-entry"
    "workflow has no entry node (add an Input node or a node without incoming edges)"

def unreachableNode (node : Node) : Diagnostic :=
  .warning "unreachable-node"
    (node.kind.wireName ++ " '" ++ node.name ++ "' is not reachable from any entry node")
    (some node.id)

def reached (g : Graph) : List Text := Graph.reachable (soundEdges g) (g.entries.map (·.id))

def checkReachability (g : Graph) : List Diagnostic :=
  if g.nodes.isEmpty then []
  else if g.entries.isEmpty then [noEntry]
  else
    let found := reached g
    (g.nodeIds.filter fun id => !found.contains id).filterMap fun id =>
      (g.node? id).map unreachableNode

end WorkflowCompiler.Validation
