import WorkflowCompiler.Graph.Basic

/-! # Facts about a graph

What resolution asks of a graph: where the ports of a node lead, which edges go back to the head of
a loop, and at which nodes several producers meet.
-/
namespace WorkflowCompiler

/-- The edges that end at a loop and come from its body or from the loop itself. -/
def Graph.backEdges (g : Graph) : List Edge :=
  (g.nodes.filter (·.kind = .loop)).flatMap fun head =>
    let body := loopBody g.edges head.id
    (g.incoming head.id).filter fun e => body.contains e.source || e.source == head.id

/-- The edges over which a node is reached for the first time: they leave a node that can be
reached, and none of them goes back to the head of a loop. -/
def Graph.forwardEdges (g : Graph) : List Edge :=
  let reached := reachable g.edges (g.entries.map (·.id))
  let back := g.backEdges.map (·.id)
  g.edges.filter fun e => !back.contains e.id && reached.contains e.source

def Graph.merges (g : Graph) : List Text :=
  let targets := g.forwardEdges.map (·.target)
  targets.eraseDups.filter fun id => 1 < targets.count id

def Graph.portOf? (g : Graph) (edge : Edge) : Option Text :=
  (g.node? edge.source).bind fun node => node.kind.effectivePort? edge.sourcePort

namespace Resolution

structure Facts where
  graph : Graph
  /-- The edges in ascending order of ids, each with the port it leaves by. -/
  exits : List (Edge × Option Text)
  merges : List Text

namespace Facts

def ofGraph (g : Graph) : Facts :=
  { graph := g, exits := (sortEdges g.edges).map fun e => (e, g.portOf? e), merges := g.merges }

def isMerge (facts : Facts) (id : Text) : Bool := facts.merges.contains id

/-- The nodes to which a port of a node leads, in the order of the edge ids, each once. -/
def targets (facts : Facts) (id port : Text) : List Text :=
  let out := facts.exits.filter fun e => e.1.source == id && e.2 == some port
  (out.map (·.1.target)).eraseDups

def allTargets (facts : Facts) (id : Text) : List Text :=
  let out := facts.exits.filter (·.1.source == id)
  (out.map (·.1.target)).eraseDups

end Facts

end Resolution

end WorkflowCompiler
