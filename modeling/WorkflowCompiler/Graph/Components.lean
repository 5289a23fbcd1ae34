import WorkflowCompiler.Graph.Basic

/-! # Strongly connected components

Tarjan's search gives every node an index when it enters it, and a low link: the least index that
the search has met on the way back from the node. A node whose low link is its own index was the
first one of its component to be entered, and the component lies above it on the stack. Every
component comes after those it leads to.
-/
namespace WorkflowCompiler.Graph

/-- Successors by node; targets that are not nodes themselves are passed over. -/
abbrev Successors := List (Text × List Text)

namespace Successors

def nodes (succ : Successors) : List Text := succ.map (·.1)

def next (succ : Successors) (id : Text) : List Text :=
  ((succ.lookup id).getD []).filter fun target => succ.any (·.1 == target)

/-- The state of a search: what it knows of the nodes it has entered, those among them that are in
no component yet, the last one first, and the components it has found. -/
structure Tarjan where
  index : List (Text × Nat) := []
  low : List (Text × Nat) := []
  stack : List Text := []
  onStack : List Text := []
  counter : Nat := 0
  components : List (List Text) := []

namespace Tarjan

def entered (t : Tarjan) (id : Text) : Bool := t.index.any (·.1 == id)

def indexOf (t : Tarjan) (id : Text) : Nat := (t.index.lookup id).getD 0

def lowOf (t : Tarjan) (id : Text) : Nat := (t.low.lookup id).getD 0

def enter (t : Tarjan) (id : Text) : Tarjan :=
  { t with
    index := (id, t.counter) :: t.index
    low := (id, t.counter) :: t.low
    stack := id :: t.stack
    onStack := id :: t.onStack
    counter := t.counter + 1 }

/-- The new entry stands before the old one, so it is the one that is found. -/
def lower (t : Tarjan) (id : Text) (bound : Nat) : Tarjan :=
  { t with low := (id, min (t.lowOf id) bound) :: t.low }

/-- What lies on a stack down to a node, and what is left below it. -/
def pop (id : Text) : (stack : List Text) → List Text × List Text
  | [] => ([], [])
  | top :: rest =>
    if top = id then ([top], rest) else ((top :: (pop id rest).1), (pop id rest).2)

/-- Leaves a node: if it was the first one of its component, the component is taken off the stack. -/
def leave (t : Tarjan) (id : Text) : Tarjan :=
  if t.lowOf id = t.indexOf id then
    let (component, rest) := pop id t.stack
    { t with
      stack := rest
      onStack := t.onStack.filter (!component.contains ·)
      components := t.components ++ [Text.sort component] }
  else t

def follow (visit : Tarjan → Text → Tarjan) (id : Text) (t : Tarjan) (target : Text) : Tarjan :=
  if !t.entered target then
    let t := visit t target
    t.lower id (t.lowOf target)
  else if t.onStack.contains target then t.lower id (t.indexOf target)
  else t

end Tarjan

/-- Visits a new node and everything new behind it. The nodes whose visits have not ended are
different ones, which bounds the depth. -/
def visit (succ : Successors) : (depth : Nat) → Tarjan → Text → Tarjan
  | 0, t, _ => t
  | depth + 1, t, id =>
    ((succ.next id).foldl (Tarjan.follow (visit succ depth) id) (t.enter id)).leave id

def tarjan (succ : Successors) : Tarjan :=
  (Text.sort succ.nodes).foldl
    (fun t id => if t.entered id then t else visit succ (succ.length + 1) t id) {}

/-- The strongly connected components, each in ascending order; none leads to a later one. -/
def components (succ : Successors) : List (List Text) := succ.tarjan.components

def isTrivial (succ : Successors) (members : List Text) : Bool :=
  match members with
  | [only] => !((succ.lookup only).getD []).contains only
  | _ => false

end Successors

end WorkflowCompiler.Graph
