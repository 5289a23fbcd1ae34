import WorkflowCompiler.Decimal.Binary64
import WorkflowCompiler.Document.Schema
import WorkflowCompiler.Json.Reader
import WorkflowCompiler.Storage.FileTree

/-! # Loading and saving workflows

A value of the right shape is read as a workflow. Reading does not look at shapes again: it takes
members and numbers to be where the check has found them, and fails if they are not. Configuration
stands on a node itself or in its `data` member. A graph is saved with the configuration of its nodes
beside their ids and kinds.
-/
namespace WorkflowCompiler

structure Workflow where
  graph : Graph
  name : Text

namespace Document

inductive LoadFault where
  | shape (fault : Fault)
  | json (path : String) (text : String) (fault : Json.Fault)
  /-- A coordinate lies beyond the range of the numbers. -/
  | coordinate
  /-- A member is asked for by name that is not there. -/
  | noMember (field : Text)
  /-- Members are asked for of a value that is no object. -/
  | noMembers (v : Value)
  /-- The elements are asked for of a value that is no list. -/
  | noElements (v : Value)
  | noText (v : Value)
  | noNumber (v : Value)
  | noKind (v : Value)

def LoadFault.malformed? : LoadFault → Option Text
  | .shape fault => some fault.message
  | .json path text fault@(.malformed _ _) => some (path ++ ": invalid JSON: " ++ fault.message text)
  | _ => none

def defaultName : Text := "workflow"

/-- Members of a node that are not configuration. -/
def metaKeys : List Text :=
  ["id", "type", "position", "data", "selected", "dragging", "width", "height", "positionAbsolute",
    "measured"]

section Access

def memberOf (ms : Members) (field : Text) : Except LoadFault Value :=
  match ms.get? field with
  | some v => .ok v
  | none => .error (.noMember field)

def membersOf : Value → Except LoadFault Members
  | .object ms => .ok ms
  | v => .error (.noMembers v)

def elementsOf : Value → Except LoadFault (List Value)
  | .list items => .ok items
  | v => .error (.noElements v)

def textOf : Value → Except LoadFault Text
  | .str s => .ok s
  | v => .error (.noText v)

/-- Truth values count as 0 and 1 here. -/
def numberOf (v : Value) : Except LoadFault Float :=
  match v with
  | .float x => .ok x
  | .int n => (Decimal.ofInt? n).elim (.error .coordinate) .ok
  | .bool b => (Decimal.ofInt? b.toInt).elim (.error .coordinate) .ok
  | v => .error (.noNumber v)

def kindOf (v : Value) : Except LoadFault NodeKind :=
  (v.str?.bind NodeKind.ofWire?).elim (.error (.noKind v)) .ok

def givenOf {α : Type} (read : Value → Except LoadFault α) (v : Value) :
    Except LoadFault (Option α) :=
  if v.isGiven then (read v).map some else .ok none

end Access

/-- The configuration of a node: the members beside the bookkeeping, overridden by those of `data`.
A label serves as the name of a node that has none. -/
def configOf (spec data : Members) : Members :=
  let own := spec.filter fun m => !metaKeys.contains m.1
  let config := Members.merge own data
  match (config.get "name").isGiven, config.get "label" with
  | false, .str label => config.put "name" (.str label)
  | _, _ => config

def positionOf (v : Value) : Except LoadFault (Option (Float × Float)) :=
  if v.isNull then .ok none
  else do
    let position ← membersOf v
    let x ← memberOf position "x" >>= numberOf
    let y ← memberOf position "y" >>= numberOf
    .ok (some (x, y))

def readNode (v : Value) : Except LoadFault Node := do
  let spec ← membersOf v
  let data ← givenOf membersOf (spec.get "data")
  let position ← positionOf (spec.get "position")
  let id ← memberOf spec "id" >>= textOf
  let kind ← memberOf spec "type" >>= kindOf
  .ok { id, kind, config := configOf spec (data.getD []), position }

def readEdge (v : Value) : Except LoadFault Edge := do
  let spec ← membersOf v
  let id ← memberOf spec "id" >>= textOf
  let source ← memberOf spec "source" >>= textOf
  let target ← memberOf spec "target" >>= textOf
  let sourcePort ← givenOf textOf (spec.get "sourceHandle")
  let targetPort ← givenOf textOf (spec.get "targetHandle")
  .ok { id, source, target, sourcePort, targetPort }

def nameOf (root : Members) : Except LoadFault Text := do
  match ← givenOf textOf (root.get "name") with
  | some name => .ok name
  | none =>
    let id ← givenOf textOf (root.get "id")
    .ok (id.getD defaultName)

def read (v : Value) : Except LoadFault Workflow := do
  let root ← membersOf v
  let nodes ← memberOf root "nodes" >>= elementsOf
  let nodes ← nodes.mapM readNode
  let edges ← memberOf root "edges" >>= elementsOf
  let edges ← edges.mapM readEdge
  let name ← nameOf root
  .ok { graph := { nodes, edges }, name }

def load (v : Value) : Except LoadFault Workflow :=
  match check v with
  | .error fault => .error (.shape fault)
  | .ok () => read v

def loadText (path text : String) : Except LoadFault Workflow :=
  match Json.read text with
  | .error fault => .error (.json path text fault)
  | .ok v => load v

inductive FileFault where
  | storage (fault : StorageFault)
  | document (fault : LoadFault)

def loadFile (find : Lookup) (path : Path) : Except FileFault Workflow :=
  match find.readText path with
  | .error fault => .error (.storage fault)
  | .ok text =>
    match loadText path.text text with
    | .error fault => .error (.document fault)
    | .ok workflow => .ok workflow

def frame (node : Node) : Members :=
  ("id", .str node.id) :: ("type", .str node.kind.wireName) ::
    match node.position with
    | none => []
    | some (x, y) => [("position", .object [("x", .float x), ("y", .float y)])]

def saveNode (node : Node) : Value := .object (Members.merge (frame node) node.config)

def saveEdge (edge : Edge) : Value :=
  .object [("id", .str edge.id), ("source", .str edge.source), ("target", .str edge.target),
    ("sourceHandle", .ofOption edge.sourcePort), ("targetHandle", .ofOption edge.targetPort)]

def save (w : Workflow) : Value :=
  .object [("name", .str w.name), ("nodes", .list (w.graph.nodes.map saveNode)),
    ("edges", .list (w.graph.edges.map saveEdge))]

end Document

end WorkflowCompiler
