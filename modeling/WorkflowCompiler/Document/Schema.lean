import WorkflowCompiler.Graph.Basic

/-! # Workflow documents

A document is an object with a list of nodes and a list of edges. This module checks the shape of a
JSON value and reports the first place where it is wrong: first in the root, then in the nodes, then
in the edges.
-/
namespace WorkflowCompiler

namespace Document

inductive Fault where
  | rootNotObject
  | rootField (field : Text)
  | notList (field : Text)
  | notText (field : Text)
  | nodeNotObject (index : Nat)
  | nodeField (index : Nat) (field : Text)
  | nodeId (index : Nat)
  | nodeType (index : Nat)
  | unknownType (index : Nat) (name : Text)
  | nodeData (index : Nat)
  | nodePosition (index : Nat)
  | nodeAxis (index : Nat) (axis : Text)
  | edgeNotObject (index : Nat)
  | edgeField (index : Nat) (field : Text)
  | edgeText (index : Nat) (field : Text)
  | edgePort (index : Nat) (field : Text)

def nodePlace (index : Nat) : Text := "nodes[" ++ toString index ++ "]"

def edgePlace (index : Nat) : Text := "edges[" ++ toString index ++ "]"

def missing (place field : Text) : Text :=
  place ++ ": missing required field '" ++ field ++ "'"

def Fault.message : Fault → Text
  | .rootNotObject => "workflow JSON must be a JSON object at the top level"
  | .rootField field => missing "workflow root" field
  | .notList field => field ++ " must be a list"
  | .notText field => "workflow " ++ field ++ " must be a string"
  | .nodeNotObject i => nodePlace i ++ ": each node must be a JSON object"
  | .nodeField i field => missing (nodePlace i) field
  | .nodeId i => nodePlace i ++ ".id must be a non-empty string"
  | .nodeType i => nodePlace i ++ ".type must be a string"
  | .unknownType i name => nodePlace i ++ ": unknown node type '" ++ name ++ "'"
  | .nodeData i => nodePlace i ++ ".data must be an object"
  | .nodePosition i => nodePlace i ++ ".position must be an object"
  | .nodeAxis i axis => nodePlace i ++ ".position." ++ axis ++ " must be a number"
  | .edgeNotObject i => edgePlace i ++ ": each edge must be a JSON object"
  | .edgeField i field => missing (edgePlace i) field
  | .edgeText i field => edgePlace i ++ "." ++ field ++ " must be a string"
  | .edgePort i field => edgePlace i ++ "." ++ field ++ " must be a string or null"

def require (condition : Bool) (fault : Fault) : Except Fault Unit :=
  if condition then .ok () else .error fault

def absent? (ms : Members) (fields : List Text) : Option Text :=
  fields.find? fun field => !ms.has field

def requireFields (ms : Members) (fields : List Text) (fault : Text → Fault) : Except Fault Unit :=
  match absent? ms fields with
  | some field => .error (fault field)
  | none => .ok ()

def isText : Value → Bool
  | .str _ => true
  | _ => false

def isNumber : Value → Bool
  | .int _ | .float _ => true
  | _ => false

def checkPosition (index : Nat) : Value → Except Fault Unit
  | .null => .ok ()
  | .object position => do
    require (isNumber (Members.get position "x")) (.nodeAxis index "x")
    require (isNumber (Members.get position "y")) (.nodeAxis index "y")
  | _ => .error (.nodePosition index)

def checkNode (index : Nat) (v : Value) : Except Fault Unit := do
  let .object spec := v | .error (.nodeNotObject index)
  requireFields spec ["id", "type"] (.nodeField index)
  require (isText (Members.get spec "id") && (Members.get spec "id").isGiven) (.nodeId index)
  let .str type := Members.get spec "type" | .error (.nodeType index)
  require (NodeKind.ofWire? type).isSome (.unknownType index type)
  let data := Members.get spec "data"
  require (data.isNull || data.members?.isSome) (.nodeData index)
  checkPosition index (Members.get spec "position")

def isTextOrNull (ms : Members) (field : Text) : Bool :=
  (ms.get field).isNull || isText (ms.get field)

def checkEdge (index : Nat) (v : Value) : Except Fault Unit := do
  let .object spec := v | .error (.edgeNotObject index)
  requireFields spec ["id", "source", "target"] (.edgeField index)
  require (isText (Members.get spec "id")) (.edgeText index "id")
  require (isText (Members.get spec "source")) (.edgeText index "source")
  require (isText (Members.get spec "target")) (.edgeText index "target")
  require (isTextOrNull spec "sourceHandle") (.edgePort index "sourceHandle")
  require (isTextOrNull spec "targetHandle") (.edgePort index "targetHandle")

/-- Checks the elements of a list with their indices, from `index` on. -/
def checkAll (check : Nat → Value → Except Fault Unit) : Nat → List Value → Except Fault Unit
  | _, [] => .ok ()
  | index, v :: rest => do
    check index v
    checkAll check (index + 1) rest

def check (v : Value) : Except Fault Unit := do
  let .object root := v | .error .rootNotObject
  requireFields root ["nodes", "edges"] .rootField
  let .list nodes := Members.get root "nodes" | .error (.notList "nodes")
  let .list edges := Members.get root "edges" | .error (.notList "edges")
  require (isTextOrNull root "id") (.notText "id")
  require (isTextOrNull root "name") (.notText "name")
  checkAll checkNode 0 nodes
  checkAll checkEdge 0 edges

end Document

end WorkflowCompiler
