import WorkflowCompiler.Diagnostic
import WorkflowCompiler.Fault
import WorkflowCompiler.Graph.Basic
import WorkflowCompiler.Text.Basic

/-! # Complete branches

A port of a conditional or a router that no edge leaves by gets a warning, unless the node lists
the port as terminated.
-/
namespace WorkflowCompiler.Validation

/-- Whether terminated ports name a port: a list by an equal text, a text by containing it, an
object by a member. Nothing else can be searched. -/
def listsPort (port : Text) : Value → Except Fault Bool
  | .list items => .ok (items.any fun v => v.str? == some port)
  | .str s => .ok (Text.occursIn port s)
  | .object ms => .ok (Members.has ms port)
  | v => if v.isGiven then .error (.portsNotSearchable v) else .ok false

def branchPorts (node : Node) : List (Text × Text) :=
  match node.kind with
  | .conditional => [("true", "true"), ("false", "false")]
  | .router => routeLabels node.config
  | _ => []

def isUsed (g : Graph) (node : Node) (port : Text) : Bool :=
  (g.outgoing node.id).any fun e => node.kind.effectivePort? e.sourcePort == some port

def unterminatedBranch (node : Node) (port label : Text) : Diagnostic :=
  let shown := if label = port then port else port ++ " (" ++ label ++ ")"
  .warning "unterminated-branch"
    (node.kind.wireName ++ " '" ++ node.name ++ "' port '" ++ shown
      ++ "' has no outgoing edge; the branch compiles to a no-op")
    (some node.id)

def checkPort (g : Graph) (node : Node) (port label : Text) : Except Fault (List Diagnostic) :=
  if isUsed g node port then .ok []
  else
    (listsPort port (node.config.get "terminatedPorts")).map fun listed =>
      if listed then [] else [unterminatedBranch node port label]

def checkBranch (g : Graph) (node : Node) : Except Fault (List Diagnostic) :=
  ((branchPorts node).mapM fun port => checkPort g node port.1 port.2).map List.flatten

def checkBranches (g : Graph) : Except Fault (List Diagnostic) :=
  (g.nodes.mapM (checkBranch g)).map List.flatten

end WorkflowCompiler.Validation
