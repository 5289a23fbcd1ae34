import WorkflowCompiler.Diagnostic
import WorkflowCompiler.Fault
import WorkflowCompiler.Graph.Basic

/-! # Complete configuration

Every required field has a value, and every value has the type of its field, is among the choices
and reaches the minimum. A value that is shown in a message must not have too many digits.
-/
namespace WorkflowCompiler.Validation

def isText (text : Text) : Value → Bool
  | .str s => s = text
  | _ => false

def controlling (node : Node) (name : Text) : Value :=
  match node.config.get name with
  | .null => ((node.kind.fields.find? (·.name == name)).map (·.default)).getD .null
  | v => v

def isRequired (node : Node) (field : Field) : Bool :=
  field.required ||
    match field.requiredWhen with
    | none => false
    | some (name, expected) => isText expected (controlling node name)

/-- Whether a value counts as absent: null, and an empty text where a text is wanted. -/
def isAbsent (field : Field) : Value → Bool
  | .null => true
  | .str s => field.type = .string && s = ""
  | _ => false

def isBelow (minimum : Nat) : Value → Bool
  | .int n => n < minimum
  | .float x => x < Float.ofNat minimum
  | _ => false

def isChoice (choices : List Text) : Value → Bool
  | .str s => choices.contains s
  | _ => false

def problem? (field : Field) (v : Value) : Except Fault (Option Text) :=
  if !field.type.admits v then
    .ok (some ("must be of type " ++ field.type.name ++ ", got " ++ v.typeName))
  else if !field.choices.isEmpty && !isChoice field.choices v then do
    return some ("must be one of " ++ Text.join ", " field.choices ++ "; got '" ++ (← v.shown) ++ "'")
  else
    match field.minimum with
    | none => .ok none
    | some minimum =>
      if isBelow minimum v then do
        return some ("must be at least " ++ toString minimum ++ "; got " ++ (← v.shown))
      else .ok none

def missingConfig (node : Node) (field : Field) : Diagnostic :=
  .error "missing-config"
    (node.kind.wireName ++ " '" ++ node.name ++ "' requires '" ++ field.name ++ "'") (some node.id)

def invalidConfig (node : Node) (field : Field) (problem : Text) : Diagnostic :=
  .error "invalid-config"
    (node.kind.wireName ++ " '" ++ node.name ++ "': '" ++ field.name ++ "' " ++ problem)
    (some node.id)

def checkField (node : Node) (field : Field) : Except Fault (Option Diagnostic) :=
  let v := node.config.get field.name
  if isAbsent field v then
    .ok (if isRequired node field then some (missingConfig node field) else none)
  else (problem? field v).map fun problem => problem.map (invalidConfig node field)

def checkNode (node : Node) : Except Fault (List Diagnostic) :=
  (node.kind.fields.mapM (checkField node)).map fun found => found.filterMap id

def checkConfig (g : Graph) : Except Fault (List Diagnostic) :=
  (g.nodes.mapM checkNode).map List.flatten

end WorkflowCompiler.Validation
