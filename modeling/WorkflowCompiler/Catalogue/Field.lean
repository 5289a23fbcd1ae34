import WorkflowCompiler.NodeKind
import WorkflowCompiler.Value.Basic

/-! # Configuration fields

The fields of each kind of node: their types, defaults and bounds.
-/
namespace WorkflowCompiler

inductive FieldType where
  | string
  | int
  | number
  | bool
  | object
  | list
deriving DecidableEq

namespace FieldType

def all : List FieldType := [.string, .int, .number, .bool, .object, .list]

def name : FieldType → Text
  | .string => "string"
  | .int => "int"
  | .number => "number"
  | .bool => "bool"
  | .object => "dict"
  | .list => "list"

def ofName? (s : Text) : Option FieldType := all.find? fun t => t.name == s

/-- Whether a value has the type. A truth value is no number. -/
def admits : FieldType → Value → Bool
  | .string, .str _ => true
  | .int, .int _ => true
  | .number, .int _ => true
  | .number, .float _ => true
  | .bool, .bool _ => true
  | .object, .object _ => true
  | .list, .list _ => true
  | _, _ => false

end FieldType

/-- One field of a node's configuration. A null default stands for none, as do no choices;
`requiredWhen` names another field and the value of it that makes this one required. -/
structure Field where
  name : Text
  type : FieldType
  required : Bool := false
  default : Value := .null
  choices : List Text := []
  requiredWhen : Option (Text × Text) := none
  minimum : Option Nat := none

def defaultModel : Text := "gemini-2.0-flash-exp"

def defaultBranchCount : Nat := 2

def defaultRouteCount : Nat := 2

namespace Field

def text (name : Text) : Field := { name, type := .string }

def requiredText (name : Text) : Field := { name, type := .string, required := true }

/-- A text that is one of the choices, the first of which is the default. -/
def choice (name : Text) (choices : List Text) : Field :=
  { name, type := .string, default := .str (choices.headD []), choices }

def count (name : Text) (default : Nat) : Field :=
  { name, type := .int, default := .int default, minimum := some 1 }

def emptyList (name : Text) : Field := { name, type := .list, default := .list [] }

def common : List Field := [text "name", text "description"]

def own : NodeKind → List Field
  | .agent =>
    [requiredText "instruction",
      { name := "model", type := .string, default := .str defaultModel }]
  | .sequential => []
  | .parallel =>
    [choice "joinStrategy" ["wait-for-all", "race"], count "branchCount" defaultBranchCount]
  | .conditional =>
    [requiredText "condition",
      choice "conditionType" ["equals", "contains", "greater", "less", "exists"],
      emptyList "terminatedPorts"]
  | .loop =>
    [choice "loopType" ["fixed-count", "while", "for-each"],
      { name := "loopCount", type := .int, requiredWhen := some ("loopType", "fixed-count"),
        minimum := some 1 },
      { name := "loopCondition", type := .string, requiredWhen := some ("loopType", "while") },
      { name := "loopItems", type := .string, requiredWhen := some ("loopType", "for-each") },
      { name := "maxIterations", type := .int, minimum := some 1 }]
  | .input => [choice "inputType" ["text", "number", "file", "json"], text "placeholder"]
  | .output => [choice "outputFormat" ["text", "json", "table", "chart"]]
  | .apiCall =>
    [requiredText "apiUrl", choice "apiMethod" ["GET", "POST", "PUT", "DELETE"],
      { name := "apiHeaders", type := .object }, text "apiBody"]
  | .database =>
    [choice "dbType" ["mysql", "postgres", "mongodb", "sqlite"], requiredText "dbQuery",
      choice "dbOperation" ["select", "insert", "update", "delete"]]
  | .fileOperation =>
    [choice "fileOperation" ["read", "write", "append", "delete"], requiredText "filePath",
      choice "fileFormat" ["txt", "json", "csv", "xml"]]
  | .transform =>
    [choice "transformType" ["map", "filter", "reduce", "sort", "group"], text "transformScript"]
  | .validator =>
    [choice "validationType" ["required", "format", "range", "custom"], text "validationRules"]
  | .router =>
    [emptyList "routingRules", count "routeCount" defaultRouteCount, emptyList "terminatedPorts"]
  | .delay =>
    [{ name := "delayAmount", type := .number, required := true, minimum := some 0 },
      choice "delayUnit" ["seconds", "minutes", "hours"]]
  | .debug => [text "message"]
  | .binding =>
    [requiredText "variableName", text "variableValue",
      choice "variableType" ["string", "number", "boolean", "array", "object"]]

end Field

def NodeKind.fields (kind : NodeKind) : List Field := Field.common ++ Field.own kind

/-- Fills in the default of a field that is absent or null. -/
def Field.fill (config : Members) (field : Field) : Members :=
  if (config.get field.name).isNull && !field.default.isNull then
    config.put field.name field.default
  else config

def NodeKind.resolve (kind : NodeKind) (config : Members) : Members :=
  kind.fields.foldl Field.fill config

end WorkflowCompiler
