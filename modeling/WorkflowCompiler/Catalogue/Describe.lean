import WorkflowCompiler.Catalogue.Port
import WorkflowCompiler.Text.Quoted

/-! # The catalogue as data

A description of all kinds for palettes and forms, and the look-up of a kind by a name that may be
unknown.
-/
namespace WorkflowCompiler.Catalogue

def describeField (field : Field) : Value :=
  .object [("name", .str field.name), ("type", .str field.type.name),
    ("required", .bool field.required),
    ("requiredWhen", field.requiredWhen.elim .null fun w => .ofTexts [w.1, w.2]),
    ("default", field.default),
    ("choices", if field.choices.isEmpty then .null else .ofTexts field.choices)]

def describeKind (kind : NodeKind) : Value :=
  .object [("type", .str kind.wireName), ("description", .str (description kind)),
    ("container", .bool kind.isContainer), ("dynamicOutputs", .bool kind.hasDynamicOutputs),
    ("inputs", .ofTexts kind.inputNames), ("outputs", .ofTexts (kind.outputNames [])),
    ("fields", .list (kind.fields.map describeField))]
where
  description : NodeKind → Text
    | .agent => "LLM agent driven by a natural-language instruction"
    | .sequential => "Runs its downstream chain in order"
    | .parallel => "Runs each outgoing branch concurrently"
    | .conditional => "Two-way branch on a condition"
    | .loop => "Repeats the body reachable from its loop port"
    | .input => "Workflow entry point"
    | .output => "Workflow result sink"
    | .apiCall => "HTTP request"
    | .database => "Database query"
    | .fileOperation => "File system operation"
    | .transform => "Data transformation"
    | .validator => "Data validation with valid / invalid outcomes"
    | .router => "N-way branch; one output port per route"
    | .delay => "Pause before continuing"
    | .debug => "Logs the value passing through"
    | .binding => "Binds a named workflow variable"

def describe : Value := .list (NodeKind.all.map describeKind)

def unknownWireName (name : Text) : Text := "Unknown node kind '" ++ name ++ "'"

def unlisted (name : Text) : Text := "Unknown node kind: " ++ Text.quotation name

def withoutTemplate (name : Text) : Text :=
  "No code template registered for node kind " ++ Text.quotation name

/-- The port of an edge that names none. What is not in the catalogue is taken for a plain step. -/
def defaultOutput? (name : Text) : Option Text :=
  match NodeKind.ofWire? name with
  | some kind => kind.defaultOutput?
  | none => some defaultPort

def effectivePort? (name : Text) (port : Option Text) : Option Text :=
  match port with
  | some p => if p = [] then defaultOutput? name else some p
  | none => defaultOutput? name

end WorkflowCompiler.Catalogue
