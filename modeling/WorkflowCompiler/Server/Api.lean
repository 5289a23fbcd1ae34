import WorkflowCompiler.Catalogue.Describe
import WorkflowCompiler.Compilation
import WorkflowCompiler.Document.Load
import WorkflowCompiler.Server.Settings

/-! # Interface of the server

The requests that an editor sends: what kinds of nodes and what targets there are, and the
compilation of a workflow.
-/
namespace WorkflowCompiler.Server

inductive Body where
  | none
  | json (value : Value)
  | text (content : String)

structure Request where
  method : String
  path : String
  body : Body := .none

structure Response where
  status : Nat
  /-- The content, where it is the interface's own and not that of the transport. -/
  content : Option Value := none

inductive Route where
  | health
  | nodeKinds
  | targets
  | compile
deriving DecidableEq

namespace Route

def ofPath? : String → Option Route
  | "/health" => some .health
  | "/api/node-kinds" => some .nodeKinds
  | "/api/targets" => some .targets
  | "/api/compile" => some .compile
  | _ => none

def method : Route → String
  | .compile => "POST"
  | _ => "GET"

end Route

/-- The path of a request without its query, and without slashes at its end. -/
def plainPath (path : String) : String :=
  let cs := path.toList.takeWhile fun c => c ≠ '?' && c ≠ '#'
  let cs := (cs.reverse.dropWhile (· = '/')).reverse
  String.ofList (if cs.head? = some '/' then cs else '/' :: cs)

def isSendable (text : Text) : Bool := text.toString?.isSome

def optionalText : Value → Option (Option Text)
  | .null => some none
  | .str s => some (some s)
  | _ => none

structure CompileRequest where
  workflow : Members
  moduleName : Option Text
  target : Option Text

def CompileRequest.ofValue? (v : Value) : Option CompileRequest := do
  let fields ← v.members?
  let workflow ← (fields.get "workflow").members?
  let moduleName ← optionalText (fields.get "moduleName")
  let target ← optionalText (fields.get "target")
  return { workflow, moduleName, target }

/-- The value that a body holds. A mark of the byte order before a text is passed over. -/
def Body.value : Body → Except Json.Fault (Option Value)
  | .none => .ok Option.none
  | .json v => .ok (some v)
  | .text content =>
    let cs := content.toList
    (Json.readChars (if cs.head? = some (Char.ofNat 0xFEFF) then cs.tail else cs)).map some

/-- A response whose content holds the given texts; the server fails if one cannot be sent. -/
def respond (status : Nat) (texts : List Text) (content : Value) : Response :=
  if texts.all isSendable then ⟨status, some content⟩ else ⟨500, none⟩

def refusal (reason : Text) : Response :=
  respond 400 [reason] (.object [("detail", .str reason)])

def given (text : Option Text) (default : Text) : Text :=
  match text with
  | some s => if s = [] then default else s
  | none => default

def textsOf (outcome : Compilation) : List Text :=
  outcome.source?.toList ++ outcome.diagnostics.map (·.line)

def compileWorkflow (settings : Settings) (request : CompileRequest) : Response :=
  match Document.load (.object request.workflow) with
  | .error (.shape fault) => refusal fault.message
  | .error _ => ⟨500, none⟩
  | .ok workflow =>
    let target := given request.target settings.defaultTarget
    match Profile.named? target with
    | none =>
      refusal ("Unknown target '" ++ target ++ "'; expected one of "
        ++ Text.join ", " Profile.builtInNames)
    | some profile =>
      match tooManyNodes workflow.graph (some settings.maxNodes) with
      | some d => ⟨413, some (Compilation.refused [d]).toValue⟩
      | none =>
        let fallback := Identifier.ofName workflow.name Identifier.workflowFallback
        let name := given request.moduleName fallback
        let outcome := (compile profile name none workflow.graph).outcome
        respond 200 (textsOf outcome) outcome.toValue

def answerRoute (settings : Settings) (route : Route) (body : Body) : Response :=
  match route with
  | .health => ⟨200, some (.object [("status", .str "ok")])⟩
  | .nodeKinds => ⟨200, some Catalogue.describe⟩
  | .targets =>
    ⟨200, some (.object [("default", .str settings.defaultTarget),
      ("targets", .ofTexts Profile.builtInNames)])⟩
  | .compile =>
    match body.value with
    | .error (.malformed _ _) => ⟨422, none⟩
    | .error (.longInteger _) => refusal "There was an error parsing the body"
    | .ok value =>
      match value.bind CompileRequest.ofValue? with
      | some request => compileWorkflow settings request
      | none => ⟨422, none⟩

def answer (settings : Settings) (request : Request) : Response :=
  match Route.ofPath? (plainPath request.path) with
  | none => ⟨404, none⟩
  | some route =>
    if request.method.toUpper = route.method then answerRoute settings route request.body
    else ⟨405, none⟩

end WorkflowCompiler.Server
