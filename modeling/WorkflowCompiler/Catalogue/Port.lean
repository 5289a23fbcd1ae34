import WorkflowCompiler.Catalogue.Field
import WorkflowCompiler.Text.Character

/-! # Ports

Where edges attach. Routers and parallel containers have as many output ports as their
configuration asks for; the ports of the other kinds are fixed.
-/
namespace WorkflowCompiler

structure Port where
  name : Text
  label : Text := ""
deriving DecidableEq

def defaultPort : Text := "default"

def countOr (fallback : Nat) : Value → Nat
  | .int n => if 0 < n then n.toNat else fallback
  | _ => fallback

/-- The label of a route: the condition of its rule when that is a text with more than blanks, else
the name of its port. -/
def routeLabel (port : Text) (rule : Option Value) : Text :=
  match rule with
  | some (.object rule) =>
    match Members.get rule "condition" with
    | .str condition => if Text.isBlankText condition then port else condition
    | _ => port
  | _ => port

/-- The ports of a router with their labels: one for each rule, or as many as are counted. -/
def routeLabels (config : Members) : List (Text × Text) :=
  let rules :=
    match config.get "routingRules" with
    | .list rules => rules
    | _ => []
  let count :=
    if rules.isEmpty then countOr defaultRouteCount (config.get "routeCount") else rules.length
  (List.range count).map fun i =>
    let port : Text := "route" ++ toString i
    (port, routeLabel port rules[i]?)

namespace NodeKind

def inputs : NodeKind → List Port
  | .input => []
  | _ => [⟨defaultPort, ""⟩]

def outputs (kind : NodeKind) (config : Members) : List Port :=
  match kind with
  | .parallel =>
    ⟨defaultPort, ""⟩ ::
      (List.range (countOr defaultBranchCount (config.get "branchCount"))).map fun i =>
        ⟨"out" ++ toString (i + 1), ""⟩
  | .router => (routeLabels config).map fun route => ⟨route.1, route.2⟩
  | .conditional => [⟨"true", ""⟩, ⟨"false", ""⟩]
  | .loop => [⟨"loop", "body"⟩, ⟨"exit", ""⟩]
  | .output => []
  | .apiCall => [⟨"success", ""⟩, ⟨"error", ""⟩]
  | .validator => [⟨"valid", ""⟩, ⟨"invalid", ""⟩]
  | _ => [⟨defaultPort, ""⟩]

def inputNames (kind : NodeKind) : List Text := kind.inputs.map (·.name)

def outputNames (kind : NodeKind) (config : Members) : List Text :=
  (kind.outputs config).map (·.name)

def hasDynamicOutputs : NodeKind → Bool
  | .parallel | .router => true
  | _ => false

def defaultOutput? : NodeKind → Option Text
  | .apiCall => some "success"
  | .validator => some "valid"
  | .conditional | .router | .loop | .output => none
  | _ => some defaultPort

def effectivePort? (kind : NodeKind) (port : Option Text) : Option Text :=
  match port with
  | some name => if name = [] then kind.defaultOutput? else some name
  | none => kind.defaultOutput?

end NodeKind

end WorkflowCompiler
