import WorkflowCompiler.Profile.Basic
import WorkflowCompiler.Text.Basic
import WorkflowCompiler.Text.Character
import WorkflowCompiler.Text.Quoted

/-! # Settings of the server

The server is set up by variables of its environment. A variable that is not set, or is set to
nothing, leaves the default.
-/
namespace WorkflowCompiler.Server

abbrev Environment := List (String × String)

structure Settings where
  maxNodes : Int := 500
  defaultTarget : String := "agentflow"
  origins : List Text := ["*"]
  host : String := "127.0.0.1"
  port : Int := 8000

inductive SettingFault where
  | unknownTarget (value : String)
  | notAnInteger (key value : String)
  | notPositive (key : String) (value : Int)
deriving DecidableEq

def SettingFault.message : SettingFault → Text
  | .unknownTarget value =>
    "AGENTFLOW_DEFAULT_TARGET must be one of " ++ Text.join ", " Profile.builtInNames ++ ", got "
      ++ Text.quotation value
  | .notAnInteger key value => key ++ " must be an integer, got " ++ Text.quotation value
  | .notPositive key value => key ++ " must be positive, got " ++ toString value

def textOr (env : Environment) (key default : String) : String :=
  match env.lookup key with
  | some value => if value = "" then default else value
  | none => default

/-- A positive integer; a variable that holds only blanks leaves the default. -/
def integerOr (env : Environment) (key : String) (default : Int) : Except SettingFault Int :=
  match env.lookup key with
  | none => .ok default
  | some value =>
    if Text.isBlankText value then .ok default
    else
      match Text.integer? value with
      | none => .error (.notAnInteger key value)
      | some n => if n < 1 then .error (.notPositive key n) else .ok n

/-- The origins between the commas, without blanks around them; where there are none, all are
admitted. -/
def originsOf (value : Text) : List Text :=
  let origins := ((Text.pieces (.char ',') value).map Text.trim).filter (· ≠ [])
  if origins.isEmpty then ["*"] else origins

def Settings.ofEnvironment (env : Environment) : Except SettingFault Settings := do
  let target := textOr env "AGENTFLOW_DEFAULT_TARGET" "agentflow"
  if (Profile.named? target).isNone then throw (.unknownTarget target)
  let maxNodes ← integerOr env "AGENTFLOW_MAX_NODES" 500
  let port ← integerOr env "AGENTFLOW_PORT" 8000
  return {
    maxNodes
    defaultTarget := target
    origins := originsOf ((env.lookup "AGENTFLOW_CORS_ORIGINS").getD "*")
    host := textOr env "AGENTFLOW_HOST" "127.0.0.1"
    port }

end WorkflowCompiler.Server
