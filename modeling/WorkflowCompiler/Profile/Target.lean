import WorkflowCompiler.Json.Reader
import WorkflowCompiler.Profile.Read
import WorkflowCompiler.Storage.FileTree

/-! # Targets

A target is the name of a built-in profile or the path of a file with a profile.
-/
namespace WorkflowCompiler

inductive TargetFault where
  | unknown (target : String)
  | profile (source : String) (fault : Profile.Fault)
  | json (path text : String) (fault : Json.Fault)
  | storage (fault : StorageFault)

def TargetFault.message : TargetFault → Text
  | .unknown target =>
    "Unknown target '" ++ target ++ "': expected one of " ++ Text.join ", " Profile.builtInNames
      ++ " or a profile .json file"
  | .profile _ fault@(.baseNotAName _) => fault.message
  | .profile source fault => source ++ ": " ++ fault.message
  | .json path text fault@(.malformed _ _) => path ++ ": invalid JSON: " ++ fault.message text
  | .json _ text fault => fault.message text
  | .storage _ => "the profile cannot be read"

/-- Whether a fault is a mistake in the target, and not trouble in getting at it. -/
def TargetFault.isMistake : TargetFault → Bool
  | .unknown _ => true
  | .profile _ fault => fault.isMistake
  | .json _ _ (.malformed _ _) => true
  | .json .. | .storage _ => false

structure Target where
  profile : Profile
  path : Option Path := none

namespace Target

def default : Target := { profile := Profile.standard }

def ofValue (source : String) (v : Value) : Except TargetFault Target :=
  match Profile.ofValue source v with
  | .ok profile => .ok { profile }
  | .error fault => .error (.profile source fault)

def readFile (find : Lookup) (path : Path) : Except TargetFault Target :=
  match find.readText path with
  | .error fault => .error (.storage fault)
  | .ok text =>
    match Json.read text with
    | .error fault => .error (.json path.text text fault)
    | .ok v => do
      let target ← ofValue path.text v
      return { target with path := some path }

def load (find : Lookup) (target : String) : Except TargetFault Target :=
  match Profile.named? target with
  | some profile => .ok { profile }
  | none =>
    let path := Path.ofText target
    if path.suffix = ".json" then
      match find.find? path with
      | .ok (some (.file _)) => readFile find path
      | .ok _ => .error (.unknown target)
      | .error fault => .error (.storage fault)
    else .error (.unknown target)

end Target

end WorkflowCompiler
