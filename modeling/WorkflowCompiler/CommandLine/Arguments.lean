import WorkflowCompiler.CommandLine.Options
import WorkflowCompiler.Text.Character

/-! # Arguments of the command line

The first plain argument is the workflow. Options may stand before and behind it, and the last
value of an option counts.
-/
namespace WorkflowCompiler.CommandLine

/-- What an option is set to. Two dashes that are attached to an option are dropped, so that it is
set, but to nothing. -/
inductive Choice (α : Type) where
  | unset
  | nothing
  | value (a : α)
deriving DecidableEq

structure Settings where
  workflow : String
  moduleName : Choice String := .unset
  target : Choice String := .unset
  out : Choice String := .unset
  printOnly : Bool := false
  maxNodes : Choice Int := .unset
  verbose : Bool := false
deriving DecidableEq

inductive Stop where
  | help
  | problem (problem : Problem)
deriving DecidableEq

structure Reading where
  workflow : Option String := none
  /-- Whether the workflow was the last argument. -/
  justRead : Bool := false
  /-- Arguments that belong nowhere. -/
  extras : List String := []
  settings : Settings := { workflow := "" }

namespace Reading

def plain (r : Reading) (text : String) : Reading :=
  match r.workflow with
  | none => { r with workflow := some text, justRead := true }
  | some _ => { r with extras := r.extras ++ [text], justRead := false }

def extra (r : Reading) (text : String) : Reading :=
  { r with extras := r.extras ++ [text], justRead := false }

def flag (r : Reading) (opt : Opt) : Except Stop Reading :=
  let r := { r with justRead := false }
  match opt with
  | .help => .error .help
  | .print => .ok { r with settings := { r.settings with printOnly := true } }
  | .verbose => .ok { r with settings := { r.settings with verbose := true } }
  | _ => .ok r

def set (r : Reading) (opt : Opt) (value : Option String) : Except Stop Reading :=
  let r := { r with justRead := false }
  let choice := value.elim .nothing .value
  match opt, value with
  | .moduleName, _ => .ok { r with settings := { r.settings with moduleName := choice } }
  | .target, _ => .ok { r with settings := { r.settings with target := choice } }
  | .out, _ => .ok { r with settings := { r.settings with out := choice } }
  | .maxNodes, none => .ok { r with settings := { r.settings with maxNodes := .nothing } }
  | .maxNodes, some text =>
    match Text.integer? text with
    | some n => .ok { r with settings := { r.settings with maxNodes := .value n } }
    | none => .error (.problem (.notAnInteger opt text))
  | _, _ => .ok r

end Reading

def shortFlag? (c : Char) : Option Opt := spellings.lookup (String.ofList ['-', c])

/-- The flags of short spellings in one argument. What spells no flag is taken for a value, which
the flag before it cannot have. -/
def cluster (opt : Opt) : List Char → Except Problem (List Opt)
  | [] => .ok [opt]
  | c :: cs =>
    match shortFlag? c with
    | none => .error (.ignoredValue opt (String.ofList (c :: cs)))
    | some next => (cluster next cs).map (opt :: ·)

def readAttached (r : Reading) (opt : Opt) (spelling attached : String) : Except Stop Reading :=
  if opt.takesValue then r.set opt (if attached = "--" then none else some attached)
  else if startsWith spelling "--" || attached = "" then
    .error (.problem (.ignoredValue opt attached))
  else
    match cluster opt attached.toList with
    | .error problem => .error (.problem problem)
    | .ok flags => flags.foldlM Reading.flag r

def readWords (r : Reading) : List Word → Except Stop Reading
  | [] => .ok r
  | .plain text :: rest => readWords (r.plain text) rest
  | .unknown text :: rest => readWords (r.extra text) rest
  | .option opt spelling (some attached) :: rest => do
    readWords (← readAttached r opt spelling attached) rest
  | .option opt _ none :: rest =>
    if opt.takesValue then
      match rest with
      | .plain text :: rest => do readWords (← r.set opt (some text)) rest
      | _ => .error (.problem (.missingValue opt))
    else do readWords (← r.flag opt) rest

/-- The arguments behind two dashes, which are all plain. The dashes themselves belong nowhere,
unless the workflow stands next to them. -/
def readBehind (r : Reading) (behind : Option (List String)) : Reading :=
  match behind with
  | none => r
  | some rest =>
    match r.workflow, rest with
    | none, text :: rest => { r with workflow := some text, extras := r.extras ++ rest }
    | none, [] => r.extra "--"
    | some _, rest =>
      { r with extras := r.extras ++ (if r.justRead then rest else "--" :: rest) }

def parse (arguments : List String) : Except Stop Settings :=
  match classifyAll arguments with
  | .error problem => .error (.problem problem)
  | .ok (words, behind) => do
    let r := readBehind (← readWords {} words) behind
    match r.workflow with
    | none => throw (.problem .missingWorkflow)
    | some workflow =>
      if r.extras.isEmpty then return { r.settings with workflow }
      else throw (.problem (.unrecognized r.extras))

end WorkflowCompiler.CommandLine
