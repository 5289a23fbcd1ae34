import WorkflowCompiler.Text.Character
import WorkflowCompiler.Text.Quoted

/-! # Options of the command line

An argument that begins with a dash is an option when it is spelled like one, or like the beginning
of exactly one; its value may follow an equals sign.
-/
namespace WorkflowCompiler.CommandLine

inductive Opt where
  | help
  | moduleName
  | target
  | out
  | print
  | maxNodes
  | verbose
deriving DecidableEq

def spellings : List (String × Opt) :=
  [("-h", .help), ("--help", .help), ("--module", .moduleName), ("--target", .target),
    ("--out", .out), ("--print", .print), ("--max-nodes", .maxNodes), ("-v", .verbose),
    ("--verbose", .verbose)]

def Opt.takesValue : Opt → Bool
  | .moduleName | .target | .out | .maxNodes => true
  | .help | .print | .verbose => false

def Opt.title (opt : Opt) : String :=
  "/".intercalate ((spellings.filter fun s => s.2 = opt).map (·.1))

inductive Problem where
  | ambiguous (argument : String) (candidates : List String)
  | ignoredValue (opt : Opt) (value : String)
  | missingValue (opt : Opt)
  | notAnInteger (opt : Opt) (value : String)
  | missingWorkflow
  | unrecognized (arguments : List String)
deriving DecidableEq

def Problem.message : Problem → String
  | .ambiguous argument candidates =>
    "ambiguous option: " ++ argument ++ " could match " ++ ", ".intercalate candidates
  | .ignoredValue opt value =>
    "argument " ++ opt.title ++ ": ignored explicit argument " ++ Text.quotation value
  | .missingValue opt => "argument " ++ opt.title ++ ": expected one argument"
  | .notAnInteger opt value =>
    "argument " ++ opt.title ++ ": invalid int value: " ++ Text.quotation value
  | .missingWorkflow => "the following arguments are required: workflow.json"
  | .unrecognized arguments => "unrecognized arguments: " ++ " ".intercalate arguments

/-- An argument by its form. A value may be attached to an option: after an equals sign, or right
behind a short spelling. -/
inductive Word where
  | plain (text : String)
  | option (opt : Opt) (spelling : String) (attached : Option String)
  /-- Formed like an option, but none. -/
  | unknown (text : String)
deriving DecidableEq

def splitSign (text : String) : String × Option String :=
  let cs := text.toList
  let name := cs.takeWhile (· ≠ '=')
  match cs.drop name.length with
  | [] => (text, none)
  | _ :: value => (String.ofList name, some (String.ofList value))

def startsWith (text start : String) : Bool := start.toList.isPrefixOf text.toList

/-- The options that an argument may mean though it is spelled like none of them. -/
def candidates (text : String) : List (Opt × String × Option String) :=
  if startsWith text "--" then
    let (name, value) := splitSign text
    (spellings.filter fun s => startsWith s.1 name).map fun s => (s.2, s.1, value)
  else
    let short := String.ofList (text.toList.take 2)
    spellings.filterMap fun s =>
      if s.1 = short then some (s.2, s.1, some (String.ofList (text.toList.drop 2)))
      else if startsWith s.1 text then some (s.2, s.1, none)
      else none

/-- A minus sign and digits, among or before which may be one point. One line feed may end them. -/
def isNegativeNumber (text : String) : Bool :=
  match text.toList with
  | '-' :: cs =>
    let cs := if cs.getLast? = some '\n' then cs.dropLast else cs
    let digit := fun c => (Text.decimalValue? c).isSome
    let whole := cs.takeWhile digit
    match cs.drop whole.length with
    | [] => !whole.isEmpty
    | '.' :: fraction => !fraction.isEmpty && fraction.all digit
    | _ => false
  | _ => false

def classify (text : String) : Except Problem Word :=
  if !startsWith text "-" then .ok (.plain text)
  else
    match spellings.lookup text with
    | some opt => .ok (.option opt text none)
    | none =>
      if text = "-" then .ok (.plain text)
      else
        match splitSign text with
        | (name, value) =>
          match value, spellings.lookup name with
          | some value, some opt => .ok (.option opt name (some value))
          | _, _ =>
            match candidates text with
            | [(opt, spelling, attached)] => .ok (.option opt spelling attached)
            | [] =>
              if isNegativeNumber text || text.toList.contains ' ' then .ok (.plain text)
              else .ok (.unknown text)
            | several => .error (.ambiguous text (several.map (·.2.1)))

/-- The forms of the arguments up to two dashes, and the arguments behind those. -/
def classifyAll : List String → Except Problem (List Word × Option (List String))
  | [] => .ok ([], none)
  | argument :: rest =>
    if argument = "--" then .ok ([], some rest)
    else do
      let word ← classify argument
      let (words, behind) ← classifyAll rest
      return (word :: words, behind)

end WorkflowCompiler.CommandLine
