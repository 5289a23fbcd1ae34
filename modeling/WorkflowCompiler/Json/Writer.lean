import WorkflowCompiler.Decimal.Shortest
import WorkflowCompiler.Text.Basic
import WorkflowCompiler.Text.Character
import WorkflowCompiler.Value.Basic

/-! # Writing JSON text

One line without spaces, in which every character outside the printable ASCII range is escaped.
-/
namespace WorkflowCompiler.Json

def writeChar (c : Char) : List Char :=
  if c = '"' || c = '\\' then ['\\', c] else [c]

def writePoint (p : CodePoint) : List Char :=
  match p with
  | .char c => if 32 ≤ c.toNat && c.toNat < 127 then writeChar c else escaped
  | .surrogate _ => escaped
where
  escaped : List Char := (Text.unitsOf p).flatMap fun unit => '\\' :: 'u' :: Text.toHex 4 unit

def writeString (text : Text) : String :=
  String.ofList ('"' :: (text.flatMap writePoint ++ ['"']))

mutual

def write : Value → String
  | .null => "null"
  | .bool b => if b then "true" else "false"
  | .int n => toString n
  | .float x => Decimal.text x
  | .str s => writeString s
  | .list items => "[" ++ ",".intercalate (writeItems items) ++ "]"
  | .object members => "\x7b" ++ ",".intercalate (writeMembers members) ++ "\x7d"

def writeItems : List Value → List String
  | [] => []
  | v :: rest => write v :: writeItems rest

def writeMembers : List (Text × Value) → List String
  | [] => []
  | (name, v) :: rest => (writeString name ++ ":" ++ write v) :: writeMembers rest

end

end WorkflowCompiler.Json
