import WorkflowCompiler.Text.Basic

/-! # Values

The data that documents carry: JSON values. Integers are exact and kept apart from binary64
numbers, and the members of an object keep the order in which they were first put.
-/
namespace WorkflowCompiler

inductive Value where
  | null
  | bool (b : Bool)
  | int (n : Int)
  | float (x : Float)
  | str (s : Text)
  | list (items : List Value)
  | object (members : List (Text × Value))

abbrev Members := List (Text × Value)

namespace Members

def get? (ms : Members) (name : Text) : Option Value := ms.lookup name

/-- The value of a member; an absent one is null. -/
def get (ms : Members) (name : Text) : Value := (ms.get? name).getD .null

def has (ms : Members) (name : Text) : Bool := ms.any (·.1 == name)

def names (ms : Members) : List Text := ms.map (·.1)

/-- Sets a member. A member that exists keeps its place. -/
def put (ms : Members) (name : Text) (value : Value) : Members :=
  match ms with
  | [] => [(name, value)]
  | m :: rest => if m.1 = name then (name, value) :: rest else m :: put rest name value

def merge (ms extra : Members) : Members := extra.foldl (fun ms m => ms.put m.1 m.2) ms

/-- The object of a list of members: of two with one name the last value counts. -/
def ofPairs (pairs : List (Text × Value)) : Members := merge [] pairs

end Members

namespace Value

def isNull : Value → Bool
  | .null => true
  | _ => false

/-- Whether a value counts as given: null, false, zero and whatever is empty do not. -/
def isGiven : Value → Bool
  | .null => false
  | .bool b => b
  | .int n => n != 0
  | .float x => !(x == 0)
  | .str s => s != []
  | .list items => !items.isEmpty
  | .object members => !members.isEmpty

def str? : Value → Option Text
  | .str s => some s
  | _ => none

def members? : Value → Option Members
  | .object ms => some ms
  | _ => none

def typeName : Value → Text
  | .null => "NoneType"
  | .bool _ => "bool"
  | .int _ => "int"
  | .float _ => "float"
  | .str _ => "str"
  | .list _ => "list"
  | .object _ => "dict"

def ofTexts (xs : List Text) : Value := .list (xs.map .str)

def ofOption (s : Option Text) : Value := s.elim .null .str

end Value

end WorkflowCompiler
