import WorkflowCompiler.Decimal.Shortest
import WorkflowCompiler.Text.Character
import WorkflowCompiler.Text.Quoted
import WorkflowCompiler.Value.Basic

/-! # Values as text

A value is shown in messages and is written as a literal of generated code. An integer of too many
digits can be neither, nor can a value that holds one.
-/
namespace WorkflowCompiler

namespace Value

/-! ## In messages

A text stands for itself at the outermost level and is quoted inside lists and objects; members
keep their order.
-/

mutual

def quoted : Value → Option Text
  | .null => some "None"
  | .bool b => some (if b then "True" else "False")
  | .int n => Text.ofInt? n
  | .float x => some (Decimal.text x)
  | .str s => some (Text.quotation s)
  | .list items => do some ("[" ++ Text.join ", " (← quotedItems items) ++ "]")
  | .object members => do some ("\x7b" ++ Text.join ", " (← quotedMembers members) ++ "\x7d")

def quotedItems : List Value → Option (List Text)
  | [] => some []
  | v :: rest => do some ((← quoted v) :: (← quotedItems rest))

def quotedMembers : List (Text × Value) → Option (List Text)
  | [] => some []
  | (name, v) :: rest => do
    some ((Text.quotation name ++ ": " ++ (← quoted v)) :: (← quotedMembers rest))

end

def text : Value → Option Text
  | .str s => some s
  | v => v.quoted

/-! ## In generated code

Texts are double-quoted, members are sorted by name, and the numbers that have no literal of their
own are spelled as a conversion.
-/

def numberLiteral (x : Float) : Text :=
  if Decimal.isFinite x then Decimal.text x else "float(\"" ++ Decimal.text x ++ "\")"

def sortEntries (entries : List (Text × Text)) : List (Text × Text) :=
  entries.mergeSort fun a b => Text.le a.1 b.1

def entryText (entry : Text × Text) : Text :=
  Text.stringLiteral entry.1 ++ ": " ++ entry.2

mutual

def literal : Value → Option Text
  | .null => some "None"
  | .bool b => some (if b then "True" else "False")
  | .int n => Text.ofInt? n
  | .float x => some (numberLiteral x)
  | .str s => some (Text.stringLiteral s)
  | .list items => do some ("[" ++ Text.join ", " (← literalItems items) ++ "]")
  | .object members => do
    let entries ← literalMembers members
    some ("\x7b" ++ Text.join ", " ((sortEntries entries).map entryText) ++ "\x7d")

def literalItems : List Value → Option (List Text)
  | [] => some []
  | v :: rest => do some ((← literal v) :: (← literalItems rest))

def literalMembers : List (Text × Value) → Option (List (Text × Text))
  | [] => some []
  | (name, v) :: rest => do some ((name, ← literal v) :: (← literalMembers rest))

end

end Value

/-- A value that has a literal, with its literal. -/
structure Literal where
  value : Value
  text : Text
  spells : value.literal = some text

namespace Literal

def ofValue? (v : Value) : Option Literal :=
  match h : v.literal with
  | some text => some ⟨v, text, h⟩
  | none => none

def ofText (s : Text) : Literal := ⟨.str s, Text.stringLiteral s, rfl⟩

end Literal

end WorkflowCompiler
