import WorkflowCompiler.Value.Text

/-! # Generated code

Code is written line by line at a depth of indentation. Its statements bind identifiers to calls.
-/
namespace WorkflowCompiler

/-! ## Expressions

What stands for the value of an argument.
-/

inductive Expression where
  | literal (l : Literal)
  /-- A reference to what an identifier is bound to. -/
  | name (ident : Text)
  | list (items : List Expression)
  /-- A label with what it stands for. -/
  | pair (label : Text) (expression : Expression)
  /-- A construct that is bound to no identifier. -/
  | call (construct : Text) (args : List (Text × Expression))

namespace Expression

mutual

def text : Expression → Text
  | .literal l => l.text
  | .name ident => ident
  | .list items => "[" ++ Text.join ", " (texts items) ++ "]"
  | .pair label e => "(" ++ Text.stringLiteral label ++ ", " ++ e.text ++ ")"
  | .call construct args => construct ++ "(" ++ Text.join ", " (argumentTexts args) ++ ")"

def texts : List Expression → List Text
  | [] => []
  | e :: rest => e.text :: texts rest

def argumentTexts : List (Text × Expression) → List Text
  | [] => []
  | (keyword, e) :: rest => (keyword ++ "=" ++ e.text) :: argumentTexts rest

end

def string (s : Text) : Expression := .literal (.ofText s)

def names (idents : List Text) : Expression := .list (idents.map .name)

end Expression

/-! ## Lines -/

structure Code where
  lines : List Text := []
  depth : Int := 0
deriving DecidableEq

namespace Code

def indentation : Text := "    "

/-- A line at a depth; an empty line is not indented. -/
def indented (depth : Int) (line : Text) : Text :=
  if line = [] then [] else (List.replicate depth.toNat indentation).flatten ++ line

def write (code : Code) (line : Text) : Code :=
  { code with lines := code.lines ++ [indented code.depth line] }

def blank (code : Code) : Code := code.write []

def comment (code : Code) (text : Text) : Code := code.write ("# " ++ text)

def indent (code : Code) : Code := { code with depth := code.depth + 1 }

/-- One step back, but never before the margin. -/
def dedent (code : Code) : Code := { code with depth := max 0 (code.depth - 1) }

def call (code : Code) (ident construct : Text) (args : List (Text × Text)) : Code :=
  if args.isEmpty then code.write (ident ++ " = " ++ construct ++ "()")
  else
    let opened := (code.write (ident ++ " = " ++ construct ++ "(")).indent
    (args.foldl (fun code arg => code.write (arg.1 ++ "=" ++ arg.2 ++ ",")) opened).dedent.write ")"

def text (code : Code) : Text := Text.join "\n" code.lines

end Code

/-! ## Statements

A statement binds an identifier to a construct. Comments may stand above it.
-/

structure Statement where
  comments : List Text := []
  ident : Text
  construct : Text
  args : List (Text × Expression)

namespace Statement

def keywords (s : Statement) : List Text := s.args.map (·.1)

def written (s : Statement) : List (Text × Text) := s.args.map fun arg => (arg.1, arg.2.text)

def writeTo (s : Statement) (code : Code) : Code :=
  (s.comments.foldl Code.comment code).call s.ident s.construct s.written

def lines (s : Statement) : List Text := (s.writeTo {}).lines

end Statement

end WorkflowCompiler
