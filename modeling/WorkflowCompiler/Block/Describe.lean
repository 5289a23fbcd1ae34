import WorkflowCompiler.Block.Basic

/-! # Descriptions of blocks

A compact text of a block and its parts, and the first node that it runs.
-/
namespace WorkflowCompiler.Block

def bracketed (title inner : Text) : Text := title ++ "[" ++ inner ++ "]"

mutual

def describe : Block → Except Fault Text
  | .absent => .error .notDescribable
  | .leaf _ node => .ok ("Leaf(" ++ node.id ++ ")")
  | .sequence _ items container _ => do
    let title : Text := container.elim "Sequence" fun node => "Sequential(" ++ node.id ++ ")"
    return bracketed title (Text.join ", " (← describeAll items))
  | .parallel _ container members join => do
    let title : Text := "Parallel(" ++ container.id ++ ", " ++ join.name ++ ")"
    return bracketed title (Text.join ", " (← describeAll members))
  | .branch _ node _ onTrue onFalse _ => do
    let onTrue ← describe onTrue
    let onFalse ← describe onFalse
    return bracketed ("Branch(" ++ node.id ++ ")") ("true=" ++ onTrue ++ ", false=" ++ onFalse)
  | .switch _ node routes => do
    return bracketed ("Switch(" ++ node.id ++ ")") (Text.join ", " (← describeRoutes routes))
  | .loop _ node body kind _ => do
    return bracketed ("Loop(" ++ node.id ++ ", " ++ kind.name ++ ")") (← describe body)

def describeAll : List Block → Except Fault (List Text)
  | [] => .ok []
  | block :: rest => do
    let text ← describe block
    return text :: (← describeAll rest)

def describeRoutes : List (Exit × Block) → Except Fault (List Text)
  | [] => .ok []
  | (exit, block) :: rest => do
    let text ← describe block
    return (exit.port ++ "=" ++ text) :: (← describeRoutes rest)

end

def emptyLabel : Text := "empty"

mutual

/-- The id and the name of the first node that a block runs; a container comes before its items. -/
def head : Block → Except Fault (Text × Text)
  | .absent => .error .noHead
  | .leaf _ node | .parallel _ node _ _ | .branch _ node _ _ _ _ | .switch _ node _
  | .loop _ node _ _ _ => .ok (node.id, node.name)
  | .sequence _ _ (some node) _ => .ok (node.id, node.name)
  | .sequence _ items none _ => headOfItems items

def headOfItems : List Block → Except Fault (Text × Text)
  | [] => .ok ([], emptyLabel)
  | block :: _ => head block

end

end WorkflowCompiler.Block
