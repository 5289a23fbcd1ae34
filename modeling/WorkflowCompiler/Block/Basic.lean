import WorkflowCompiler.Fault
import WorkflowCompiler.Graph.Basic

/-! # Blocks

A block is a piece of structured execution: a single step, a sequence, or a container with its
arms. Blocks can stand in several places, so every block has a serial number, and two occurrences
with one serial number are one block.
-/
namespace WorkflowCompiler

inductive JoinStrategy where
  | waitForAll
  | race
deriving DecidableEq

namespace JoinStrategy

def all : List JoinStrategy := [.waitForAll, .race]

def name : JoinStrategy → Text
  | .waitForAll => "wait-for-all"
  | .race => "race"

def ofName? (s : Text) : Option JoinStrategy := all.find? fun join => join.name == s

def ofValue (v : Value) : Except Fault JoinStrategy :=
  match v.str?.bind ofName? with
  | some join => .ok join
  | none => .error (.unknownJoin v)

end JoinStrategy

inductive LoopKind where
  | fixedCount
  | whileTrue
  | forEach
deriving DecidableEq

namespace LoopKind

def all : List LoopKind := [.fixedCount, .whileTrue, .forEach]

def name : LoopKind → Text
  | .fixedCount => "fixed-count"
  | .whileTrue => "while"
  | .forEach => "for-each"

def ofName? (s : Text) : Option LoopKind := all.find? fun kind => kind.name == s

def ofValue (v : Value) : Except Fault LoopKind :=
  match v.str?.bind ofName? with
  | some kind => .ok kind
  | none => .error (.unknownLoopKind v)

end LoopKind

structure Exit where
  label : Text
  port : Text
deriving DecidableEq

inductive Block where
  /-- Nothing where a block should be. -/
  | absent
  | leaf (serial : Nat) (node : Node)
  /-- Items one after the other: those of a container, or, under a key, those that several
  producers lead to. -/
  | sequence (serial : Nat) (items : List Block) (container : Option Node) (key : Option Text)
  | parallel (serial : Nat) (container : Node) (members : List Block) (join : JoinStrategy)
  /-- A split in two. After a step with an outcome, `outcomePort` is the port for success. -/
  | branch (serial : Nat) (node : Node) (condition : Value) (onTrue onFalse : Block)
    (outcomePort : Option Text)
  | switch (serial : Nat) (node : Node) (routes : List (Exit × Block))
  | loop (serial : Nat) (node : Node) (body : Block) (kind : LoopKind) (params : Members)

namespace Block

/-- The serial number; nothing has number 0. -/
def serial : Block → Nat
  | .absent => 0
  | .leaf n .. | .sequence n .. | .parallel n .. | .branch n .. | .switch n .. | .loop n .. => n

def children : Block → List Block
  | .absent | .leaf .. => []
  | .sequence _ items _ _ => items
  | .parallel _ _ members _ => members
  | .branch _ _ _ onTrue onFalse _ => [onTrue, onFalse]
  | .switch _ _ routes => routes.map (·.2)
  | .loop _ _ body _ _ => [body]

def branchKey (node : Node) (outcomePort : Option Text) : Text :=
  if (outcomePort.getD []) = [] then node.id else node.id ++ "#outcome"

def key? : Block → Option Text
  | .absent => none
  | .leaf _ node | .switch _ node _ | .loop _ node _ _ _ => some node.id
  | .parallel _ container _ _ => some container.id
  | .branch _ node _ _ _ outcomePort => some (branchKey node outcomePort)
  | .sequence _ _ _ key => key

/-- The key of a sequence that several producers share. -/
def sharedKey? : Block → Option Text
  | .sequence _ _ _ (some key) => if key = [] then none else some key
  | _ => none

/-! ## Walks

Every block is met before its children and in their order, and a block that stands in several
places is met once, at the first of them.
-/

mutual

/-- Adds a block and what is new behind it to the blocks found so far, the last one first. -/
def visit (block : Block) (found : List Block) : List Block :=
  if found.any (·.serial == block.serial) then found
  else
    match block with
    | .absent | .leaf .. => block :: found
    | .sequence _ items _ _ => visitAll items (block :: found)
    | .parallel _ _ members _ => visitAll members (block :: found)
    | .branch _ _ _ onTrue onFalse _ => visit onFalse (visit onTrue (block :: found))
    | .switch _ _ routes => visitRoutes routes (block :: found)
    | .loop _ _ body _ _ => visit body (block :: found)

def visitAll (blocks : List Block) (found : List Block) : List Block :=
  match blocks with
  | [] => found
  | block :: rest => visitAll rest (visit block found)

def visitRoutes (routes : List (Exit × Block)) (found : List Block) : List Block :=
  match routes with
  | [] => found
  | (_, block) :: rest => visitRoutes rest (visit block found)

end

def walk (block : Block) : List Block := (visit block []).reverse

def leafIds (block : Block) : List Text :=
  block.walk.filterMap fun
    | .leaf _ node => some node.id
    | _ => none

end Block

end WorkflowCompiler
