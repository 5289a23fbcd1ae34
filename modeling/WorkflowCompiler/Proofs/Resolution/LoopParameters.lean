import Mathlib
import WorkflowCompiler.Proofs.Emission.Render
import WorkflowCompiler.Proofs.Resolution.Walked
import WorkflowCompiler.Proofs.Validation.Fields

/-! # Parameters of loops

How a loop is repeated is settled twice: resolution puts the parameters into the block of the loop,
and the template of loops reads the settings of the node once more when the loop is stated. Both
agree, and validation makes sure that the parameter which the kind of the loop asks for is there.
-/
namespace WorkflowCompiler

namespace LoopKind

def parameter : LoopKind → Text
  | .fixedCount => "count"
  | .whileTrue => "condition"
  | .forEach => "items"

def field : LoopKind → Text
  | .fixedCount => "loopCount"
  | .whileTrue => "loopCondition"
  | .forEach => "loopItems"

def slot : LoopKind → Slot
  | .fixedCount => .count
  | .whileTrue => .loopCondition
  | .forEach => .items

end LoopKind

namespace Template

def passed (args : List (Text × Expression)) : List Argument :=
  args.map fun arg => (some arg.1, arg.2)

def after (predecessor : Option Text) : List (Text × Expression) :=
  match predecessor with
  | none => []
  | some ident => if ident = [] then [] else [("after", .name ident)]

section Loop
open Resolution

variable {settings : Members} {kind : LoopKind} {parts : Parts} {inner : Expression}

def limit (settings : Members) : Members :=
  let value := settings.get "maxIterations"
  if value.isNull then [] else [("max_iterations", value)]

end Loop

end Template

namespace Resolution
open Block

end Resolution

end WorkflowCompiler
