import Mathlib
import WorkflowCompiler.Emission.Basic
import WorkflowCompiler.Proofs.Block.Subject
import WorkflowCompiler.Proofs.Code.Body
import WorkflowCompiler.Proofs.Template.Writable

/-! # What statements render

A statement renders the construct of a node or the split by an outcome, or else it is a plain
sequence. The code of a program shows its statements line by line.
-/
namespace WorkflowCompiler

namespace Emission

/-- A statement renders the construct of a node or the split by an outcome, made by the template for
it, or else a plain sequence. The split asks for the outcome of the very step that is bound for its
node. -/
inductive Renders (profile : Profile) (bound : Text → Option Text) :
    Option Subject → Statement → Prop
  | node {node : Node} {s : Statement} {parts : Parts} {predecessor : Option Text} :
    bound node.id = some s.ident →
    node.kind.template.statement profile node s.ident node.name parts predecessor = .ok s →
    Renders profile bound (some (.node node)) s
  | outcome {node : Node} {s : Statement} {success failure step : Text} {parts : Parts}
    {predecessor : Option Text} : node.kind.outcomePorts? = some (success, failure) →
    bound node.id = some step → parts.condition = some (outcomeCondition step success) →
    Template.outcomeSplit.statement profile node s.ident (node.name ++ " outcome") parts
      predecessor = .ok s →
    Renders profile bound (some (.outcome node)) s
  | chain (label ident : Text) (refs : List Text) :
    Renders profile bound none (sequenceStatement profile label ident refs)

theorem Renders.mono {profile : Profile} {bound bound' : Text → Option Text}
    (h : ∀ key ident, bound key = some ident → bound' key = some ident) {tag : Option Subject}
    {s : Statement} (hr : Renders profile bound tag s) : Renders profile bound' tag s := by
  cases hr with
  | node hb hs => exact .node (h _ _ hb) hs
  | outcome hports hb hc hs => exact .outcome hports (h _ _ hb) hc hs
  | chain label ident refs => exact .chain label ident refs

theorem Renders.args_ne_nil {profile : Profile} {bound : Text → Option Text} {tag : Option Subject}
    {s : Statement} (h : Renders profile bound tag s) : s.args ≠ [] := by
  cases h with
  | node _ hs | outcome _ _ _ hs => exact Template.args_ne_nil hs
  | chain label ident refs => exact List.cons_ne_nil _ _

end Emission

/-- The lines of a program: the fixed ones, and the lines of its statements in between. -/
def Program.layout (profile : Profile) (name : Text) (program : Program) : List Text :=
  Emission.header name ++ Emission.imports profile ++
    (if program.constructs = [] then []
      else Emission.rule "Constructs" :: program.constructs.flatMap fun s => s.layout ++ [[]]) ++
    Emission.rule "Workflow" :: program.root.layout ++
    Emission.exports profile ++ Emission.entrypoint profile

theorem Program.lines_eq_layout {program : Program} (h : ∀ s ∈ program.constructs, s.args ≠ [])
    (hroot : program.root.args ≠ []) (profile : Profile) (name : Text) :
    program.lines profile name = program.layout profile name := by
  have hlines : (program.constructs.flatMap fun s => s.lines ++ [Emission.emptyLine]) =
      program.constructs.flatMap fun s => s.layout ++ [[]] := by
    refine List.flatMap_congr fun s hs => ?_
    rw [Statement.lines_eq_layout (h s hs), Emission.emptyLine]
  rw [lines, layout, Emission.constructs, hlines, Statement.lines_eq_layout hroot]
  simp only [List.isEmpty_iff]

theorem Program.layout_infix {program : Program} {s : Statement} (hs : s ∈ program.constructs)
    (profile : Profile) (name : Text) : s.layout <:+: program.layout profile name := by
  obtain ⟨before, after, heq⟩ := List.append_of_mem hs
  refine ⟨Emission.header name ++ Emission.imports profile ++ Emission.rule "Constructs" ::
    before.flatMap (fun s => s.layout ++ [[]]), [] :: after.flatMap (fun s => s.layout ++ [[]]) ++
      Emission.rule "Workflow" :: program.root.layout ++ Emission.exports profile ++
      Emission.entrypoint profile, ?_⟩
  simp [layout, heq]

end WorkflowCompiler
