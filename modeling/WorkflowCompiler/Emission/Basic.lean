import WorkflowCompiler.Emission.Reference
import WorkflowCompiler.Text.Basic

/-! # Emission

The code of a workflow: a header, imports, the constructs, the root sequence, the exports and the
entry point.
-/
namespace WorkflowCompiler

namespace Emission

def emptyLine : Text := []

def rule (title : Text) : Text :=
  "# ── " ++ title ++ " " ++ List.replicate (72 - title.length) (CodePoint.char '─')

/-- A name that may stand in the header: one line without backslashes and double quotes. -/
def headerName (name : Text) : Text :=
  Text.replaceAll "\"" "'" (Text.replaceAll "\\" "/" (Text.oneLine name))

def header (name : Text) : List Text :=
  ["\"\"\"", "Workflow: " ++ headerName name, emptyLine,
    "Generated by agentflow from a workflow graph.",
    "Do not edit by hand; recompile the graph to regenerate.", "\"\"\"", emptyLine]

def imports (profile : Profile) : List Text :=
  if profile.imports.isEmpty then [] else profile.imports ++ [emptyLine, emptyLine]

/-- The statements, each with an empty line behind it. -/
def constructs (statements : List Statement) : List Text :=
  if statements.isEmpty then []
  else rule "Constructs" :: statements.flatMap fun s => s.lines ++ [emptyLine]

def rootStatement (profile : Profile) (name : Text) (refs : List Text) : Statement :=
  { ident := profile.rootIdentifier
    construct := profile.construct .sequence
    args := sequenceArguments profile name (Identifier.ofName name Identifier.workflowFallback)
      refs }

def exports (profile : Profile) : List Text :=
  [emptyLine, exportsName ++ " = [\"" ++ profile.rootIdentifier ++ "\"]"]

def entrypoint (profile : Profile) : List Text :=
  if profile.entrypoint.isEmpty then []
  else [emptyLine, emptyLine] ++
    profile.entrypoint.map (Text.replaceAll Profile.rootMark profile.rootIdentifier)

/-- The references at the top: the items of a plain sequence, or else the block itself. -/
def topReferences (profile : Profile) (block : Block) : Emitting (List Text) :=
  match block with
  | .sequence _ _ none _ =>
    if block.sharedKey?.isNone then itemReferences profile block
    else return [← reference profile block none]
  | _ => return [← reference profile block none]

end Emission

structure Program where
  constructs : List Statement
  root : Statement

def Program.ofBlock (profile : Profile) (name : Text) (block : Block) : Except Fault Program := do
  let (refs, progress) ← (Emission.topReferences profile block).run (.start profile)
  return ⟨progress.statements, Emission.rootStatement profile name refs⟩

def Program.lines (profile : Profile) (name : Text) (program : Program) : List Text :=
  Emission.header name ++ Emission.imports profile ++ Emission.constructs program.constructs
    ++ Emission.rule "Workflow" :: program.root.lines
    ++ Emission.exports profile ++ Emission.entrypoint profile

def emit (profile : Profile) (name : Text) (block : Block) : Except Fault (List Text) := do
  return (← Program.ofBlock profile name block).lines profile name

def sourceText (lines : List Text) : Text := Text.join "\n" lines ++ "\n"

end WorkflowCompiler
