import Mathlib
import WorkflowCompiler.Compilation
import WorkflowCompiler.Proofs.Emission.Alike
import WorkflowCompiler.Proofs.Resolution.Alike
import WorkflowCompiler.Proofs.Resolution.Formed
import WorkflowCompiler.Proofs.Validation.Warnings

/-! # The code of a validated graph

A validated graph has code, or there is an internal error. The code is a function of the block in
canonical form.
-/
namespace WorkflowCompiler
open Resolution

def Validated.code? (v : Validated) (profile : Profile) (name : Text) : Option Text :=
  (resolve v).block.toOption.bind fun block => (emit profile name block).toOption.map sourceText

theorem formed_of_resolve {v : Validated} {root : Block} (h : (resolve v).block = .ok root) :
    root.Formed := by
  obtain ⟨l, made, q, hlog⟩ := exists_rootLog h
  exact hlog.root ▸ .chain hlog.formed.2 hlog.formed.1

theorem outcome_ofValidated (v : Validated) (profile : Profile) (name : Text) :
    (Compilation.ofValidated profile name v).outcome =
      (v.code? profile name).elim (.refused [internalError]) fun source =>
        .compiled source v.warnings := by
  simp only [Compilation.ofValidated, Validated.code?]
  cases hblock : (resolve v).block with
  | error fault => rfl
  | ok root =>
    obtain ⟨description, hdescription⟩ := (formed_of_resolve hblock).exists_describe
    simp only [hdescription, Except.toOption, Option.bind_some]
    cases emit profile name root <;> rfl

/-- Blocks that are the same in a form which has the code of every block have the same code. -/
theorem code?_congr_form {form : Block → Block} {profile : Profile} {name : Text}
    (hform : ∀ {b : Block}, b.Formed →
      (emit profile name (form b)).toOption = (emit profile name b).toOption) {v v' : Validated}
    (h : (resolve v).block.toOption.map form = (resolve v').block.toOption.map form) :
    v.code? profile name = v'.code? profile name := by
  have hview : ∀ v : Validated, v.code? profile name =
      ((resolve v).block.toOption.map form).bind fun block =>
        (emit profile name block).toOption.map sourceText := by
    intro v
    rw [Validated.code?]
    cases hblock : (resolve v).block with
    | error fault => rfl
    | ok root =>
      exact (congrArg (Option.map sourceText) (hform (formed_of_resolve hblock))).symm
  rw [hview, h, ← hview]

theorem code?_congr {v v' : Validated} (h : (resolve v).block.toOption.map Block.canonical =
      (resolve v').block.toOption.map Block.canonical) (profile : Profile) (name : Text) :
    v.code? profile name = v'.code? profile name :=
  code?_congr_form (fun hb => Emission.toOption_emit_canonical hb profile name) h

/-- A validated graph has the code of another one that has its nodes, up to canonical form, with the
edges that leave them, its entries and its merge points. The other one may have more nodes. -/
theorem code?_of_alike {v v' : Validated}
    (hnode : ∀ id ∈ v.graph.nodeIds, (v.graph.node? id).map Node.canonical =
      (v'.graph.node? id).map Node.canonical)
    (hedges : ∀ id ∈ v.graph.nodeIds, (sortEdges v.graph.edges).filter (·.source == id) =
      (sortEdges v'.graph.edges).filter (·.source == id))
    (hmerges : ∀ id ∈ v.graph.nodeIds, id ∈ v.graph.merges ↔ id ∈ v'.graph.merges)
    (hentries : v.graph.entryIds = v'.graph.entryIds) (hsize : v.graph.size ≤ v'.graph.size)
    (profile : Profile) (name : Text) : v.code? profile name = v'.code? profile name := by
  have hclosed : ∀ e ∈ v.graph.edges, e.source ∈ v.graph.nodeIds → e.target ∈ v.graph.nodeIds :=
    fun e he _ => (v.sound.mem_nodeIds_of_leads ⟨e, he, rfl, rfl⟩).2
  have hlength : v.graph.nodeIds.length = v.graph.size := by
    rw [Graph.nodeIds, eraseDups_of_nodup v.sound.nodes_nodup, List.length_map, Graph.size]
  have hstarts : v.graph.entryIds ⊆ v.graph.nodeIds := by
    intro id hid
    obtain ⟨n, hn, rfl⟩ := Graph.mem_entryIds.mp hid
    exact List.mem_eraseDups.mpr (List.mem_map_of_mem (Graph.starts_subset hn))
  have hfacts := Facts.alike_ofGraph hnode hedges hmerges hclosed
  have hblock := block_resolve_alike hfacts hentries hstarts hlength.le (hlength.trans_le hsize)
  exact code?_congr hblock profile name

theorem outcome_compile (v : Validated) {ceiling : Option Int}
    (hsize : tooManyNodes v.graph ceiling = none) (profile : Profile) (name : Text) :
    (compile profile name ceiling v.graph).outcome =
      (v.code? profile name).elim (.refused [internalError]) fun source =>
        .compiled source v.warnings := by
  simp only [compile, hsize, judge_graph, outcome_ofValidated]

theorem outcome_compile_of_emit (v : Validated) {root : Block} {lines : List Text}
    {profile : Profile} {name : Text} (hblock : (resolve v).block = .ok root)
    (hlines : emit profile name root = .ok lines) :
    (compile profile name none v.graph).outcome = .compiled (sourceText lines) v.warnings := by
  rw [outcome_compile v rfl, Validated.code?, hblock]
  simp only [Except.toOption, Option.bind_some, hlines, Option.map_some, Option.elim_some]

end WorkflowCompiler
