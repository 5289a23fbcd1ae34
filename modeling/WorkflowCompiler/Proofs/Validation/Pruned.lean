import Mathlib
import WorkflowCompiler.Proofs.Graph.Keep
import WorkflowCompiler.Proofs.Validation.Cycles
import WorkflowCompiler.Proofs.Validation.Warnings

/-! # Graphs without unreachable nodes

An accepted graph is still accepted when the nodes are removed that have a warning because no entry
leads to them. The cycles that remain keep their owners: the body of a loop that can be reached
stays whole, and it is entered by no more edges than before.
-/
namespace WorkflowCompiler

namespace Validation
open WorkflowCompiler.Graph Relation

section Owned
variable {g : Graph} {edges : List Edge}
  (h : ∀ c : List Text, Knot edges {m | m ∈ c} → ∃ head ∈ c, isLoop g head ∧ owns edges head c)
include h

/-- If every knot is owned, every knot is legal: what remains without the owner is smaller. -/
theorem isLegal_of_owned {fuel : Nat} {c : List Text} (hnodup : c.Nodup)
    (hknot : Knot edges {m | m ∈ c}) (hfuel : c.length < fuel) : isLegal g edges fuel c := by
  induction fuel generalizing c with
  | zero => omega
  | succ fuel ih =>
    obtain ⟨head, hhead, hloop, howns⟩ := h c hknot
    refine isLegal_succ_iff.mpr ⟨head, hhead, hloop, howns, fun d hd => ?_⟩
    by_cases htrivial : (restrict (successors g edges) (c.filter (· != head))).isTrivial d = true
    · exact Or.inl htrivial
    right
    have hsub : d ⊆ c.filter (· != head) := fun x hx =>
      (nodes_restrict.mp (Successors.mem_nodes_of_component hd hx)).2
    have hlength := (Successors.components_nodup hd).length_le_of_subset hsub
    have hsmaller : (c.filter (· != head)).length < c.length :=
      List.length_filter_lt_length_iff_exists.mpr ⟨head, hhead, by simp⟩
    refine ih (Successors.components_nodup hd) ?_ (by omega)
    refine Successors.knot_of_component (fun hlink => ?_) hd (Bool.not_eq_true _ ▸ htrivial)
    exact (links_successors.mp (links_restrict.mp hlink).2.2).2.2

end Owned

theorem checkCycles_of_owned {g : Graph} (hsound : soundEdges g = g.edges)
    (h : ∀ c : List Text, Knot g.edges {m | m ∈ c} →
      ∃ head ∈ c, isLoop g head ∧ owns g.edges head c) : checkCycles g = [] := by
  refine checkCycles_eq_nil_iff.mpr fun c hc => ?_
  rw [hsound] at hc ⊢
  by_cases htrivial : (successors g g.edges).isTrivial c = true
  · exact Or.inl htrivial
  right
  have hsub : c ⊆ g.nodes.map (·.id) := fun x hx => by
    have hx := Successors.mem_nodes_of_component hc hx
    rw [nodes_successors] at hx
    exact List.mem_eraseDups.mp hx
  have hlength := (Successors.components_nodup hc).length_le_of_subset hsub
  rw [List.length_map] at hlength
  refine isLegal_of_owned h (Successors.components_nodup hc) ?_ (by omega)
  exact Successors.knot_of_component (fun hlink => (links_successors.mp hlink).2.2) hc
    (Bool.not_eq_true _ ▸ htrivial)

end Validation

namespace Validated
open WorkflowCompiler.Graph Validation Relation

/-- A node has a warning that no entry leads to it. -/
def isUnreachable (v : Validated) (id : Text) : Bool :=
  v.warnings.any fun d => d.code == "unreachable-node" && d.nodeId == some id

/-- The graph without the nodes that have a warning that no entry leads to them, and without the
edges at these nodes. -/
def pruned (v : Validated) : Graph := v.graph.keep fun id => !v.isUnreachable id

theorem keepsReached (v : Validated) : v.graph.KeepsReached fun id => !v.isUnreachable id := by
  intro id hid
  rw [v.reached_iff]
  simp [isUnreachable, hid]

theorem checkEdge_pruned (v : Validated) {e : Edge} (he : e ∈ v.pruned.edges) :
    checkEdge v.pruned e = [] := by
  obtain ⟨hmem, hs⟩ := (mem_edges_keep v.sound v.keepsReached).mp he
  have ht : v.graph.Reached e.target := hs.step ⟨e, hmem, rfl, rfl⟩
  rw [checkEdge, pruned, node?_keep v.sound v.keepsReached hs,
    node?_keep v.sound v.keepsReached ht, ← checkEdge, v.checkEdge_eq_nil hmem]

/-- A knot of the part is a knot of the whole, and the loop that owns it there owns it still. -/
theorem exists_owns_pruned (v : Validated) {c : List Text}
    (hc : Knot v.pruned.edges {m | m ∈ c}) :
    ∃ head ∈ c, isLoop v.pruned head ∧ owns v.pruned.edges head c := by
  have hleads : ∀ {a b}, Leads v.pruned.edges a b ↔ Leads v.graph.edges a b ∧ v.graph.Reached a :=
    leads_keep v.sound v.keepsReached
  have hknot : Knot v.graph.edges {m | m ∈ c} := by
    refine ⟨hc.nonempty, fun a ha b hb => ?_⟩
    exact TransGen.mono (fun x y hxy => ⟨(hleads.mp hxy.1).1, hxy.2⟩) _ _ (hc.tied a ha b hb)
  obtain ⟨head, owned, howner⟩ := v.exists_owner hknot
  obtain ⟨hbody, henter, hexit⟩ := owns_iff.mp howner.owns
  have hhead : v.graph.Reached head := by
    obtain ⟨_, hl, _⟩ := TransGen.head'_iff.mp (hc.tied head howner.mem head howner.mem)
    exact (hleads.mp hl.1).2
  have hregion : ∀ {port x}, x ∈ reachableFromPort v.pruned.edges head port ↔
      x ∈ reachableFromPort v.graph.edges head port :=
    mem_reachableFromPort_keep v.sound v.keepsReached hhead
  refine ⟨head, howner.mem, ?_, owns_iff.mpr ⟨fun m hm => ?_, fun e he ht hne => ?_, ?_⟩⟩
  · rw [isLoop, pruned, node?_keep v.sound v.keepsReached hhead]
    exact howner.isLoop
  · exact (hbody m (howner.holds m hm)).imp_right hregion.mpr
  · obtain ⟨hmem, _⟩ := (mem_edges_keep v.sound v.keepsReached).mp he
    exact (henter e hmem (howner.holds _ ht) hne).imp_left hregion.mpr
  · intro x hx hinside
    exact hexit x (hregion.mp hx) (hregion.mp hinside)

theorem exists_pruned (v : Validated) :
    ∃ v' : Validated, judge v.pruned = .ok (.accepted v') ∧ v'.graph = v.pruned := by
  have hidentity : checkIdentity v.pruned = [] := by
    have hnodes : (v.pruned.nodes.map (·.id)).Nodup :=
      v.sound.nodes_nodup.sublist (List.filter_sublist.map _)
    have hedges : (v.pruned.edges.map (·.id)).Nodup :=
      v.sound.edges_nodup.sublist (List.filter_sublist.map _)
    rw [checkIdentity, repeated_of_nodup hnodes (by simp), repeated_of_nodup hedges (by simp)]
    rfl
  have hconfig : checkConfig v.pruned = .ok [] := by
    have hchecked := checkConfig_eq_nil_iff.mp v.checkConfig_eq_nil
    exact checkConfig_eq_nil_iff.mpr fun n hn => hchecked n (List.mem_filter.mp hn).1
  have hedges : checkEdges v.pruned = [] :=
    List.flatMap_eq_nil_iff.mpr fun e he => v.checkEdge_pruned he
  have hcycles : checkCycles v.pruned = [] :=
    checkCycles_of_owned (soundEdges_of_sound fun e he => v.checkEdge_pruned he)
      fun c hc => v.exists_owns_pruned hc
  refine exists_accepted hidentity hconfig hedges hcycles fun hnone => ?_
  have hentries : v.graph.entries = [] := by
    have hids := entryIds_keep v.sound v.keepsReached
    rw [entryIds, ← pruned, hnone] at hids
    exact List.map_eq_nil_iff.mp hids.symm
  rw [pruned, keep, v.nodes_eq_nil_of_entries hentries, List.filter_nil]

end Validated

end WorkflowCompiler
