import Mathlib
import WorkflowCompiler.Proofs.Fault
import WorkflowCompiler.Proofs.Graph.Reordered
import WorkflowCompiler.Proofs.Validation.Cycles

/-! # Validation of graphs in another order

The checks of a graph with unique ids find the same problems in whatever order its nodes and edges
are given. The check of cycles even finds them in one order, as it goes by components.
-/
namespace WorkflowCompiler.Validation
open WorkflowCompiler.Graph

theorem owns_perm {edges edges' : List Edge} (h : edges.Perm edges') (head : Text)
    (members : List Text) : owns edges head members = owns edges' head members := by
  rw [Bool.eq_iff_iff, owns_iff, owns_iff]
  simp only [loopBody, mem_reachableFromPort_perm h, h.mem_iff]

section Reordered
variable {g g' : Graph} (h : g.Reordered g')
include h

theorem isLoop_reordered : isLoop g = isLoop g' := by
  funext id
  rw [isLoop, h.node?_eq, isLoop]

theorem successors_perm {edges edges' : List Edge} (he : edges.Perm edges')
    (hids : (edges.map (·.id)).Nodup) : (successors g edges).Perm (successors g' edges') := by
  rw [successors, successors, sortEdges_congr he hids]
  exact h.nodeIds_perm.map _

theorem isLegal_reordered {edges edges' : List Edge} (he : edges.Perm edges')
    (hids : (edges.map (·.id)).Nodup) (fuel : Nat) (members : List Text) :
    isLegal g edges fuel members = isLegal g' edges' fuel members := by
  have hinner : ∀ ms, (restrict (successors g edges) ms).Perm
      (restrict (successors g' edges') ms) :=
    fun ms => ((successors_perm h he hids).filter _).map _
  have hnodup : ∀ ms, (restrict (successors g edges) ms).nodes.Nodup := by
    intro ms
    have hnodes : (successors g edges).nodes.Nodup := nodes_successors ▸ nodup_eraseDups _
    rw [restrict, Successors.nodes, List.map_map]
    exact hnodes.sublist (List.filter_sublist.map _)
  induction fuel generalizing members with
  | zero => rfl
  | succ fuel ih =>
    simp only [isLegal, isLoop_reordered h, owns_perm he, ih,
      Successors.components_perm (hinner _) (hnodup _),
      Successors.isTrivial_perm (hinner _) (hnodup _)]

theorem checkEdge_reordered : checkEdge g = checkEdge g' := by
  funext e
  rw [checkEdge, h.node?_eq, h.node?_eq, ← checkEdge]

theorem soundEdges_perm : (soundEdges g).Perm (soundEdges g') := by
  rw [soundEdges, soundEdges, checkEdge_reordered h]
  exact h.edges.filter _

theorem checkCycles_reordered : checkCycles g = checkCycles g' := by
  have hids : ((soundEdges g).map (·.id)).Nodup :=
    h.edge_ids.sublist (List.filter_sublist.map _)
  have hsucc := successors_perm h (soundEdges_perm h) hids
  have hnodup : (successors g (soundEdges g)).nodes.Nodup := nodes_successors ▸ nodup_eraseDups _
  have hillegal : illegalCycle g = illegalCycle g' := by
    funext members
    simp only [illegalCycle, h.node?_eq]
  simp only [checkCycles, hillegal, h.nodes.length_eq, isLegal_reordered h (soundEdges_perm h) hids,
    Successors.components_perm hsucc hnodup, Successors.isTrivial_perm hsucc hnodup]

theorem checkIdentity_reordered : checkIdentity g = checkIdentity g' := by
  rw [checkIdentity, repeated_of_nodup h.node_ids (by simp), repeated_of_nodup h.edge_ids (by simp),
    checkIdentity, repeated_of_nodup h.symm.node_ids (by simp),
    repeated_of_nodup h.symm.edge_ids (by simp)]

theorem checkReachability_perm : (checkReachability g).Perm (checkReachability g') := by
  have hentries : g.entries.isEmpty = g'.entries.isEmpty := by
    have hids := congrArg List.isEmpty h.entryIds_eq
    rwa [entryIds, entryIds, List.isEmpty_map, List.isEmpty_map] at hids
  have hreached : ∀ id, (reached g).contains id = (reached g').contains id := by
    intro id
    have hids : g.entries.map (·.id) = g'.entries.map (·.id) := h.entryIds_eq
    rw [Bool.eq_iff_iff, List.contains_iff_mem, List.contains_iff_mem, reached, reached, hids,
      mem_reachable_perm (soundEdges_perm h)]
  simp only [checkReachability, h.nodes.isEmpty_eq, hentries, hreached, h.node?_eq]
  split
  · exact .rfl
  · split
    · exact .rfl
    · exact (h.nodeIds_perm.filter _).filterMap _

theorem checkBranch_reordered : checkBranch g = checkBranch g' := by
  have hused : ∀ node port, isUsed g node port = isUsed g' node port := by
    intro node port
    rw [isUsed, isUsed, Bool.eq_iff_iff, List.any_eq_true, List.any_eq_true]
    simp only [outgoing, (h.edges.filter _).mem_iff]
  funext node
  simp only [checkBranch, checkPort, hused]

theorem validate_reordered :
    (validate g).toOption.map Multiset.ofList = (validate g').toOption.map Multiset.ofList := by
  have hedges : (checkEdges g).Perm (checkEdges g') := by
    rw [checkEdges, checkEdges, checkEdge_reordered h]
    exact h.edges.flatMap_right _
  have hbranches : (checkBranches g).toOption.map Multiset.ofList =
      (checkBranches g').toOption.map Multiset.ofList := by
    rw [checkBranches, checkBranches, checkBranch_reordered h]
    exact mapM_flatten_perm h.nodes
  refine toOption_bind_congr (mapM_flatten_perm h.nodes) fun config config' hconfig => ?_
  refine toOption_bind_congr hbranches fun branches branches' hfound => ?_
  have hconfig : config.Perm config' := Multiset.coe_eq_coe.mp hconfig
  refine congrArg some (Multiset.coe_eq_coe.mpr (.append ?_ (Multiset.coe_eq_coe.mp hfound)))
  rw [checkIdentity_reordered h, checkCycles_reordered h]
  exact .append_right _ (.append (.append (.append_left _ hconfig) hedges)
    (checkReachability_perm h))

end Reordered

end WorkflowCompiler.Validation
