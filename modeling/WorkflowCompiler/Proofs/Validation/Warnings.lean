import Mathlib
import WorkflowCompiler.Proofs.Graph.Around
import WorkflowCompiler.Proofs.Validation.Branches

/-! # The warnings of an accepted graph

An accepted graph has no findings but warnings: those about nodes that no entry leads to, and those
about branches. Exactly the nodes that cannot be reached get one of the first sort.
-/
namespace WorkflowCompiler

namespace Validation

theorem checkPort_code {g : Graph} {node : Node} {port label : Text} {ds : List Diagnostic}
    (h : checkPort g node port label = .ok ds) {d : Diagnostic} (hd : d ∈ ds) :
    d = unterminatedBranch node port label := by
  rw [checkPort] at h
  split at h
  · cases h
    exact absurd hd List.not_mem_nil
  · obtain ⟨listed, _, rfl⟩ := map_eq_ok h
    split at hd
    · exact absurd hd List.not_mem_nil
    · exact List.mem_singleton.mp hd

/-- All that is found about branches is that some of them are not terminated. -/
theorem checkBranches_code {g : Graph} {ds : List Diagnostic} (h : checkBranches g = .ok ds)
    {d : Diagnostic} (hd : d ∈ ds) : ∃ node port label, d = unterminatedBranch node port label := by
  obtain ⟨found, hfound, rfl⟩ := map_eq_ok h
  obtain ⟨ofNode, hmem, hd⟩ := List.mem_flatten.mp hd
  obtain ⟨node, _, hnode⟩ := mem_of_mapM_ok hfound hmem
  obtain ⟨found', hfound', rfl⟩ := map_eq_ok hnode
  obtain ⟨ofPort, hmem', hd⟩ := List.mem_flatten.mp hd
  obtain ⟨⟨port, label⟩, _, hport⟩ := mem_of_mapM_ok hfound' hmem'
  exact ⟨node, port, label, checkPort_code hport hd⟩

theorem exists_checkBranches {g : Graph} (h : checkConfig g = .ok []) :
    ∃ branches, checkBranches g = .ok branches := by
  rw [exists_checkBranches_iff]
  rintro node hnode ⟨hsplits, hun, -⟩
  rcases terminatedPorts_of_checkNode (checkConfig_eq_nil_iff.mp h node hnode) hsplits with
    hv | ⟨items, hv⟩
  · rw [hv] at hun
    exact hun
  · rw [hv] at hun
    exact hun

theorem checkReachability_isError {g : Graph} (h : g.entries = [] → g.nodes = [])
    {d : Diagnostic} (hd : d ∈ checkReachability g) : d.isError = false := by
  rw [checkReachability] at hd
  split at hd
  · exact absurd hd List.not_mem_nil
  next hnodes =>
  split at hd
  next hnone => exact absurd (List.isEmpty_iff.mpr (h (List.isEmpty_iff.mp hnone))) hnodes
  · obtain ⟨id, _, hwarning⟩ := List.mem_filterMap.mp hd
    obtain ⟨node, _, rfl⟩ := Option.map_eq_some_iff.mp hwarning
    rfl

/-- A graph with an entry, or without nodes, is accepted when no check that can find errors does
so. -/
theorem exists_accepted {g : Graph} (hidentity : checkIdentity g = [])
    (hconfig : checkConfig g = .ok []) (hedges : checkEdges g = []) (hcycles : checkCycles g = [])
    (hentry : g.entries = [] → g.nodes = []) :
    ∃ v, judge g = .ok (.accepted v) ∧ v.graph = g := by
  obtain ⟨branches, hbranches⟩ := exists_checkBranches hconfig
  have hvalidate := validate_eq_warnings hidentity hconfig hedges hcycles hbranches
  have hclean : hasErrors (checkReachability g ++ branches) = false := by
    refine List.any_eq_false.mpr fun d hd => ?_
    rcases List.mem_append.mp hd with hd | hd
    · simp [checkReachability_isError hentry hd]
    · obtain ⟨_, _, _, rfl⟩ := checkBranches_code hbranches hd
      nofun
  exact ⟨⟨g, _, hvalidate, hclean⟩, judge_graph ⟨g, _, hvalidate, hclean⟩, rfl⟩

theorem soundEdges_of_sound {g : Graph} (h : ∀ e ∈ g.edges, checkEdge g e = []) :
    soundEdges g = g.edges := by
  rw [soundEdges, List.filter_eq_self]
  intro e he
  rw [h e he]
  rfl

end Validation

namespace Validated
open Validation

theorem soundEdges_eq (v : Validated) : soundEdges v.graph = v.graph.edges :=
  soundEdges_of_sound fun _ he => v.checkEdge_eq_nil he

theorem checkCycles_eq_nil (v : Validated) : checkCycles v.graph = [] := by
  apply eq_nil_of_isError
  · intro d hd
    obtain ⟨members, _, rfl⟩ := List.mem_map.mp hd
    rfl
  · intro d hd
    exact v.not_isError (by simp [hd])

/-- The warnings are those about nodes that cannot be reached and about branches. -/
theorem exists_warnings (v : Validated) : ∃ branches, checkBranches v.graph = .ok branches ∧
    v.warnings = checkReachability v.graph ++ branches := by
  have hedges : checkEdges v.graph = [] :=
    List.flatMap_eq_nil_iff.mpr fun e he => v.checkEdge_eq_nil he
  obtain ⟨config, branches, hconfig, hbranches, hwarnings⟩ := findings_of_validate v.accepted
  obtain rfl : config = [] := Except.ok.inj (hconfig.symm.trans v.checkConfig_eq_nil)
  rw [v.checkIdentity_eq_nil, hedges, v.checkCycles_eq_nil] at hwarnings
  exact ⟨branches, hbranches, by simpa using hwarnings⟩

theorem nodes_eq_nil_of_entries (v : Validated) (h : v.graph.entries = []) :
    v.graph.nodes = [] := by
  by_contra hnodes
  have hnone : checkReachability v.graph = [noEntry] := by
    simp [checkReachability, hnodes, h]
  have herror := v.not_isError (d := noEntry) (by simp [hnone])
  cases herror

theorem mem_checkReachability (v : Validated) {d : Diagnostic} :
    d ∈ checkReachability v.graph ↔
      ∃ node, v.graph.node? node.id = some node ∧ ¬ v.graph.Reached node.id ∧
        d = unreachableNode node := by
  have hreached : ∀ id, id ∈ reached v.graph ↔ v.graph.Reached id := by
    intro id
    rw [reached, v.soundEdges_eq, Graph.mem_reachable]
    rfl
  constructor
  · intro hd
    have herror := v.not_isError (d := d) (by simp [hd])
    rw [checkReachability] at hd
    split at hd
    · exact absurd hd List.not_mem_nil
    split at hd
    · rw [List.mem_singleton.mp hd] at herror
      cases herror
    · obtain ⟨id, hid, hwarning⟩ := List.mem_filterMap.mp hd
      obtain ⟨_, hnot⟩ := List.mem_filter.mp hid
      obtain ⟨node, hnode, hd⟩ := Option.map_eq_some_iff.mp hwarning
      obtain ⟨_, rfl⟩ := Graph.node?_eq_some hnode
      refine ⟨node, hnode, ?_, hd.symm⟩
      rw [← hreached]
      simpa using hnot
  · rintro ⟨node, hnode, hnot, rfl⟩
    have hmem := (Graph.node?_eq_some hnode).1
    have hnodes : v.graph.nodes.isEmpty = false := by
      rw [List.isEmpty_eq_false_iff]
      exact List.ne_nil_of_mem hmem
    have hentries : v.graph.entries.isEmpty = false := by
      refine List.isEmpty_eq_false_iff.mpr fun hnone => ?_
      exact List.ne_nil_of_mem hmem (v.nodes_eq_nil_of_entries hnone)
    have hid : node.id ∈ v.graph.nodeIds := List.mem_eraseDups.mpr (List.mem_map_of_mem hmem)
    simp only [checkReachability, hnodes, hentries, Bool.false_eq_true, if_false]
    refine List.mem_filterMap.mpr ⟨node.id, List.mem_filter.mpr ⟨hid, ?_⟩, by rw [hnode]; rfl⟩
    simpa [hreached] using hnot

/-- A node can be reached if and only if the graph has it and no warning says otherwise. -/
theorem reached_iff (v : Validated) {id : Text} : v.graph.Reached id ↔
    id ∈ v.graph.nodeIds ∧
      ∀ d ∈ v.warnings, d.code = "unreachable-node" → d.nodeId ≠ some id := by
  obtain ⟨branches, hbranches, hwarnings⟩ := v.exists_warnings
  constructor
  · intro hr
    obtain ⟨node, hnode⟩ := v.sound.node_of_reached hr
    obtain ⟨hmem, rfl⟩ := Graph.node?_eq_some hnode
    refine ⟨List.mem_eraseDups.mpr (List.mem_map_of_mem hmem), ?_⟩
    intro d hd hcode hid
    rw [hwarnings] at hd
    rcases List.mem_append.mp hd with hd | hd
    · obtain ⟨other, _, hnot, rfl⟩ := v.mem_checkReachability.mp hd
      exact hnot (Option.some.inj hid ▸ hr)
    · obtain ⟨_, _, _, rfl⟩ := checkBranches_code hbranches hd
      have hcodes : ("unterminated-branch" : Text) ≠ "unreachable-node" := by decide
      exact hcodes hcode
  · rintro ⟨hid, hnone⟩
    obtain ⟨node, hmem, rfl⟩ := List.mem_map.mp (List.mem_eraseDups.mp hid)
    by_contra hnot
    have hwarned : unreachableNode node ∈ v.warnings := by
      rw [hwarnings]
      exact List.mem_append_left _
        (v.mem_checkReachability.mpr ⟨node, v.sound.node?_id hmem, hnot, rfl⟩)
    exact hnone _ hwarned rfl rfl

end Validated

end WorkflowCompiler
