import Mathlib
import WorkflowCompiler.Proofs.Compilation.Code
import WorkflowCompiler.Proofs.Validation.Pruned

/-! # Unreachable nodes have no code

A graph and its part that can be reached compile to the same code. Whatever is asked of the graph is
asked about nodes that can be reached, and there both give the same answers.
-/
namespace WorkflowCompiler
open WorkflowCompiler.Graph Resolution

/-- Without the nodes that no entry leads to, an accepted graph is still accepted, and it compiles
to the same code, if it compiles at all. -/
theorem Validated.compile_pruned (v : Validated) :
    ∃ v' : Validated, judge v.pruned = .ok (.accepted v') ∧ ∀ profile name,
      (compile profile name none v.pruned).outcome.source? =
        (compile profile name none v.graph).outcome.source? := by
  obtain ⟨v', haccepted, hgraph⟩ := v.exists_pruned
  refine ⟨v', haccepted, fun profile name => ?_⟩
  have hg := v.sound
  have hkept := v.keepsReached
  have hreached : ∀ id ∈ v'.graph.nodeIds, v.graph.Reached id := by
    intro id hid
    rw [hgraph] at hid
    obtain ⟨n, hn, rfl⟩ := List.mem_map.mp (List.mem_eraseDups.mp hid)
    obtain ⟨hn, hk⟩ := List.mem_filter.mp hn
    exact (hkept _ (List.mem_eraseDups.mpr (List.mem_map_of_mem hn))).mp hk
  have hcode : v'.code? profile name = v.code? profile name := by
    refine code?_of_alike (fun id hid => ?_) (fun id hid => ?_) (fun id _ => ?_) ?_ ?_ profile name
    · rw [hgraph, pruned, node?_keep hg hkept (hreached id hid)]
    · have hid := kept_of_reached hg hkept (hreached id hid)
      rw [hgraph, pruned, edges_keep hg hkept, sortEdges_filter hg.edges_nodup, List.filter_filter]
      refine List.filter_congr fun e _ => ?_
      by_cases hs : e.source = id
      · simp [hs, hid]
      · simp [hs]
    · rw [hgraph]
      exact mem_merges_keep hg hkept
    · rw [hgraph]
      exact entryIds_keep hg hkept
    · rw [hgraph]
      exact List.length_filter_le _ _
  rw [← hgraph, outcome_compile v' rfl, outcome_compile v rfl, hcode]
  cases v.code? profile name <;> rfl

/-- A step to which nothing leads, in front of one that is run. -/
def strayFeeder : Graph where
  nodes := [⟨"i", .input, [], none⟩, ⟨"a", .debug, [], none⟩, ⟨"u", .debug, [], none⟩,
    ⟨"b", .debug, [], none⟩]
  edges := [⟨"e1", "i", "a", none, none⟩, ⟨"e2", "u", "b", none, none⟩,
    ⟨"e3", "a", "b", none, none⟩]

def feederWarning : Diagnostic := Validation.unreachableNode ⟨"u", .debug, [], none⟩

theorem validate_strayFeeder : validate strayFeeder = .ok [feederWarning] := by
  have hreach : Validation.checkReachability strayFeeder = [feederWarning] := by cbv
  have hbranches : Validation.checkBranches strayFeeder = .ok [] := rfl
  rw [Validation.validate_eq_warnings rfl rfl rfl (by cbv) hbranches, hreach]
  rfl

def feederBlock : Block :=
  .sequence 4 [.leaf 1 ⟨"i", .input, [], none⟩, .leaf 2 ⟨"a", .debug, [], none⟩,
    .leaf 3 ⟨"b", .debug, [], none⟩] none none

/-- The edge from the step that is removed would have made a merge point of the one that is run. -/
theorem compile_pruned_strayFeeder : ∃ (g : Graph) (source : Text),
    g.nodes.map (·.id) = ["i", "a", "b"] ∧ g.edges.map (·.id) = ["e1", "e3"] ∧
    (compile .standard "w" none g).outcome.source? = some source ∧
    (compile .standard "w" none strayFeeder).outcome.source? = some source := by
  obtain ⟨_, _, hsource⟩ :=
    Validated.compile_pruned ⟨strayFeeder, [feederWarning], validate_strayFeeder, rfl⟩
  have hresolve : (resolve ⟨strayFeeder, [feederWarning], validate_strayFeeder, rfl⟩).block =
      .ok feederBlock := by
    cbv
  have hemit : ∃ lines, emit .standard "w" feederBlock = .ok lines := ⟨_, rfl⟩
  obtain ⟨lines, hlines⟩ := hemit
  have hcompile : (compile .standard "w" none strayFeeder).outcome.source? =
      some (sourceText lines) := congrArg _ (outcome_compile_of_emit _ hresolve hlines)
  exact ⟨_, _, rfl, rfl, (hsource .standard "w").trans hcompile, hcompile⟩

end WorkflowCompiler
