import Mathlib
import WorkflowCompiler.Proofs.Graph.Acyclic
import WorkflowCompiler.Proofs.Graph.Reordered
import WorkflowCompiler.Proofs.Resolution.Strands

/-! # Graphs with other edge ids

The ids of edges say in which order a port leads to its targets, and no more than that. Without
cycles, graphs whose edges join the same nodes by the same ports have the same ways, entries and
merge points, and a node leads to the same targets.
-/
namespace WorkflowCompiler.Graph
open Resolution

def portEdges (g : Graph) (id port : Text) : List Edge :=
  g.edges.filter fun e => e.source == id && g.portOf? e == some port

theorem mem_portEdges {g : Graph} {id port : Text} {e : Edge} :
    e ∈ g.portEdges id port ↔ e ∈ g.edges ∧ e.source = id ∧ g.portOf? e = some port := by
  simp [portEdges]

theorem Sound.targets_ofGraph {g : Graph} (hg : g.Sound) (id port : Text) :
    (Facts.ofGraph g).targets id port =
      ((sortEdges (g.portEdges id port)).map (·.target)).eraseDups := by
  rw [portEdges, sortEdges_filter hg.edges_nodup, Facts.targets, Facts.ofGraph, List.filter_map,
    List.map_map]
  rfl

/-- The edges of a graph go over into those of another graph with the same nodes. They join the same
nodes and leave by the same ports, which one graph may spell out where the other one leaves them
unset. The edges of one port stay in the order of their ids, unless they leave a parallel
container. -/
structure Relabels (f : Edge → Edge) (g g' : Graph) : Prop where
  nodes : g.nodes.Perm g'.nodes
  edges : (g.edges.map f).Perm g'.edges
  source : ∀ e ∈ g.edges, (f e).source = e.source
  target : ∀ e ∈ g.edges, (f e).target = e.target
  port : ∀ e ∈ g.edges, g'.portOf? (f e) = g.portOf? e
  order : ∀ a ∈ g.edges, ∀ b ∈ g.edges, a.source = b.source → g.portOf? a = g.portOf? b →
    (∀ node, g.node? a.source = some node → node.kind ≠ .parallel) →
    Text.le a.id b.id → Text.le (f a).id (f b).id

namespace Relabels
variable {f : Edge → Edge} {g g' : Graph} (h : Relabels f g g')
include h

theorem filter_perm {p q : Edge → Bool} (hpq : ∀ e ∈ g.edges, p (f e) = q e) :
    ((g.edges.filter q).map f).Perm (g'.edges.filter p) := by
  refine List.Perm.trans (.of_eq ?_) (h.edges.filter p)
  rw [List.filter_map]
  exact congrArg _ (List.filter_congr fun e he => (hpq e he).symm)

theorem leads_eq : Leads g.edges = Leads g'.edges := by
  funext a b
  refine propext ⟨?_, ?_⟩
  · rintro ⟨e, he, hs, ht⟩
    exact ⟨f e, h.edges.mem_iff.mp (List.mem_map_of_mem he), (h.source e he).trans hs,
      (h.target e he).trans ht⟩
  · rintro ⟨e', he', hs, ht⟩
    obtain ⟨e, he, rfl⟩ := List.mem_map.mp (h.edges.mem_iff.mpr he')
    exact ⟨e, he, (h.source e he).symm.trans hs, (h.target e he).symm.trans ht⟩

theorem acyclic (ha : g.Acyclic) : g'.Acyclic := by
  intro id hcycle
  rw [← h.leads_eq] at hcycle
  exact ha id hcycle

theorem size_eq : g.size = g'.size := h.nodes.length_eq

theorem node?_eq (hg : g.Sound) (id : Text) : g.node? id = g'.node? id :=
  node?_perm h.nodes hg.nodes_nodup id

theorem entryIds_eq (hg : g.Sound) : g.entryIds = g'.entryIds := by
  refine entryIds_perm h.nodes hg.nodes_nodup fun id => ?_
  have hperm := h.filter_perm (p := (·.target == id)) (q := (·.target == id))
    fun e he => by rw [h.target e he]
  rw [incoming, incoming, ← hperm.isEmpty_eq, List.isEmpty_map]

theorem reached_iff (hg : g.Sound) {id : Text} : g.Reached id ↔ g'.Reached id := by
  rw [Reached, Reached, h.entryIds_eq hg, Reaches, Reaches, h.leads_eq]

theorem mem_merges_iff (hg : g.Sound) (ha : g.Acyclic) {id : Text} :
    id ∈ g.merges ↔ id ∈ g'.merges := by
  have hforward : ∀ {g : Graph}, g.Acyclic → g.forwardEdges =
      g.edges.filter fun e => (reachable g.edges g.entryIds).contains e.source := by
    intro g ha
    rw [forwardEdges, ha.backEdges_eq_nil]
    rfl
  have hperm : (g.forwardEdges.map f).Perm g'.forwardEdges := by
    rw [hforward ha, hforward (h.acyclic ha)]
    refine h.filter_perm fun e he => ?_
    rw [h.source e he, Bool.eq_iff_iff, List.contains_iff_mem, List.contains_iff_mem,
      mem_reachable, mem_reachable]
    exact (h.reached_iff hg).symm
  have htargets : (g.forwardEdges.map (·.target)).Perm (g'.forwardEdges.map (·.target)) := by
    refine List.Perm.trans (.of_eq ?_) (hperm.map Edge.target)
    rw [List.map_map]
    exact List.map_congr_left fun e he => (h.target e (List.mem_filter.mp he).1).symm
  simp only [merges, List.mem_filter, List.mem_eraseDups, htargets.mem_iff, htargets.count_eq]

theorem sortEdges_portEdges (hg' : g'.Sound) {id : Text}
    (hk : ∀ node, g.node? id = some node → node.kind ≠ .parallel) (port : Text) :
    sortEdges (g'.portEdges id port) = (sortEdges (g.portEdges id port)).map f := by
  have hsort : (sortEdges (g.portEdges id port)).Perm (g.portEdges id port) :=
    List.mergeSort_perm _ _
  have hperm : ((g.portEdges id port).map f).Perm (g'.portEdges id port) :=
    h.filter_perm fun e he => by rw [h.source e he, h.port e he]
  have hordered : ((sortEdges (g.portEdges id port)).map f).Pairwise
      fun a b => Text.le a.id b.id := by
    rw [List.pairwise_map]
    refine (pairwise_sortEdges _).imp_of_mem fun {a b} ha hb hle => ?_
    obtain ⟨ha, hsource, hport⟩ := mem_portEdges.mp (hsort.mem_iff.mp ha)
    obtain ⟨hb, hsource', hport'⟩ := mem_portEdges.mp (hsort.mem_iff.mp hb)
    exact h.order a ha b hb (hsource.trans hsource'.symm) (hport.trans hport'.symm)
      (hsource ▸ hk) hle
  have hnodup : ((g'.portEdges id port).map (·.id)).Nodup :=
    hg'.edges_nodup.sublist (List.filter_sublist.map _)
  rw [sortEdges_congr (hperm.symm.trans (hsort.map f).symm) hnodup]
  exact List.mergeSort_of_pairwise hordered

theorem targets_eq (hg : g.Sound) (hg' : g'.Sound) {id : Text}
    (hk : ∀ node, g.node? id = some node → node.kind ≠ .parallel) (port : Text) :
    (Facts.ofGraph g).targets id port = (Facts.ofGraph g').targets id port := by
  rw [hg.targets_ofGraph, hg'.targets_ofGraph, h.sortEdges_portEdges hg' hk, List.map_map]
  refine congrArg _ (List.map_congr_left fun e he => ?_)
  have hmem : e ∈ g.portEdges id port := (List.mergeSort_perm _ _).mem_iff.mp he
  exact (h.target e (mem_portEdges.mp hmem).1).symm

theorem sort_allTargets_eq (id : Text) : Text.sort ((Facts.ofGraph g).allTargets id) =
    Text.sort ((Facts.ofGraph g').allTargets id) := by
  refine Text.sort_congr ((List.perm_ext_iff_of_nodup ?_ ?_).mpr fun t => ?_)
  · exact nodup_eraseDups _
  · exact nodup_eraseDups _
  · rw [mem_allTargets_ofGraph, mem_allTargets_ofGraph]
    exact iff_of_eq (congrFun₂ h.leads_eq id t)

end Relabels

end WorkflowCompiler.Graph
