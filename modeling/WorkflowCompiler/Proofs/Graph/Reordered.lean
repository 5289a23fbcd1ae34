import Mathlib
import WorkflowCompiler.Proofs.Graph.Around
import WorkflowCompiler.Graph.Components
import WorkflowCompiler.Proofs.Text.Order

/-! # Graphs in another order

A graph with unique ids is looked at by id, and the order in which nodes and edges are given does
not show: ways, regions and merge points stay, and a depth-first search over sorted nodes finds the
same components in the same order.
-/
namespace WorkflowCompiler.Graph

section Edges
variable {edges edges' : List Edge} (h : edges.Perm edges')
include h

theorem leads_perm : Leads edges = Leads edges' := by
  funext a b
  simp only [Leads, h.mem_iff]

theorem mem_reachable_perm {starts : List Text} {id : Text} :
    id ∈ reachable edges starts ↔ id ∈ reachable edges' starts := by
  rw [mem_reachable, mem_reachable, Reaches, leads_perm h]

theorem mem_reachableFromPort_perm {head : Text} {port : Option Text} {id : Text} :
    id ∈ reachableFromPort edges head port ↔ id ∈ reachableFromPort edges' head port := by
  simp only [mem_reachableFromPort, leads_perm h, h.mem_iff]

end Edges

section Nodes
variable {g g' : Graph} (h : g.nodes.Perm g'.nodes) (hnodup : (g.nodes.map (·.id)).Nodup)
include h

theorem starts_perm (hfree : ∀ id, (g.incoming id).isEmpty = (g'.incoming id).isEmpty) :
    g.starts.Perm g'.starts := by
  simp only [starts, hfree, (h.filter (·.kind = .input)).isEmpty_eq]
  split
  · exact h.filter _
  · exact h.filter _

include hnodup

theorem node?_perm (id : Text) : g.node? id = g'.node? id := by
  have hnodup' : (g'.nodes.map (·.id)).Nodup := (h.map _).nodup_iff.mp hnodup
  refine Option.ext fun node => ⟨fun hnode => ?_, fun hnode => ?_⟩
  · obtain ⟨hmem, rfl⟩ := node?_eq_some hnode
    exact node?_of_nodup hnodup' (h.mem_iff.mp hmem)
  · obtain ⟨hmem, rfl⟩ := node?_eq_some hnode
    exact node?_of_nodup hnodup (h.mem_iff.mpr hmem)

/-- Graphs with the same nodes begin at the same ones if the same of them can be entered. -/
theorem entryIds_perm (hfree : ∀ id, (g.incoming id).isEmpty = (g'.incoming id).isEmpty) :
    g.entryIds = g'.entryIds := by
  have hstarts : ∀ {g : Graph}, (g.nodes.map (·.id)).Nodup → (g.starts.map (·.id)).Nodup := by
    intro g hnodup
    rw [starts]
    split
    · exact hnodup.sublist (List.filter_sublist.map _)
    · exact hnodup.sublist (List.filter_sublist.map _)
  rw [entryIds_eq, entryIds_eq, eraseDups_of_nodup (hstarts hnodup),
    eraseDups_of_nodup (hstarts ((h.map _).nodup_iff.mp hnodup))]
  exact Text.sort_congr ((starts_perm h hfree).map _)

end Nodes

/-- Two graphs have the same nodes and edges, with unique ids, in any order. -/
structure Reordered (g g' : Graph) : Prop where
  nodes : g.nodes.Perm g'.nodes
  edges : g.edges.Perm g'.edges
  node_ids : (g.nodes.map (·.id)).Nodup
  edge_ids : (g.edges.map (·.id)).Nodup

namespace Reordered
variable {g g' : Graph} (h : Reordered g g')
include h

theorem symm : Reordered g' g where
  nodes := h.nodes.symm
  edges := h.edges.symm
  node_ids := (h.nodes.map _).nodup_iff.mp h.node_ids
  edge_ids := (h.edges.map _).nodup_iff.mp h.edge_ids

theorem node?_eq (id : Text) : g.node? id = g'.node? id := node?_perm h.nodes h.node_ids id

theorem nodeIds_perm : g.nodeIds.Perm g'.nodeIds := by
  rw [nodeIds, nodeIds, eraseDups_of_nodup h.node_ids, eraseDups_of_nodup h.symm.node_ids]
  exact h.nodes.map _

theorem entryIds_eq : g.entryIds = g'.entryIds :=
  entryIds_perm h.nodes h.node_ids fun _ => (h.edges.filter _).isEmpty_eq

theorem reached_iff {id : Text} : g.Reached id ↔ g'.Reached id := by
  rw [Reached, Reached, h.entryIds_eq, Reaches, leads_perm h.edges]

theorem mem_backEdges_iff {e : Edge} : e ∈ g.backEdges ↔ e ∈ g'.backEdges := by
  simp only [backEdges, incoming, loopBody, List.mem_flatMap, List.mem_filter,
    List.contains_iff_mem, Bool.or_eq_true, h.nodes.mem_iff, h.edges.mem_iff,
    mem_reachableFromPort_perm h.edges]

theorem mem_merges_iff {id : Text} : id ∈ g.merges ↔ id ∈ g'.merges := by
  refine mem_merges_congr h.edge_ids h.symm.edge_ids fun e => ?_
  rw [mem_forwardEdges h.edge_ids, mem_forwardEdges h.symm.edge_ids, h.edges.mem_iff,
    h.mem_backEdges_iff, h.reached_iff]

end Reordered

namespace Successors
variable {succ succ' : Successors}

theorem visit_congr (h : succ.next = succ'.next) (depth : Nat) :
    visit succ depth = visit succ' depth := by
  induction depth with
  | zero => rfl
  | succ depth ih =>
    funext t id
    rw [visit, visit, h, ih]

section Perm
variable (h : succ.Perm succ') (hnodup : succ.nodes.Nodup)
include h hnodup

theorem lookup_perm (id : Text) : succ.lookup id = succ'.lookup id := by
  induction h with
  | nil => rfl
  | cons s _ ih =>
    rw [List.lookup_cons, List.lookup_cons, ih (List.nodup_cons.mp hnodup).2]
  | swap s t rest =>
    obtain ⟨a, as⟩ := s
    obtain ⟨b, bs⟩ := t
    have hne : b ≠ a := fun heq => (List.nodup_cons.mp hnodup).1 (by simp [heq])
    simp only [List.lookup_cons]
    by_cases ha : id = a
    · rw [ha, beq_eq_false_iff_ne.mpr hne.symm]
    · rw [beq_eq_false_iff_ne.mpr ha]
  | trans hperm _ ih ih' =>
    rw [ih hnodup, ih' ((hperm.map _).nodup_iff.mp hnodup)]

theorem next_perm : succ.next = succ'.next := by
  funext id
  rw [next, next, lookup_perm h hnodup]
  refine List.filter_congr fun target _ => ?_
  rw [Bool.eq_iff_iff, List.any_eq_true, List.any_eq_true]
  simp only [h.mem_iff]

theorem components_perm : succ.components = succ'.components := by
  have hnodes : Text.sort succ.nodes = Text.sort succ'.nodes := Text.sort_congr (h.map _)
  rw [components, components, tarjan, tarjan, hnodes, h.length_eq,
    visit_congr (next_perm h hnodup)]

theorem isTrivial_perm (members : List Text) :
    succ.isTrivial members = succ'.isTrivial members := by
  simp only [isTrivial, lookup_perm h hnodup]

end Perm

end Successors

end WorkflowCompiler.Graph
