import Mathlib
import WorkflowCompiler.Proofs.Graph.Tarjan

/-! # The components condense the graph

When the search has ended, no node is left on the stack, so every node is in one of the components
that were taken off it.
-/
namespace WorkflowCompiler.Graph.Successors
open Relation

variable {succ : Successors}

theorem split_components (succ : Successors) : succ.Split succ.components :=
  (sound_tarjan succ).1.split

theorem mem_flatten_components {id : Text} : id ∈ succ.components.flatten ↔ id ∈ succ.nodes := by
  obtain ⟨hsound, hentered⟩ := sound_tarjan succ
  constructor
  · exact fun hid => hsound.nodes id ((hsound.placed id).mpr (Or.inr hid))
  · intro hid
    refine ((hsound.placed id).mp (hentered id hid)).resolve_left fun hstack => ?_
    -- a node on the stack would lead back to a visit that has not ended
    obtain ⟨g, hg, -⟩ := hsound.back id hstack
    exact absurd hg List.not_mem_nil

/-- The components are classes of nodes that reach each other, and all nodes are in one. -/
theorem components_spec (succ : Successors) :
    (∀ c ∈ succ.components, ∃ a ∈ succ.nodes, ∀ b, b ∈ c ↔ succ.Connected a b) ∧
      ∀ a ∈ succ.nodes, ∃ c ∈ succ.components, a ∈ c :=
  ⟨(split_components succ).classes, fun _ ha =>
    List.mem_flatten.mp (mem_flatten_components.mpr ha)⟩

theorem components_nodup {c : List Text} (hc : c ∈ succ.components) : c.Nodup :=
  ((split_components succ).ascending c hc).imp And.right

theorem mem_nodes_of_component {c : List Text} (hc : c ∈ succ.components) {x : Text} (hx : x ∈ c) :
    x ∈ succ.nodes :=
  mem_flatten_components.mp (List.mem_flatten.mpr ⟨c, hc, hx⟩)

/-- A list of the components of a graph, in which edges lead back only: the components are ascending,
hold every node once, and two nodes are in the same one if and only if they reach each other. -/
structure Condenses (succ : Successors) (cs : List (List Text)) : Prop where
  nonempty : ∀ c ∈ cs, c ≠ []
  ascending : ∀ c ∈ cs, c.Pairwise fun a b => Text.le a b ∧ a ≠ b
  once : cs.flatten.Nodup
  complete : ∀ id, id ∈ cs.flatten ↔ id ∈ succ.nodes
  connected : ∀ a ∈ succ.nodes, ∀ b ∈ succ.nodes,
    (∃ c ∈ cs, a ∈ c ∧ b ∈ c) ↔ succ.Connected a b
  ordered : cs.Pairwise fun c d => ∀ a ∈ c, ∀ b ∈ d, ¬ succ.Links a b

theorem components_condense (succ : Successors) : succ.Condenses succ.components := by
  obtain ⟨hclass, hall⟩ := components_spec succ
  have hsplit := split_components succ
  refine ⟨?_, hsplit.ascending, ?_, fun _ => mem_flatten_components, ?_,
    hsplit.apart.imp And.right⟩
  · rintro c hc rfl
    obtain ⟨a, -, hmem⟩ := hclass [] hc
    exact absurd ((hmem a).mpr ⟨.refl, .refl⟩) List.not_mem_nil
  · exact List.nodup_flatten.mpr ⟨fun c hc => components_nodup hc, hsplit.apart.imp And.left⟩
  · intro a ha b _
    constructor
    · rintro ⟨c, hc, hac, hbc⟩
      obtain ⟨x, -, hmem⟩ := hclass c hc
      exact ((hmem a).mp hac).symm.trans ((hmem b).mp hbc)
    · intro hab
      obtain ⟨c, hc, hac⟩ := hall a ha
      obtain ⟨x, -, hmem⟩ := hclass c hc
      exact ⟨c, hc, hac, (hmem b).mpr (((hmem a).mp hac).trans hab)⟩

end WorkflowCompiler.Graph.Successors
