import Mathlib
import WorkflowCompiler.Proofs.Graph.Around

/-! # Graphs without cycles

Where no node leads back to itself, one can argue from what leads to a node and from what it leads
to. No edge goes back to the head of a loop there, so every node at which two arms meet is a merge
point.
-/
namespace WorkflowCompiler.Graph
open Relation

/-- No node leads back to itself. -/
def Acyclic (g : Graph) : Prop := ∀ id, ¬ TransGen (Leads g.edges) id id

theorem acyclic_of_rank {g : Graph} (rank : Text → Nat)
    (h : ∀ e ∈ g.edges, rank e.source < rank e.target) : g.Acyclic := by
  have hpath : ∀ {a b}, TransGen (Leads g.edges) a b → rank a < rank b := by
    intro a b hab
    induction hab with
    | single hl =>
      obtain ⟨e, he, rfl, rfl⟩ := hl
      exact h e he
    | tail _ hl ih =>
      obtain ⟨e, he, rfl, rfl⟩ := hl
      exact ih.trans (h e he)
  exact fun id hid => (hpath hid).false

/-- A relation without cycles that starts from finitely many things is well-founded. -/
theorem wellFounded_of_acyclic {α : Type*} {r : α → α → Prop} {s : Finset α}
    (hs : ∀ a b, r a b → a ∈ s) (h : ∀ a, ¬ TransGen r a a) : WellFounded r := by
  classical
  -- all that leads to `a` leads to `b` as well, and so does `a` itself
  have hless : ∀ a b, r a b →
      (s.filter (TransGen r · a)).card < (s.filter (TransGen r · b)).card := by
    intro a b hab
    refine Finset.card_lt_card ⟨?_, ?_⟩
    · intro x hx
      obtain ⟨hxs, hxa⟩ := Finset.mem_filter.mp hx
      exact Finset.mem_filter.mpr ⟨hxs, hxa.tail hab⟩
    · intro hsub
      have ha := hsub (Finset.mem_filter.mpr ⟨hs a b hab, .single hab⟩)
      exact h a (Finset.mem_filter.mp ha).2
  exact Subrelation.wf (fun hab => hless _ _ hab) (measure fun a => _).wf

theorem transGen_of_ne {g : Graph} {a b : Text} (hr : Reaches g.edges a b) (hne : a ≠ b) :
    TransGen (Leads g.edges) a b := by
  rcases reflTransGen_iff_eq_or_transGen.mp hr with rfl | hpath
  · exact absurd rfl hne
  · exact hpath

section
variable {g : Graph} (h : g.Acyclic)
include h

theorem Acyclic.wellFounded : WellFounded (Leads g.edges) := by
  refine wellFounded_of_acyclic (s := (g.edges.map (·.source)).toFinset) ?_ h
  rintro a b ⟨e, he, rfl, _⟩
  exact List.mem_toFinset.mpr (List.mem_map_of_mem he)

theorem Acyclic.wellFounded_swap : WellFounded (fun b a => Leads g.edges a b) := by
  refine wellFounded_of_acyclic (s := (g.edges.map (·.target)).toFinset) ?_ ?_
  · rintro b a ⟨e, he, _, rfl⟩
    exact List.mem_toFinset.mpr (List.mem_map_of_mem he)
  · intro a ha
    exact h a (transGen_swap.mp ha)

/-- Of the nodes with a property that lead to a node, some is led to by no other one. -/
theorem Acyclic.exists_first {P : Text → Prop} {x : Text} (hx : P x) :
    ∃ m, P m ∧ Reaches g.edges m x ∧ ∀ m', P m' → ¬ TransGen (Leads g.edges) m' m := by
  induction x using h.wellFounded.transGen.induction with
  | _ x ih =>
    by_cases hfirst : ∃ m', P m' ∧ TransGen (Leads g.edges) m' x
    · obtain ⟨m', hm', hpath⟩ := hfirst
      obtain ⟨m, hm, hreach, hnone⟩ := ih m' hpath hm'
      exact ⟨m, hm, hreach.trans hpath.to_reflTransGen, hnone⟩
    · exact ⟨x, hx, .refl, fun m' hm' hpath => hfirst ⟨m', hm', hpath⟩⟩

theorem Acyclic.ne_of_transGen {a b : Text} (hpath : TransGen (Leads g.edges) a b) : a ≠ b := by
  rintro rfl
  exact h a hpath

theorem Acyclic.backEdges_eq_nil : g.backEdges = [] := by
  refine List.eq_nil_iff_forall_not_mem.mpr fun e he => ?_
  simp only [backEdges, List.mem_flatMap, List.mem_filter, incoming, decide_eq_true_eq,
    Bool.or_eq_true, List.contains_eq_mem, beq_iff_eq] at he
  obtain ⟨node, _, ⟨he, ht⟩, hbody | hself⟩ := he
  · exact h node.id ((transGen_of_mem_loopBody hbody).tail ⟨e, he, rfl, ht⟩)
  · exact h node.id (.single ⟨e, he, hself, ht⟩)

theorem Acyclic.mem_forwardEdges {e : Edge} (he : e ∈ g.edges) (hs : g.Reached e.source) :
    e ∈ g.forwardEdges := by
  have hreached : e.source ∈ reachable g.edges (g.entries.map (·.id)) := mem_reachable.mpr hs
  simp [forwardEdges, h.backEdges_eq_nil, he, hreached]

theorem Acyclic.not_hiddenMerge (head : Text) : ¬ g.HiddenMerge head := by
  rintro ⟨hmerge, e, he, e', he', rfl, ht, harm, hs, hs'⟩
  have hne : e ≠ e' := fun heq => harm (congrArg g.arm heq)
  exact hmerge (mem_merges (h.mem_forwardEdges he hs.reached) (h.mem_forwardEdges he' hs'.reached)
    hne ht)

end

end WorkflowCompiler.Graph
