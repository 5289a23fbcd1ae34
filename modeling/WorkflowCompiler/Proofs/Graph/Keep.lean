import Mathlib
import WorkflowCompiler.Proofs.Graph.Around
import WorkflowCompiler.Proofs.Text.Order

/-! # The part of a graph that can be reached

A graph without the nodes that cannot be reached has the entries, the ways, the regions behind ports
and the merge points of the whole. An edge never leads from a node that is kept to one that is not.
-/
namespace WorkflowCompiler.Graph
open Relation

/-- The part of a graph with some of its nodes and the edges between them. -/
def keep (g : Graph) (kept : Text → Bool) : Graph where
  nodes := g.nodes.filter fun n => kept n.id
  edges := g.edges.filter fun e => kept e.source && kept e.target

/-- Exactly the nodes that can be reached are kept. -/
def KeepsReached (g : Graph) (kept : Text → Bool) : Prop :=
  ∀ id ∈ g.nodeIds, kept id = true ↔ g.Reached id

section Reached
variable {g : Graph} {kept : Text → Bool} (hg : g.Sound) (hkept : g.KeepsReached kept)
include hg hkept

theorem kept_of_reached {id : Text} (h : g.Reached id) : kept id = true := by
  obtain ⟨node, hnode⟩ := hg.node_of_reached h
  obtain ⟨hmem, rfl⟩ := node?_eq_some hnode
  exact (hkept _ (List.mem_eraseDups.mpr (List.mem_map_of_mem hmem))).mpr h

theorem node?_keep {id : Text} (h : g.Reached id) : (g.keep kept).node? id = g.node? id := by
  have hid := kept_of_reached hg hkept h
  rw [node?, keep, List.find?_filter, node?]
  congr 1
  funext n
  by_cases hn : n.id = id
  · simp [hn, hid]
  · simp [hn]

theorem kept_source_iff {e : Edge} (he : e ∈ g.edges) :
    kept e.source = true ↔ g.Reached e.source :=
  hkept _ (hg.mem_nodeIds_of_leads ⟨e, he, rfl, rfl⟩).1

theorem edges_keep : (g.keep kept).edges = g.edges.filter fun e => kept e.source := by
  refine List.filter_congr fun e he => ?_
  cases hs : kept e.source with
  | false => rfl
  | true =>
    have hreached := (kept_source_iff hg hkept he).mp hs
    exact kept_of_reached hg hkept (hreached.step ⟨e, he, rfl, rfl⟩)

theorem mem_edges_keep {e : Edge} :
    e ∈ (g.keep kept).edges ↔ e ∈ g.edges ∧ g.Reached e.source := by
  rw [edges_keep hg hkept, List.mem_filter]
  exact and_congr_right fun he => kept_source_iff hg hkept he

theorem leads_keep {a b : Text} :
    Leads (g.keep kept).edges a b ↔ Leads g.edges a b ∧ g.Reached a := by
  constructor
  · rintro ⟨e, he, rfl, rfl⟩
    obtain ⟨he, hreached⟩ := (mem_edges_keep hg hkept).mp he
    exact ⟨⟨e, he, rfl, rfl⟩, hreached⟩
  · rintro ⟨⟨e, he, rfl, rfl⟩, hreached⟩
    exact ⟨e, (mem_edges_keep hg hkept).mpr ⟨he, hreached⟩, rfl, rfl⟩

theorem reflTransGen_keep {P : Text → Prop} {a b : Text} (ha : g.Reached a) :
    ReflTransGen (fun x y => Leads (g.keep kept).edges x y ∧ P y) a b ↔
      ReflTransGen (fun x y => Leads g.edges x y ∧ P y) a b := by
  constructor
  · exact ReflTransGen.mono (fun x y h => ⟨((leads_keep hg hkept).mp h.1).1, h.2⟩) a b
  · intro h
    have hboth : ReflTransGen (fun x y => Leads (g.keep kept).edges x y ∧ P y) a b ∧
        g.Reached b := by
      induction h with
      | refl => exact ⟨.refl, ha⟩
      | tail _ hl ih =>
        exact ⟨ih.1.tail ⟨(leads_keep hg hkept).mpr ⟨hl.1, ih.2⟩, hl.2⟩, ih.2.step hl.1⟩
    exact hboth.1

theorem mem_reachableFromPort_keep {head : Text} (hhead : g.Reached head) {port : Option Text}
    {id : Text} : id ∈ reachableFromPort (g.keep kept).edges head port ↔
      id ∈ reachableFromPort g.edges head port := by
  rw [mem_reachableFromPort, mem_reachableFromPort]
  constructor
  · rintro ⟨e, he, hs, hport, hne, hpath⟩
    obtain ⟨he, hreached⟩ := (mem_edges_keep hg hkept).mp he
    exact ⟨e, he, hs, hport, hne,
      (reflTransGen_keep hg hkept (hreached.step ⟨e, he, rfl, rfl⟩)).mp hpath⟩
  · rintro ⟨e, he, hs, hport, hne, hpath⟩
    have hreached : g.Reached e.source := hs ▸ hhead
    exact ⟨e, (mem_edges_keep hg hkept).mpr ⟨he, hreached⟩, hs, hport, hne,
      (reflTransGen_keep hg hkept (hreached.step ⟨e, he, rfl, rfl⟩)).mpr hpath⟩

theorem isEmpty_incoming_keep {id : Text} (hid : g.Reached id) (hentry : id ∉ g.entryIds) :
    ((g.keep kept).incoming id).isEmpty = false := by
  obtain ⟨s, hs, hpath⟩ := hid
  cases hpath with
  | refl => exact absurd hs hentry
  | @tail a _ hpath hl =>
    obtain ⟨e, he, rfl, rfl⟩ := hl
    have hkeep : e ∈ (g.keep kept).edges := (mem_edges_keep hg hkept).mpr ⟨he, s, hs, hpath⟩
    have hmem : e ∈ (g.keep kept).incoming e.target :=
      List.mem_filter.mpr ⟨hkeep, beq_self_eq_true _⟩
    exact List.isEmpty_eq_false_iff.mpr (List.ne_nil_of_mem hmem)

theorem inputs_keep : (g.keep kept).nodes.filter (·.kind = .input) =
    g.nodes.filter (·.kind = .input) := by
  rw [keep, List.filter_filter]
  refine List.filter_congr fun n hn => ?_
  by_cases hkind : n.kind = .input
  · have hinput : n ∈ g.nodes.filter (·.kind = .input) :=
      List.mem_filter.mpr ⟨hn, decide_eq_true hkind⟩
    have hstart : n ∈ g.starts := by
      rw [starts, if_neg (by simpa using List.ne_nil_of_mem hinput)]
      exact hinput
    simp [hkind, kept_of_reached hg hkept ⟨n.id, mem_entryIds.mpr ⟨n, hstart, rfl⟩, .refl⟩]
  · simp [hkind]

theorem starts_keep : (g.keep kept).starts = g.starts := by
  rw [starts, inputs_keep hg hkept]
  by_cases hinputs : (g.nodes.filter (·.kind = .input)).isEmpty
  · have hstarts : g.starts = g.nodes.filter fun n => (g.incoming n.id).isEmpty := by
      rw [starts, if_pos hinputs]
    rw [if_pos hinputs, hstarts]
    refine List.filter_filter.trans (List.filter_congr fun n hn => ?_)
    cases hfree : (g.incoming n.id).isEmpty with
    | true =>
      have hmem : n ∈ g.starts := hstarts ▸ List.mem_filter.mpr ⟨hn, hfree⟩
      have hnone : (g.keep kept).incoming n.id = [] := by
        have hsub : ((g.keep kept).incoming n.id).Sublist (g.incoming n.id) :=
          List.filter_sublist.filter _
        rw [List.isEmpty_iff.mp hfree] at hsub
        exact List.sublist_nil.mp hsub
      simp [hnone, kept_of_reached hg hkept ⟨n.id, mem_entryIds.mpr ⟨n, hmem, rfl⟩, .refl⟩]
    | false =>
      obtain ⟨e, he⟩ := List.exists_mem_of_ne_nil _ (List.isEmpty_eq_false_iff.mp hfree)
      obtain ⟨he, ht⟩ := List.mem_filter.mp he
      have hentry : n.id ∉ g.entryIds := beq_iff_eq.mp ht ▸ hg.not_enters_entry he
      cases hk : kept n.id with
      | false => exact Bool.and_false _
      | true =>
        have hreached := (hkept _ (List.mem_eraseDups.mpr (List.mem_map_of_mem hn))).mp hk
        rw [isEmpty_incoming_keep hg hkept hreached hentry, Bool.false_and]
  · rw [if_neg hinputs, starts, if_neg hinputs]

theorem entryIds_keep : (g.keep kept).entryIds = g.entryIds := by
  rw [entryIds_eq, starts_keep hg hkept, ← entryIds_eq]

theorem reached_keep {id : Text} : (g.keep kept).Reached id ↔ g.Reached id := by
  rw [Reached, Reached, entryIds_keep hg hkept]
  refine exists_congr fun s => and_congr_right fun hs => ?_
  have hpaths := reflTransGen_keep hg hkept (P := fun _ => True) (b := id) ⟨s, hs, .refl⟩
  simpa using hpaths

theorem mem_backEdges_keep {e : Edge} (he : e ∈ g.edges) (hs : g.Reached e.source) :
    e ∈ (g.keep kept).backEdges ↔ e ∈ g.backEdges := by
  have ht : g.Reached e.target := hs.step ⟨e, he, rfl, rfl⟩
  have hkeep : e ∈ (g.keep kept).edges := (mem_edges_keep hg hkept).mpr ⟨he, hs⟩
  simp only [backEdges, incoming, List.mem_flatMap, List.mem_filter, List.contains_iff_mem,
    Bool.or_eq_true, beq_iff_eq, he, hkeep, true_and]
  constructor
  · rintro ⟨head, ⟨hhead, hkind⟩, heq, hbody⟩
    refine ⟨head, ⟨(List.mem_filter.mp hhead).1, hkind⟩, heq, hbody.imp_left fun hbody => ?_⟩
    exact (mem_reachableFromPort_keep hg hkept (heq ▸ ht)).mp hbody
  · rintro ⟨head, ⟨hhead, hkind⟩, heq, hbody⟩
    have hkept' : kept head.id = true := kept_of_reached hg hkept (heq ▸ ht)
    refine ⟨head, ⟨List.mem_filter.mpr ⟨hhead, hkept'⟩, hkind⟩, heq,
      hbody.imp_left fun hbody => ?_⟩
    exact (mem_reachableFromPort_keep hg hkept (heq ▸ ht)).mpr hbody

theorem mem_merges_keep {id : Text} : id ∈ (g.keep kept).merges ↔ id ∈ g.merges := by
  have hnodup : ((g.keep kept).edges.map (·.id)).Nodup :=
    hg.edges_nodup.sublist (List.filter_sublist.map _)
  refine mem_merges_congr hnodup hg.edges_nodup fun e => ?_
  rw [mem_forwardEdges hnodup, mem_forwardEdges hg.edges_nodup, mem_edges_keep hg hkept,
    reached_keep hg hkept]
  constructor
  · rintro ⟨⟨he, hs⟩, hback, -⟩
    exact ⟨he, fun hb => hback ((mem_backEdges_keep hg hkept he hs).mpr hb), hs⟩
  · rintro ⟨he, hback, hs⟩
    exact ⟨⟨he, hs⟩, fun hb => hback ((mem_backEdges_keep hg hkept he hs).mp hb), hs⟩

end Reached

end WorkflowCompiler.Graph
