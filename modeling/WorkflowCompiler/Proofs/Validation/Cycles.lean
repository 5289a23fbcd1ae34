import Mathlib
import WorkflowCompiler.Proofs.Graph.Condensation
import WorkflowCompiler.Proofs.Validation.Warnings

/-! # What legal cycles are

A knot is a set of nodes that lead to each other without leaving it. In an accepted graph every knot
has an owner: a loop in it whose region holds the knot, is entered through that loop only, and is
left by no exit that comes back to its body. Another knot that meets this region lies in it, or
passes a loop with the whole region in its body.
-/
namespace WorkflowCompiler

namespace Validation
open Relation WorkflowCompiler.Graph

section Successors
variable {g : Graph} {edges : List Edge} {a b : Text}

theorem nodes_successors : (successors g edges).nodes = g.nodeIds := by
  simp [successors, Successors.nodes, List.map_map, Function.comp_def]

theorem lookup_successors : b ∈ ((successors g edges).lookup a).getD [] ↔
    a ∈ g.nodeIds ∧ Leads edges a b := by
  have hsort : b ∈ targets (sortEdges edges) a ↔ Leads edges a b := by
    simp only [mem_targets, Leads, sortEdges, (List.mergeSort_perm _ _).mem_iff]
  rw [successors, lookup_map_pair]
  split
  next ha => simpa [ha] using hsort
  next ha => simp [ha]

theorem links_successors : (successors g edges).Links a b ↔
    a ∈ g.nodeIds ∧ b ∈ g.nodeIds ∧ Leads edges a b := by
  rw [Successors.links_iff, lookup_successors, nodes_successors]
  tauto

theorem nodes_restrict {succ : Successors} {members : List Text} :
    a ∈ (restrict succ members).nodes ↔ a ∈ succ.nodes ∧ a ∈ members := by
  simp only [restrict, Successors.nodes, List.mem_map, List.mem_filter, List.contains_iff_mem]
  constructor
  · rintro ⟨_, ⟨s, ⟨hs, hm⟩, rfl⟩, rfl⟩
    exact ⟨⟨s, hs, rfl⟩, hm⟩
  · rintro ⟨⟨s, hs, rfl⟩, hm⟩
    exact ⟨_, ⟨s, ⟨hs, hm⟩, rfl⟩, rfl⟩

theorem lookup_restrict {succ : Successors} {members : List Text} :
    b ∈ ((restrict succ members).lookup a).getD [] ↔
      a ∈ members ∧ b ∈ members ∧ b ∈ (succ.lookup a).getD [] := by
  induction succ with
  | nil => simp [restrict]
  | cons s rest ih =>
    obtain ⟨key, found⟩ := s
    have hrest : restrict ((key, found) :: rest) members =
        if key ∈ members then (key, found.filter members.contains) :: restrict rest members
        else restrict rest members := by
      by_cases hk : key ∈ members <;> simp [restrict, hk]
    rw [hrest, List.lookup_cons]
    by_cases hkey : a = key
    · subst hkey
      by_cases ha : a ∈ members
      · simp [ha, and_comm]
      · simp [ha, ih]
    · have hne : (a == key) = false := beq_eq_false_iff_ne.mpr hkey
      rw [hne]
      split
      · rw [List.lookup_cons, hne]
        exact ih
      · exact ih

theorem links_restrict {succ : Successors} {members : List Text} :
    (restrict succ members).Links a b ↔ a ∈ members ∧ b ∈ members ∧ succ.Links a b := by
  rw [Successors.links_iff, lookup_restrict, nodes_restrict, Successors.links_iff]
  tauto

end Successors

section Legal
variable {g : Graph} {edges : List Edge}

/-- A head owns a region that lies in its body apart from itself, if no edge enters the region past
the head and the exit does not lead into the body. -/
theorem owns_iff {head : Text} {members : List Text} : owns edges head members = true ↔
    (∀ m ∈ members, m = head ∨ m ∈ loopBody edges head) ∧
    (∀ e ∈ edges, e.target ∈ members → e.target ≠ head →
      e.source ∈ loopBody edges head ∨ e.source = head) ∧
    ∀ x ∈ reachableFromPort edges head (some "exit"), x ∉ loopBody edges head := by
  simp only [owns, isBroken, Bool.and_eq_true, List.all_eq_true, Bool.or_eq_true, beq_iff_eq,
    Bool.or_eq_false_iff, List.any_eq_false, bne_iff_ne, ne_eq, not_and, Bool.not_eq_eq_eq_not,
    Bool.not_true, List.contains_eq_mem, decide_eq_true_eq, decide_eq_false_iff_not]
  refine and_congr_right fun _ => and_congr_left fun _ => forall₂_congr fun e _ => ?_
  tauto

theorem isLegal_succ_iff {fuel : Nat} {members : List Text} :
    isLegal g edges (fuel + 1) members = true ↔
      ∃ head ∈ members, isLoop g head ∧ owns edges head members ∧
        ∀ c ∈ (restrict (successors g edges) (members.filter (· != head))).components,
          (restrict (successors g edges) (members.filter (· != head))).isTrivial c ∨
            isLegal g edges fuel c := by
  simp only [isLegal, List.any_eq_true, Text.sort, (List.mergeSort_perm _ _).mem_iff,
    List.mem_filter, Bool.and_eq_true, List.all_eq_true, Bool.or_eq_true, and_assoc]

theorem checkCycles_eq_nil_iff : checkCycles g = [] ↔
    ∀ c ∈ (successors g (soundEdges g)).components, (successors g (soundEdges g)).isTrivial c ∨
      isLegal g (soundEdges g) (g.nodes.length + 1) c := by
  simp only [checkCycles, List.map_eq_nil_iff, List.filter_eq_nil_iff, Bool.and_eq_true,
    Bool.not_eq_true', not_and, Bool.not_eq_false]
  refine forall₂_congr fun c _ => ?_
  cases (successors g (soundEdges g)).isTrivial c <;> simp

end Legal

end Validation

namespace Graph
open Relation

/-- Some nodes that lead to each other, without leaving them and by at least one edge. -/
structure Knot (edges : List Edge) (nodes : Set Text) : Prop where
  nonempty : nodes.Nonempty
  tied : ∀ a ∈ nodes, ∀ b ∈ nodes, TransGen (fun x y => Leads edges x y ∧ x ∈ nodes ∧ y ∈ nodes) a b

theorem Knot.subset_of_closed {edges : List Edge} {K S : Set Text} (hK : Knot edges K)
    (hclosed : ∀ x ∈ S, ∀ y ∈ K, Leads edges x y → y ∈ S) {a : Text} (ha : a ∈ K) (haS : a ∈ S) :
    ∀ b ∈ K, b ∈ S := by
  intro b hb
  induction hK.tied a ha b hb with
  | single h => exact hclosed a haS _ h.2.2 h.1
  | tail _ h ih => exact hclosed _ (ih h.2.1) _ h.2.2 h.1

namespace Successors
variable {succ : Successors} {K : Set Text}

theorem isTrivial_iff {c : List Text} :
    succ.isTrivial c = true ↔ ∃ only, c = [only] ∧ only ∉ (succ.lookup only).getD [] := by
  unfold isTrivial
  split
  · simp
  next hne =>
    constructor
    · intro h
      cases h
    · rintro ⟨only, rfl, _⟩
      exact absurd rfl (hne only)

theorem subset_component (hK : ∀ a ∈ K, ∀ b ∈ K, TransGen succ.Links a b) {c : List Text}
    (hc : c ∈ succ.components) {x : Text} (hx : x ∈ K) (hxc : x ∈ c) : ∀ y ∈ K, y ∈ c := by
  obtain ⟨a, _, ha⟩ := (components_spec succ).1 c hc
  intro y hy
  have hxy : succ.Connected x y := ⟨(hK x hx y hy).to_reflTransGen, (hK y hy x hx).to_reflTransGen⟩
  exact (ha y).mpr (((ha x).mp hxc).trans hxy)

theorem exists_component_of_tied (hne : K.Nonempty)
    (hK : ∀ a ∈ K, ∀ b ∈ K, TransGen succ.Links a b) :
    ∃ c ∈ succ.components, succ.isTrivial c = false ∧ ∀ x ∈ K, x ∈ c := by
  obtain ⟨x, hx⟩ := hne
  obtain ⟨y, hl, hback⟩ := TransGen.head'_iff.mp (hK x hx x hx)
  obtain ⟨c, hc, hxc⟩ := (components_spec succ).2 x hl.mem_nodes.1
  have hsub := subset_component hK hc hx hxc
  refine ⟨c, hc, ?_, hsub⟩
  by_contra htrivial
  obtain ⟨only, rfl, hself⟩ := isTrivial_iff.mp (Bool.not_eq_false _ ▸ htrivial)
  obtain rfl := List.mem_singleton.mp hxc
  -- the way from the only node to itself stays in its component, so its first edge is a self-edge
  have hy : y ∈ [x] := by
    obtain ⟨a, _, ha⟩ := (components_spec succ).1 _ hc
    exact (ha y).mpr (((ha x).mp hxc).trans ⟨.single hl, hback⟩)
  obtain rfl := List.mem_singleton.mp hy
  exact hself (links_iff.mp hl).1

theorem tied_of_component {c : List Text} (hc : c ∈ succ.components)
    (hnontrivial : succ.isTrivial c = false) {a b : Text} (ha : a ∈ c) (hb : b ∈ c) :
    TransGen (fun x y => succ.Links x y ∧ x ∈ c ∧ y ∈ c) a b := by
  obtain ⟨r, _, hclass⟩ := (components_spec succ).1 c hc
  have hconnected : ∀ {x y}, x ∈ c → y ∈ c → succ.Connected x y :=
    fun hx hy => ((hclass _).mp hx).symm.trans ((hclass _).mp hy)
  -- a path from the component into the component does not leave it
  have hinside : ∀ {x y}, ReflTransGen succ.Links x y → x ∈ c → y ∈ c →
      ReflTransGen (fun x y => succ.Links x y ∧ x ∈ c ∧ y ∈ c) x y := by
    intro x y hpath hx hy
    induction hpath using ReflTransGen.head_induction_on with
    | refl => exact .refl
    | @head x z hl hpath ih =>
      have hback := (hconnected hx hy).2
      have hz : z ∈ c := (hclass z).mpr
        (((hclass x).mp hx).trans ⟨.single hl, hpath.trans hback⟩)
      exact .head ⟨hl, hx, hz⟩ (ih hz)
  have hother : ∀ {x y}, x ∈ c → y ∈ c → x ≠ y →
      TransGen (fun x y => succ.Links x y ∧ x ∈ c ∧ y ∈ c) x y := by
    intro x y hx hy hne
    rcases reflTransGen_iff_eq_or_transGen.mp (hinside (hconnected hx hy).1 hx hy) with heq | hpath
    · exact absurd heq.symm hne
    · exact hpath
  by_cases hab : a = b
  · subst hab
    by_cases hmore : ∃ x ∈ c, x ≠ a
    · obtain ⟨x, hx, hne⟩ := hmore
      exact (hother ha hx hne.symm).trans (hother hx ha hne)
    · -- the only node of the component leads to itself
      have honly : c = [a] := by
        refine List.perm_singleton.mp ((List.perm_ext_iff_of_nodup (components_nodup hc)
          (List.nodup_singleton a)).mpr fun x => ?_)
        rw [List.mem_singleton]
        exact ⟨fun hx => by_contra fun hne => hmore ⟨x, hx, hne⟩, fun hx => hx ▸ ha⟩
      have hself : a ∈ (succ.lookup a).getD [] := by
        by_contra hnone
        rw [isTrivial_iff.mpr ⟨a, honly, hnone⟩] at hnontrivial
        cases hnontrivial
      have hnode : a ∈ succ.nodes := mem_nodes_of_lookup hself
      exact .single ⟨links_iff.mpr ⟨hself, hnode⟩, ha, ha⟩
  · exact hother ha hb hab

theorem knot_of_component {edges : List Edge} (hlinks : ∀ {x y}, succ.Links x y → Leads edges x y)
    {c : List Text} (hc : c ∈ succ.components) (hnontrivial : succ.isTrivial c = false) :
    Knot edges {m | m ∈ c} := by
  obtain ⟨a, _, hclass⟩ := (components_spec succ).1 c hc
  refine ⟨⟨a, (hclass a).mpr ⟨.refl, .refl⟩⟩, fun x hx y hy => ?_⟩
  have hstep : ∀ u v, succ.Links u v ∧ u ∈ c ∧ v ∈ c → Leads edges u v ∧ u ∈ c ∧ v ∈ c :=
    fun u v h => ⟨hlinks h.1, h.2⟩
  exact TransGen.mono hstep _ _ (tied_of_component hc hnontrivial hx hy)

end Successors

/-- A loop that owns a region around a knot. A further knot is inside the region, or passes a node
outside of it that has the whole region in its body. -/
structure Owner (g : Graph) (head : Text) (owned : List Text) (K : Set Text) : Prop where
  isLoop : Validation.isLoop g head
  mem : head ∈ K
  owns : Validation.owns g.edges head owned
  holds : ∀ x ∈ K, x ∈ owned
  apart : ∀ D, Knot g.edges D → (∃ x ∈ D, x ∈ owned) →
    (∀ x ∈ D, x ∈ owned) ∨ ∃ k ∈ D, k ∉ owned ∧ ∀ x ∈ owned, x ∈ loopBody g.edges k

theorem Sound.mem_nodeIds_of_knot {g : Graph} (hg : g.Sound) {K : Set Text}
    (h : Knot g.edges K) {x : Text} (hx : x ∈ K) : x ∈ g.nodeIds := by
  obtain ⟨_, _, ⟨e, he, _, rfl⟩, _⟩ := TransGen.tail'_iff.mp (h.tied x hx x hx)
  obtain ⟨node, hnode⟩ := hg.node_of_edge he
  obtain ⟨hmem, hid⟩ := node?_eq_some hnode
  exact List.mem_eraseDups.mpr (List.mem_map.mpr ⟨node, hmem, hid⟩)

section Tied
open Validation
variable {g : Graph} (hg : g.Sound) {K : Set Text} (h : Knot g.edges K)
include hg h

theorem Knot.tied_successors : ∀ a ∈ K, ∀ b ∈ K, TransGen (successors g g.edges).Links a b := by
  intro a ha b hb
  refine TransGen.mono ?_ _ _ (h.tied a ha b hb)
  rintro x y ⟨hl, hx, hy⟩
  exact links_successors.mpr ⟨hg.mem_nodeIds_of_knot h hx, hg.mem_nodeIds_of_knot h hy, hl⟩

theorem Knot.tied_restrict {members : List Text} (hK : ∀ x ∈ K, x ∈ members) :
    ∀ a ∈ K, ∀ b ∈ K, TransGen (restrict (successors g g.edges) members).Links a b := by
  intro a ha b hb
  refine TransGen.mono ?_ _ _ (h.tied a ha b hb)
  rintro x y ⟨hl, hx, hy⟩
  exact links_restrict.mpr ⟨hK x hx, hK y hy,
    links_successors.mpr ⟨hg.mem_nodeIds_of_knot h hx, hg.mem_nodeIds_of_knot h hy, hl⟩⟩

end Tied

/-- The knots of a legal region have owners. The head of the region owns those that it is in; the
others are left when it is taken out. -/
theorem exists_owner_of_isLegal {g : Graph} (hg : g.Sound) {fuel : Nat} {members : List Text}
    (hlegal : Validation.isLegal g g.edges fuel members) {K : Set Text} (hK : Knot g.edges K)
    (hsub : ∀ x ∈ K, x ∈ members)
    (hapart : ∀ D, Knot g.edges D → (∃ x ∈ D, x ∈ members) →
      (∀ x ∈ D, x ∈ members) ∨ ∃ k ∈ D, k ∉ members ∧ ∀ x ∈ members, x ∈ loopBody g.edges k) :
    ∃ head owned, g.Owner head owned K := by
  induction fuel generalizing members with
  | zero => cases hlegal
  | succ fuel ih =>
    obtain ⟨head, hhead, hloop, howns, hinner⟩ := Validation.isLegal_succ_iff.mp hlegal
    obtain ⟨hbody, _, _⟩ := Validation.owns_iff.mp howns
    by_cases hmem : head ∈ K
    · exact ⟨head, members, hloop, hmem, howns, hsub, hapart⟩
    -- the knots that avoid the head lie among the other members
    have hothers : ∀ {D : Set Text}, head ∉ D → (∀ x ∈ D, x ∈ members) →
        ∀ x ∈ D, x ∈ members.filter (· != head) := by
      intro D hD hDm x hx
      refine List.mem_filter.mpr ⟨hDm x hx, ?_⟩
      have hne : x ≠ head := fun h => hD (h ▸ hx)
      simpa using hne
    obtain ⟨c, hc, hnontrivial, hKc⟩ := Successors.exists_component_of_tied hK.nonempty
      (hK.tied_restrict hg (hothers hmem hsub))
    have hclegal := (hinner c hc).resolve_left (by simp [hnontrivial])
    have hcm : ∀ x ∈ c, x ∈ members ∧ x ≠ head := by
      intro x hx
      have hnode := Successors.mem_nodes_of_component hc hx
      simpa using (Validation.nodes_restrict.mp hnode).2
    refine ih hclegal hKc ?_
    rintro D hD ⟨x, hx, hxc⟩
    rcases hapart D hD ⟨x, hx, (hcm x hxc).1⟩ with hin | ⟨k, hk, hkm, hall⟩
    · by_cases hheadD : head ∈ D
      · refine Or.inr ⟨head, hheadD, fun h => (hcm head h).2 rfl, fun y hy => ?_⟩
        exact (hbody y (hcm y hy).1).resolve_left (hcm y hy).2
      · have htied := hD.tied_restrict hg (hothers hheadD hin)
        exact Or.inl (Successors.subset_component htied hc hx hxc)
    · exact Or.inr ⟨k, hk, fun h => hkm (hcm k h).1, fun y hy => hall y (hcm y hy).1⟩

end Graph

/-- Every knot of an accepted graph has an owner. -/
theorem Validated.exists_owner (v : Validated) {K : Set Text} (hK : Graph.Knot v.graph.edges K) :
    ∃ head owned, v.graph.Owner head owned K := by
  have hg := v.sound
  have hcycles := Validation.checkCycles_eq_nil_iff.mp v.checkCycles_eq_nil
  rw [v.soundEdges_eq] at hcycles
  obtain ⟨c, hc, hnontrivial, hKc⟩ :=
    Graph.Successors.exists_component_of_tied hK.nonempty (hK.tied_successors hg)
  have hlegal := (hcycles c hc).resolve_left (by simp [hnontrivial])
  refine Graph.exists_owner_of_isLegal hg hlegal hK hKc ?_
  rintro D hD ⟨x, hx, hxc⟩
  exact Or.inl (Graph.Successors.subset_component (hD.tied_successors hg) hc hx hxc)

end WorkflowCompiler
