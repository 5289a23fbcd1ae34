import Mathlib
import WorkflowCompiler.Proofs.Plan.Encoded
import WorkflowCompiler.Proofs.Text.Order

/-! # Where the ports of a plan lead

The limbs of a node begin with the first nodes of its arms, in the order of the arms, and its chain
goes on with what comes next. An open end leads back to the loop around it.
-/
namespace WorkflowCompiler.Plan
open Resolution

theorem eq_toList {xs : List Text} (hnodup : xs.Nodup) {x? : Option Text}
    (h : ∀ t, t ∈ xs ↔ x? = some t) : xs = x?.toList := by
  cases x? with
  | none => exact List.eq_nil_iff_forall_not_mem.mpr fun t ht => nomatch (h t).mp ht
  | some x =>
    refine List.perm_singleton.mp ((List.perm_ext_iff_of_nodup hnodup (List.nodup_singleton x)).mpr ?_)
    intro t
    rw [h, List.mem_singleton, Option.some.injEq, eq_comm]

/-- A strand begins where a part does whose open end leads to a given node: with a single chain, or
with none. -/
def Begins (part : Plan) (back : Option Text) (starts : List Text) : Prop :=
  starts = [] ∧ part = .done ∨ ∃ start, starts = [start] ∧ part.first.or back = some start

theorem begins_toList {part : Plan} {back : Option Text} :
    Begins part back (part.first.or back).toList := by
  cases part with
  | done =>
    cases back with
    | none => exact Or.inl ⟨rfl, rfl⟩
    | some head => exact Or.inr ⟨head, rfl, rfl⟩
  | run node arms rest => exact Or.inr ⟨node.id, rfl, rfl⟩

section Ports
variable {g : Graph} {back : Option Text} {node : Node} {arms : List Plan} {rest : Plan}
  (hfits : Fits node arms rest) (hp : Placed g back (run node arms rest))
include hp

theorem Placed.mem_targets {port t : Text} : t ∈ (Facts.ofGraph g).targets node.id port ↔
    (∃ arm, (port, arm) ∈ legs node arms ∧ arm.first.or (node.inside back) = some t) ∨
      (node.nextPort? = some port ∧ rest.first.or back = some t) := by
  have hleaving : ⟨node.id, port, t⟩ ∈ leaving node arms rest back ↔ _ := mem_leaving
  simp only [true_and] at hleaving
  rw [mem_targets_ofGraph, ← hleaving]
  constructor
  · rintro ⟨e, he, hs, hport, ht⟩
    exact hp.leaving_of_source (Graph.mem_wires.mpr ⟨e, he, hs, hport, ht⟩) rfl
  · intro hw
    exact Graph.mem_wires.mp (hp.wired _ (mem_wires_run.mpr (Or.inl hw)))

include hfits

theorem Placed.targets_leg {leg : Text × Plan} (hleg : leg ∈ legs node arms) :
    (Facts.ofGraph g).targets node.id leg.1 = (leg.2.first.or (node.inside back)).toList := by
  have hports := hfits.ports_nodup
  rw [← hfits.legs_map_fst, List.nodup_append] at hports
  obtain ⟨hkeys, _, hapart⟩ := hports
  refine eq_toList (targets_nodup _ _ _) fun t => ?_
  rw [hp.mem_targets]
  constructor
  · rintro (⟨arm, hleg', ht⟩ | ⟨hnext, _⟩)
    · have heq : leg = (leg.1, arm) := List.inj_on_of_nodup_map hkeys hleg hleg' rfl
      rw [heq]
      exact ht
    · exact absurd rfl (hapart _ (List.mem_map_of_mem hleg) _ (Option.mem_toList.mpr hnext))
  · intro ht
    exact Or.inl ⟨leg.2, hleg, ht⟩

theorem Placed.targets_arms : (node.armPorts arms.length).map ((Facts.ofGraph g).targets node.id) =
    arms.map fun arm => (arm.first.or (node.inside back)).toList := by
  rw [← hfits.legs_map_fst, ← hfits.legs_map_snd, List.map_map, List.map_map]
  rw [hfits.legs_map_snd]
  exact List.map_congr_left fun leg hleg => hp.targets_leg hfits hleg

theorem Placed.targets_next {port : Text} (hnext : node.nextPort? = some port) :
    (Facts.ofGraph g).targets node.id port = (rest.first.or back).toList := by
  have hports := hfits.ports_nodup
  rw [← hfits.legs_map_fst, List.nodup_append] at hports
  obtain ⟨_, _, hapart⟩ := hports
  refine eq_toList (targets_nodup _ _ _) fun t => ?_
  rw [hp.mem_targets]
  constructor
  · rintro (⟨arm, hleg, _⟩ | ⟨_, ht⟩)
    · exact absurd rfl (hapart _ (List.mem_map_of_mem hleg) _ (Option.mem_toList.mpr hnext))
    · exact ht
  · intro ht
    exact Or.inr ⟨hnext, ht⟩

omit hfits in
theorem Placed.targets_failure (hstep : node.kind.isContainer = false) {success failure : Text}
    (hout : node.kind.outcomePorts? = some (success, failure)) :
    (Facts.ofGraph g).targets node.id failure = [] := by
  refine List.eq_nil_iff_forall_not_mem.mpr fun t ht => ?_
  rcases hp.mem_targets.mp ht with ⟨arm, hleg, _⟩ | ⟨hnext, _⟩
  · rw [legs, armPorts_step hstep] at hleg
    exact absurd hleg List.not_mem_nil
  · rw [nextPort?_step hstep, hout] at hnext
    exact outcomePorts_ne hout (Option.some.inj hnext)

/-- A chain goes on where its plan does, except that nothing follows a container of arms. -/
theorem Placed.begins_nexts : Begins rest back (nexts (.ofGraph g) node) := by
  cases hfits with
  | step hstep =>
    have hnext := hp.targets_next (.step hstep) (nextPort?_step hstep)
    rw [nexts_step _ hstep]
    cases hout : node.kind.outcomePorts? with
    | none =>
      rw [hout] at hnext
      exact hnext ▸ begins_toList
    | some ports =>
      rw [hout] at hnext
      simp only [hp.targets_failure hstep hout, List.isEmpty_nil, if_true]
      exact hnext ▸ begins_toList
  | loop hk =>
    have hexit : node.nextPort? = some ("exit" : Text) := by simp only [Node.nextPort?, hk]
    have hnext := hp.targets_next (.loop hk) hexit
    simp only [nexts, hk]
    exact hnext ▸ begins_toList
  | _ => exact Or.inl ⟨by simp [nexts, *], rfl⟩

theorem Placed.limbs_arms (hk : node.kind ≠ .parallel) (stop : List Text) :
    (limbs (.ofGraph g) stop node).map (·.starts) =
      arms.map fun arm => (arm.first.or (node.inside back)).toList := by
  rw [← hp.targets_arms hfits]
  cases hfits with
  | step hstep =>
    rw [limbs_step _ _ hstep, armPorts_step hstep]
    cases hout : node.kind.outcomePorts? with
    | none => rfl
    | some ports => simp [hp.targets_failure hstep hout]
  | router hkind _ => simp [limbs, Node.armPorts, hkind, Function.comp_def]
  | parallel hkind _ _ _ => exact absurd hkind hk
  | _ => simp [limbs, Node.armPorts, *]

end Ports

theorem limbs_stop {facts : Facts} {stop : List Text} {node : Node} {s : Strand}
    (hs : s ∈ limbs facts stop node) :
    s.stop = if node.kind = .loop then node.id :: stop else stop := by
  cases hc : node.kind.isContainer with
  | false =>
    have hk : node.kind ≠ .loop := by
      intro hk
      simp [hk, NodeKind.isContainer] at hc
    rw [limbs_step _ _ hc] at hs
    rw [if_neg hk]
    split at hs
    · exact absurd hs List.not_mem_nil
    · split at hs
      · exact absurd hs List.not_mem_nil
      · rcases List.mem_pair.mp hs with rfl | rfl <;> rfl
  | true =>
    cases hk : node.kind <;> simp only [hk, NodeKind.isContainer, Bool.false_eq_true] at hc
    all_goals simp only [limbs, hk, List.mem_cons, List.mem_map, List.not_mem_nil, or_false] at hs
    case conditional => rcases hs with rfl | rfl <;> rfl
    case router => obtain ⟨_, _, rfl⟩ := hs; rfl
    case parallel => obtain ⟨_, _, rfl⟩ := hs; rfl
    all_goals exact hs ▸ rfl

section Members
variable {node : Node} {arms : List Plan} {rest : Plan}

theorem Fits.members (h : Fits node arms rest) (hk : node.kind = .parallel) :
    ∀ arm ∈ arms, arm ≠ .done := by
  cases h with
  | parallel _ _ hdone _ => exact hdone
  | step hstep => simp [hk, NodeKind.isContainer] at hstep
  | _ => simp_all

theorem Fits.pairwise_legs (h : Fits node arms rest) (hk : node.kind = .parallel) :
    (legs node arms).Pairwise fun a b =>
      ∃ i j, i < j ∧ a.1 = Node.memberPort i ∧ b.1 = Node.memberPort j := by
  have hports : (legs node arms).map (·.1) = (List.range arms.length).map Node.memberPort := by
    rw [h.legs_map_fst]
    simp only [Node.armPorts, hk]
  have hpairs : ((List.range arms.length).map Node.memberPort).Pairwise fun a b =>
      ∃ i j, i < j ∧ a = Node.memberPort i ∧ b = Node.memberPort j :=
    List.pairwise_map.mpr (List.pairwise_lt_range.imp fun hlt => ⟨_, _, hlt, rfl, rfl⟩)
  rw [← hports, List.pairwise_map] at hpairs
  exact hpairs

end Members

section Parallel
variable {g : Graph} {back : Option Text} {node : Node} {arms : List Plan} {rest : Plan}
  (hfits : Fits node arms rest) (hp : Placed g back (run node arms rest))
  (hk : node.kind = .parallel)
include hfits hp hk

theorem Placed.exists_memberEdge {leg : Text × Plan} (hleg : leg ∈ legs node arms) :
    ∃ e ∈ g.edges, e.source = node.id ∧ g.portOf? e = some leg.1 ∧
      leg.2.first = some e.target := by
  obtain ⟨s, hs⟩ : ∃ s, leg.2.first = some s := by
    cases hpart : leg.2 with
    | done => exact absurd hpart (hfits.members hk _ (mem_arms_of_leg hleg))
    | run n _ _ => exact ⟨n.id, rfl⟩
  have hor : leg.2.first.or (node.inside back) = some s := by rw [hs, Option.some_or]
  have hw : ⟨node.id, leg.1, s⟩ ∈ leaving node arms rest back :=
    mem_leaving.mpr ⟨rfl, Or.inl ⟨leg.2, hleg, hor⟩⟩
  obtain ⟨e, he, hsource, hport, ht⟩ :=
    Graph.mem_wires.mp (hp.wired _ (mem_wires_run.mpr (Or.inl hw)))
  exact ⟨e, he, hsource, hport, by rw [hs, ht]⟩

theorem Placed.leg_of_edge (hg : g.Sound) {e : Edge} (he : e ∈ g.edges) (hs : e.source = node.id) :
    ∃ leg ∈ legs node arms, g.portOf? e = some leg.1 ∧ leg.2.first = some e.target := by
  obtain ⟨port, hport, hw⟩ := wire_of_edge hg he
  rcases (mem_leaving.mp (hp.leaving_of_source hw hs)).2 with ⟨arm, hleg, hor⟩ | ⟨hnext, _⟩
  · rcases first_or hor with ht | ⟨hdone, _⟩
    · exact ⟨_, hleg, hport, ht⟩
    · exact absurd hdone (hfits.members hk arm (mem_arms_of_leg hleg))
  · simp [Node.nextPort?, hk] at hnext

/-- The edges into the members of a parallel container come in the order of the members. -/
theorem Placed.sorted_members {input : Node} {plan : Plan} (h : Encodes g input plan) :
    ((sortEdges g.edges).filter (·.source == node.id)).map (some ·.target) = arms.map first := by
  have hinhabited : Nonempty Edge := ⟨⟨[], [], [], none, none⟩⟩
  have hexists := fun leg (hleg : leg ∈ legs node arms) => hp.exists_memberEdge hfits hk hleg
  choose! edge hedge hsource hport htarget using hexists
  have horder := hfits.pairwise_legs hk
  have hsorted : ((legs node arms).map edge).Pairwise fun a b => Text.le a.id b.id := by
    refine List.pairwise_map.mpr (horder.imp_of_mem ?_)
    rintro a b ha hb ⟨i, j, hlt, hi, hj⟩
    refine h.ordered _ (hedge a ha) _ (hedge b hb) ?_ i j hlt ?_ ?_
    · rw [hsource a ha, hsource b hb]
    · rw [hport a ha, hi]
    · rw [hport b hb, hj]
  have hnodup : ((legs node arms).map edge).Nodup := by
    refine List.pairwise_map.mpr (horder.imp_of_mem ?_)
    rintro a b ha hb ⟨i, j, hlt, hi, hj⟩ heq
    have hports : some (Node.memberPort i) = some (Node.memberPort j) := by
      rw [← hi, ← hj, ← hport a ha, ← hport b hb, heq]
    have := memberPort_injective (Option.some.inj hports)
    omega
  have hmem : ∀ e, e ∈ (sortEdges g.edges).filter (·.source == node.id) ↔
      e ∈ (legs node arms).map edge := by
    intro e
    rw [List.mem_filter, sortEdges, (List.mergeSort_perm _ _).mem_iff, beq_iff_eq, List.mem_map]
    constructor
    · rintro ⟨he, hs⟩
      obtain ⟨leg, hleg, hpe, ht⟩ := hp.leg_of_edge hfits hk h.sound he hs
      have htargets := Option.some.inj ((htarget leg hleg).symm.trans ht)
      refine ⟨leg, hleg, h.edge_unique (hedge leg hleg) he ?_⟩
      simp only [Graph.wire?, hport leg hleg, hpe, hsource leg hleg, hs, htargets]
    · rintro ⟨leg, hleg, rfl⟩
      exact ⟨hedge leg hleg, hsource leg hleg⟩
  have hedges : (sortEdges g.edges).filter (·.source == node.id) = (legs node arms).map edge := by
    refine List.Perm.eq_of_pairwise ?_ ((pairwise_sortEdges _).filter _) hsorted
      ((List.perm_ext_iff_of_nodup ?_ hnodup).mpr hmem)
    · intro a b ha hb hab hba
      obtain ⟨leg, hleg, rfl⟩ := List.mem_map.mp hb
      obtain ⟨leg', hleg', rfl⟩ := List.mem_map.mp ((hmem a).mp ha)
      exact List.inj_on_of_nodup_map h.edge_ids (hedge _ hleg') (hedge _ hleg)
        (Text.le_antisymm hab hba)
    · refine List.Nodup.filter _ ?_
      exact (List.mergeSort_perm _ _).nodup_iff.mpr (List.Nodup.of_map _ h.edge_ids)
  rw [hedges, List.map_map, ← hfits.legs_map_snd, List.map_map]
  rw [hfits.legs_map_snd]
  exact List.map_congr_left fun leg hleg => (htarget leg hleg).symm

theorem Placed.allTargets_members {input : Node} {plan : Plan} (h : Encodes g input plan) :
    ((Facts.ofGraph g).allTargets node.id).map some = arms.map first := by
  have hmembers := hp.sorted_members hfits hk h
  have hfirsts : (arms.map first).Nodup := by
    refine List.pairwise_map.mpr ((parts_disjoint hp.nodup).2.2.2.imp_of_mem ?_)
    intro a b ha _ hdisjoint heq
    cases a with
    | done => exact hfits.members hk _ ha rfl
    | run n _ _ => exact hdisjoint (first_mem rfl) (first_mem heq.symm)
  have hnodup : (((sortEdges g.edges).filter (·.source == node.id)).map (·.target)).Nodup := by
    rw [← hmembers, ← Function.comp_def some, ← List.map_map] at hfirsts
    exact hfirsts.of_map some
  have hall : (Facts.ofGraph g).allTargets node.id =
      ((sortEdges g.edges).filter (·.source == node.id)).map (·.target) := by
    rw [← eraseDups_of_nodup hnodup]
    simp [Facts.allTargets, Facts.ofGraph, List.filter_map, Function.comp_def]
  rw [hall, List.map_map, ← hmembers]
  rfl

theorem Placed.limbs_members {input : Node} {plan : Plan} (h : Encodes g input plan)
    (stop : List Text) : (limbs (.ofGraph g) stop node).map (·.starts) =
      arms.map fun arm => (arm.first.or (node.inside back)).toList := by
  have hfirst : ∀ arm ∈ arms, arm.first.or (node.inside back) = arm.first := by
    intro arm harm
    cases arm with
    | done => exact absurd rfl (hfits.members hk _ harm)
    | run n _ _ => rfl
  calc (limbs (.ofGraph g) stop node).map (·.starts)
    _ = ((Facts.ofGraph g).allTargets node.id).map fun start => [start] := by
      simp [limbs, hk, Function.comp_def]
    _ = (arms.map first).map Option.toList := by
      rw [← hp.allTargets_members hfits hk h, List.map_map]
      rfl
    _ = arms.map fun arm => (arm.first.or (node.inside back)).toList := by
      rw [List.map_map]
      exact List.map_congr_left fun arm harm => by rw [hfirst arm harm]; rfl

end Parallel

theorem Placed.limbs_starts {g : Graph} {back : Option Text} {node : Node} {arms : List Plan}
    {rest : Plan} (hfits : Fits node arms rest) (hp : Placed g back (run node arms rest))
    {input : Node} {plan : Plan} (h : Encodes g input plan) (stop : List Text) :
    (limbs (.ofGraph g) stop node).map (·.starts) =
      arms.map fun arm => (arm.first.or (node.inside back)).toList := by
  by_cases hk : node.kind = .parallel
  · exact hp.limbs_members hfits hk h stop
  · exact hp.limbs_arms hfits hk stop

end WorkflowCompiler.Plan
