import Mathlib
import WorkflowCompiler.Proofs.Plan.Placed
import WorkflowCompiler.Proofs.Resolution.Total
import WorkflowCompiler.Proofs.Validation.Snares

/-! # Loops of plans

The body of a loop in a graph is what the plan has in its arm. So the cycles of a placed plan are
legal: those through the first node belong to its loop, and the others lie in a single arm or in
what comes next.
-/
namespace WorkflowCompiler.Plan
open Relation Validation

variable {g : Graph} (hg : g.Sound)

section Wires
include hg

theorem wire_of_edge {e : Edge} (he : e ∈ g.edges) :
    ∃ port, g.portOf? e = some port ∧ ⟨e.source, port, e.target⟩ ∈ g.wires := by
  obtain ⟨source, port, hsource, hport, _⟩ := hg.leaves e he
  have hport : g.portOf? e = some port := by rw [Graph.portOf?_eq hsource, hport]
  exact ⟨port, hport, Graph.mem_wires.mpr ⟨e, he, rfl, hport, rfl⟩⟩

theorem wire_of_leads {a b : Text} (h : Graph.Leads g.edges a b) :
    ∃ port, ⟨a, port, b⟩ ∈ g.wires := by
  obtain ⟨e, he, rfl, rfl⟩ := h
  obtain ⟨port, _, hw⟩ := wire_of_edge hg he
  exact ⟨port, hw⟩

end Wires

section Body
variable {back : Option Text} {node : Node} {body rest : Plan}
  (hk : node.kind = .loop) (hs : body.Structured) (hp : Placed g back (run node [body] rest))
include hk hp

theorem Placed.loopArm : Placed g (some node.id) body := by
  have hinside : node.inside back = some node.id := if_pos hk
  exact hinside ▸ hp.arm (.loop hk) (List.mem_singleton_self body)

theorem Placed.portOf?_loop {e : Edge} (he : e.source = node.id) {port : Text} (hport : port ≠ []) :
    g.portOf? e = some port ↔ e.sourcePort = some port := by
  rw [Graph.portOf?_eq (he ▸ hp.node?), hk]
  exact NodeKind.effectivePort?_loop hport

theorem Placed.wire_loop {port target : Text} (hw : ⟨node.id, port, target⟩ ∈ g.wires) :
    port = "loop" ∧ body.first.or (some node.id) = some target ∨
      port = "exit" ∧ rest.first.or back = some target := by
  have hinside : node.inside back = some node.id := if_pos hk
  obtain ⟨_, ⟨arm, hleg, hfirst⟩ | ⟨hnext, hfirst⟩⟩ :=
    mem_leaving.mp (hp.leaving_of_source hw rfl)
  · simp only [legs, Node.armPorts, hk, List.zip_cons_cons, List.zip_nil_left, List.mem_singleton,
      Prod.mk.injEq] at hleg
    obtain ⟨rfl, rfl⟩ := hleg
    exact Or.inl ⟨rfl, hinside ▸ hfirst⟩
  · simp only [Node.nextPort?, hk, Option.some.injEq] at hnext
    exact Or.inr ⟨hnext.symm, hfirst⟩

include hg in
theorem Placed.leads_in_body {a b : Text} (ha : a ∈ body.ids) (hl : Graph.Leads g.edges a b) :
    b ∈ body.ids ∨ b = node.id := by
  obtain ⟨port, hw⟩ := wire_of_leads hg hl
  have hwire := (hp.loopArm hk).leaves _ hw ha
  exact (target_mem hwire).imp_right fun h => (Option.some.inj h).symm

omit hk in
include hg in
theorem Placed.leads_into_body {a b : Text} (hb : b ∈ body.ids) (hl : Graph.Leads g.edges a b) :
    a ∈ body.ids ∨ a = node.id := by
  obtain ⟨port, hw⟩ := wire_of_leads hg hl
  by_cases ha : a ∈ body.ids
  · exact Or.inl ha
  · exact Or.inr (hp.enters_arm (List.mem_singleton_self body) hw hb ha).1

include hg hs in
theorem Placed.mem_loopBody {x : Text} : x ∈ Graph.loopBody g.edges node.id ↔ x ∈ body.ids := by
  have hhead : node.id ∉ body.ids := (hp.loopArm hk).outside _ rfl
  rw [Graph.loopBody, Graph.mem_reachableFromPort]
  constructor
  · rintro ⟨e, he, hsource, hport, hne, hpath⟩
    have hport := (hp.portOf?_loop hk hsource (by decide)).mpr hport
    have hw : ⟨node.id, "loop", e.target⟩ ∈ g.wires :=
      Graph.mem_wires.mpr ⟨e, he, hsource, hport, rfl⟩
    have hstart : e.target ∈ body.ids := by
      rcases hp.wire_loop hk hw with ⟨_, hfirst⟩ | ⟨hexit, _⟩
      · rcases first_or hfirst with hfirst | ⟨_, hback⟩
        · exact first_mem hfirst
        · exact absurd (Option.some.inj hback).symm hne
      · exact absurd hexit (by decide)
    induction hpath with
    | refl => exact hstart
    | tail _ hl ih => exact (hp.leads_in_body hg hk ih hl.1).resolve_right hl.2
  · intro hx
    obtain ⟨s, hfirst⟩ := exists_first hx
    have hw : ⟨node.id, "loop", s⟩ ∈ g.wires := by
      refine hp.wired _ (mem_wires_run.mpr (Or.inl (mem_leaving.mpr ⟨rfl, Or.inl ⟨body, ?_, ?_⟩⟩)))
      · simp [legs, Node.armPorts, hk]
      · rw [hfirst, Option.some_or]
    obtain ⟨e, he, hsource, hport, rfl⟩ := Graph.mem_wires.mp hw
    have hne : ∀ y ∈ body.ids, y ≠ node.id := by
      rintro y hy rfl
      exact hhead hy
    refine ⟨e, he, hsource, (hp.portOf?_loop hk hsource (by decide)).mp hport,
      hne _ (first_mem hfirst), ?_⟩
    exact ReflTransGen.mono (fun _ b h => ⟨h.1, hne b h.2⟩) _ _ ((hp.loopArm hk).reaches hs hfirst hx)

include hg hs in
theorem Placed.owns {members : List Text} (hsub : ∀ m ∈ members, m = node.id ∨ m ∈ body.ids) :
    owns g.edges node.id members = true := by
  have hbody : ∀ {x}, x ∈ Graph.loopBody g.edges node.id ↔ x ∈ body.ids :=
    hp.mem_loopBody hg hk hs
  obtain ⟨_, _, hrest, _⟩ := parts_disjoint hp.nodup
  refine owns_iff.mpr ⟨fun m hm => (hsub m hm).imp_right hbody.mpr, ?_, ?_⟩
  · intro e he ht hne
    have htarget := (hsub _ ht).resolve_left hne
    exact (hp.leads_into_body hg htarget ⟨e, he, rfl, rfl⟩).imp_left hbody.mpr
  · intro x hx
    rw [hbody]
    obtain ⟨e, he, hsource, hport, hne, hpath⟩ := Graph.mem_reachableFromPort.mp hx
    have hport := (hp.portOf?_loop hk hsource (by decide)).mpr hport
    have hw : ⟨node.id, "exit", e.target⟩ ∈ g.wires :=
      Graph.mem_wires.mpr ⟨e, he, hsource, hport, rfl⟩
    have hstart : e.target ∉ body.ids := by
      intro hin
      rcases hp.wire_loop hk hw with ⟨hloop, _⟩ | ⟨_, hfirst⟩
      · exact absurd hloop (by decide)
      · rcases first_or hfirst with hfirst | ⟨_, hback⟩
        · exact hrest body (List.mem_singleton_self _) _ hin (first_mem hfirst)
        · exact hp.outside _ hback (mem_ids_run.mpr (Or.inr (Or.inl ⟨body, by simp, hin⟩)))
    -- nothing outside the body leads into it but the head, which is not passed
    have hstay : x ∉ body.ids ∧ x ≠ node.id := by
      clear hx
      induction hpath with
      | refl => exact ⟨hstart, hne⟩
      | tail _ hl ih =>
        refine ⟨fun hin => ?_, hl.2⟩
        rcases hp.leads_into_body hg hin hl.1 with ha | ha
        · exact ih.1 ha
        · exact ih.2 ha
    exact hstay.1

end Body

section Cycles
variable {back : Option Text}

include hg in
/-- A cycle that leaves out the first node of a plan lies in one of its parts. -/
theorem Placed.knot_in_part {node : Node} {arms : List Plan} {rest : Plan}
    (hp : Placed g back (run node arms rest)) {K : Set Text} (hK : Graph.Knot g.edges K)
    (hsub : ∀ x ∈ K, x ∈ (run node arms rest).ids) (hnode : node.id ∉ K) :
    (∃ arm ∈ arms, ∀ x ∈ K, x ∈ arm.ids) ∨ ∀ x ∈ K, x ∈ rest.ids := by
  obtain ⟨hnodeArm, hnodeRest, hrest, _⟩ := parts_disjoint hp.nodup
  have hne : ∀ y ∈ K, y ≠ node.id := by
    rintro y hy rfl
    exact hnode hy
  obtain ⟨a, ha⟩ := hK.nonempty
  rcases mem_ids_run.mp (hsub a ha) with rfl | ⟨arm, harm, haArm⟩ | haRest
  · exact absurd ha hnode
  · refine Or.inl ⟨arm, harm, hK.subset_of_closed (S := {x | x ∈ arm.ids}) ?_ ha haArm⟩
    intro x hx y hy hl
    obtain ⟨port, hw⟩ := wire_of_leads hg hl
    rcases hp.wire_cases hw (hsub y hy) (hne y hy) with ⟨heq, _⟩ | ⟨heq, _⟩ |
      ⟨other, hother, hxo, hyo⟩ | ⟨hxr, _⟩
    · exact absurd (heq ▸ hx) (hnodeArm arm harm)
    · exact absurd (heq ▸ hx) (hnodeArm arm harm)
    · obtain rfl := arm_unique hp.nodup harm hother hx hxo
      exact hyo
    · exact absurd hxr (hrest arm harm x hx)
  · refine Or.inr (hK.subset_of_closed (S := {x | x ∈ rest.ids}) ?_ ha haRest)
    intro x hx y hy hl
    obtain ⟨port, hw⟩ := wire_of_leads hg hl
    rcases hp.wire_cases hw (hsub y hy) (hne y hy) with ⟨heq, _⟩ | ⟨heq, _⟩ |
      ⟨other, hother, hxo, _⟩ | ⟨_, hyr⟩
    · exact absurd (heq ▸ hx) hnodeRest
    · exact absurd (heq ▸ hx) hnodeRest
    · exact absurd hx (hrest other hother x hxo)
    · exact hyr

include hg in
theorem Placed.knot_at_node {node : Node} {arms : List Plan} {rest : Plan}
    (hp : Placed g back (run node arms rest)) {K : Set Text} (hK : Graph.Knot g.edges K)
    (hsub : ∀ x ∈ K, x ∈ (run node arms rest).ids) (hnode : node.id ∈ K) :
    node.kind = .loop ∧ ∀ x ∈ K, x = node.id ∨ ∃ arm ∈ arms, x ∈ arm.ids := by
  obtain ⟨hnodeArm, hnodeRest, hrest, _⟩ := parts_disjoint hp.nodup
  obtain ⟨u, _, hl, hu, _⟩ := TransGen.tail'_iff.mp (hK.tied _ hnode _ hnode)
  obtain ⟨port, hw⟩ := wire_of_leads hg hl
  refine ⟨(hp.wire_to_node hw rfl (hsub u hu)).1, fun x hx => ?_⟩
  rcases mem_ids_run.mp (hsub x hx) with hx | hx | hxRest
  · exact Or.inl hx
  · exact Or.inr hx
  · -- from what comes next nothing leads back to the node
    refine absurd (hK.subset_of_closed (S := {x | x ∈ rest.ids}) ?_ hx hxRest _ hnode) hnodeRest
    intro a ha b hb hl
    obtain ⟨port, hw⟩ := wire_of_leads hg hl
    have haRun : a ∈ (run node arms rest).ids := mem_ids_run.mpr (Or.inr (Or.inr ha))
    by_cases hbn : b = node.id
    · rcases (hp.wire_to_node hw hbn haRun).2 with heq | ⟨arm, harm, haArm⟩
      · exact absurd (heq ▸ ha) hnodeRest
      · exact absurd ha (hrest arm harm a haArm)
    · rcases hp.wire_cases hw (hsub b hb) hbn with ⟨heq, _⟩ | ⟨heq, _⟩ | ⟨arm, harm, haArm, _⟩ |
        ⟨_, hbRest⟩
      · exact absurd (heq ▸ ha) hnodeRest
      · exact absurd (heq ▸ ha) hnodeRest
      · exact absurd ha (hrest arm harm a haArm)
      · exact hbRest

include hg in
theorem Placed.isLegal {plan : Plan} (hs : plan.Structured) (hp : Placed g back plan)
    {members : List Text} (hK : Graph.Knot g.edges {m | m ∈ members})
    (hsub : ∀ m ∈ members, m ∈ plan.ids) {fuel : Nat} (hfuel : members.toFinset.card < fuel) :
    isLegal g g.edges fuel members = true := by
  induction hs generalizing back members fuel with
  | done =>
    obtain ⟨m, hm⟩ := hK.nonempty
    exact absurd (hsub m hm) List.not_mem_nil
  | @run node arms rest hfits harms hrest iharms ihrest =>
    by_cases hnode : node.id ∈ members
    · obtain ⟨hk, hround⟩ := hp.knot_at_node hg hK hsub hnode
      obtain ⟨body, rfl⟩ := hfits.eq_body hk
      have hbodyStructured := harms body (List.mem_singleton_self _)
      have hbody : ∀ m ∈ members, m = node.id ∨ m ∈ body.ids := by
        intro m hm
        simpa using hround m hm
      obtain ⟨fuel, rfl⟩ : ∃ less, fuel = less + 1 := ⟨fuel - 1, by omega⟩
      refine isLegal_succ_iff.mpr ⟨node.id, hnode, ?_, hp.owns hg hk hbodyStructured hbody, ?_⟩
      · simp [isLoop, hp.node?, hk]
      · intro c hc
        rw [or_iff_not_imp_left, Bool.not_eq_true]
        intro hnontrivial
        have hmembers : ∀ x ∈ c, x ∈ members ∧ x ≠ node.id := by
          intro x hx
          simpa using (nodes_restrict.mp (Graph.Successors.mem_nodes_of_component hc hx)).2
        have hinner : Graph.Knot g.edges {m | m ∈ c} :=
          Graph.Successors.knot_of_component
            (fun hl => (links_successors.mp (links_restrict.mp hl).2.2).2.2) hc hnontrivial
        refine iharms body (List.mem_singleton_self _) (hp.loopArm hk) hinner ?_ ?_
        · intro m hm
          exact (hbody m (hmembers m hm).1).resolve_left (hmembers m hm).2
        · have hless : c.toFinset.card < members.toFinset.card := by
            refine Finset.card_lt_card ⟨?_, ?_⟩
            · intro x hx
              exact List.mem_toFinset.mpr (hmembers x (List.mem_toFinset.mp hx)).1
            · intro hall
              have hin := hall (List.mem_toFinset.mpr hnode)
              exact (hmembers _ (List.mem_toFinset.mp hin)).2 rfl
          omega
    · rcases hp.knot_in_part hg hK hsub hnode with ⟨arm, harm, hin⟩ | hin
      · exact iharms arm harm (hp.arm hfits harm) hK hin hfuel
      · exact ihrest hp.next hK hin hfuel

end Cycles

section Entrances
variable {back : Option Text}

include hg in
/-- What leads forward to a node comes from outside the part that begins there. -/
theorem Placed.source_not_mem {node : Node} {arms : List Plan} {rest : Plan}
    (hs : (run node arms rest).Structured) (hp : Placed g back (run node arms rest)) {e : Edge}
    (he : e ∈ g.forwardEdges) (ht : e.target = node.id) :
    e.source ∉ (run node arms rest).ids := by
  intro hsource
  have hedge : e ∈ g.edges := (List.mem_filter.mp he).1
  obtain ⟨port, _, hw⟩ := wire_of_edge hg hedge
  obtain ⟨hk, hfrom⟩ := hp.wire_to_node hw ht hsource
  cases hs with
  | run hfits harms _ =>
    obtain ⟨body, rfl⟩ := hfits.eq_body hk
    have hbody := harms body (List.mem_singleton_self _)
    have hcomes : e.source ∈ Graph.loopBody g.edges node.id ∨ e.source = node.id := by
      rcases hfrom with heq | ⟨arm, harm, hin⟩
      · exact Or.inr heq
      · rw [List.mem_singleton.mp harm] at hin
        exact Or.inl ((hp.mem_loopBody hg hk hbody).mpr hin)
    have hback : e ∈ g.backEdges := by
      refine List.mem_flatMap.mpr ⟨node, List.mem_filter.mpr ⟨?_, by simpa using hk⟩, ?_⟩
      · exact (Graph.node?_eq_some hp.node?).1
      · refine List.mem_filter.mpr ⟨List.mem_filter.mpr ⟨hedge, by simpa using ht⟩, ?_⟩
        simpa using hcomes
    have hnot := (List.mem_filter.mp he).2
    rw [Bool.and_eq_true, Bool.not_eq_true', List.contains_eq_mem, decide_eq_false_iff_not] at hnot
    exact hnot.1 (List.mem_map_of_mem hback)

include hg in
theorem isLoop_of_mem_loopBody {x head : Text} (h : x ∈ Graph.loopBody g.edges head) :
    ∃ node, g.node? head = some node ∧ node.kind = .loop := by
  obtain ⟨e, he, rfl, hport, _⟩ := Graph.mem_reachableFromPort.mp h
  obtain ⟨source, port, hsource, heffective, hmem⟩ := hg.leaves e he
  rw [hport] at heffective
  exact ⟨source, hsource, Resolution.kind_of_loop_port (Or.inl (Option.some.inj heffective).symm) hmem⟩

end Entrances

end WorkflowCompiler.Plan
