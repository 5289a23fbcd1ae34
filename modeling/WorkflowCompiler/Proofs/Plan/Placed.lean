import Mathlib
import WorkflowCompiler.Proofs.Plan.Basic

/-! # Plans in a graph

A part of a plan is placed in a graph when its nodes have exactly the wires of the part, and nothing
from outside leads into it but one wire to its first node. The parts of a placed plan are placed, so
what the graph does at a node can be read off from the part that begins there.
-/
namespace WorkflowCompiler.Plan

structure Placed (g : Graph) (back : Option Text) (plan : Plan) : Prop where
  nodes : ∀ n ∈ plan.nodes, g.node? n.id = some n
  nodup : plan.ids.Nodup
  outside : ∀ head, back = some head → head ∉ plan.ids
  leaves : ∀ w ∈ g.wires, w.source ∈ plan.ids → w ∈ plan.wires back
  wired : ∀ w ∈ plan.wires back, w ∈ g.wires
  enters : ∀ w ∈ g.wires, w.target ∈ plan.ids → w.source ∉ plan.ids → plan.first = some w.target
  once : ∀ w ∈ g.wires, ∀ w' ∈ g.wires, w.target ∈ plan.ids → w'.target ∈ plan.ids →
    w.source ∉ plan.ids → w'.source ∉ plan.ids → w = w'

section Parts
variable {g : Graph} {back : Option Text} {node : Node} {arms : List Plan} {rest : Plan}

theorem arm_unique (h : (run node arms rest).ids.Nodup) {a b : Plan} (ha : a ∈ arms) (hb : b ∈ arms)
    {x : Text} (hxa : x ∈ a.ids) (hxb : x ∈ b.ids) : a = b := by
  have hsymm : Std.Symm fun a b : Plan => a.ids.Disjoint b.ids := ⟨fun _ _ h => h.symm⟩
  by_contra hne
  exact (parts_disjoint h).2.2.2.forall ha hb hne hxa hxb

theorem leg_unique (hfits : Fits node arms rest) (h : (run node arms rest).ids.Nodup)
    {leg leg' : Text × Plan} (hleg : leg ∈ legs node arms) (hleg' : leg' ∈ legs node arms) {x : Text}
    (hx : x ∈ leg.2.ids) (hx' : x ∈ leg'.2.ids) : leg = leg' := by
  have hpairs : (legs node arms).Pairwise fun a b => a.2.ids.Disjoint b.2.ids := by
    have hapart := (parts_disjoint h).2.2.2
    rw [← hfits.legs_map_snd, List.pairwise_map] at hapart
    exact hapart
  have hsymm : Std.Symm fun a b : Text × Plan => a.2.ids.Disjoint b.2.ids := ⟨fun _ _ h => h.symm⟩
  by_contra hne
  exact hpairs.forall hleg hleg' hne hx hx'

variable (hp : Placed g back (run node arms rest))
include hp

theorem Placed.node? : g.node? node.id = some node :=
  hp.nodes node (by rw [nodes_run]; exact List.mem_cons_self)

theorem Placed.inside_eq {head : Text} (hhead : node.inside back = some head) :
    node.kind = .loop ∧ head = node.id ∨ head ∉ (run node arms rest).ids := by
  unfold Node.inside at hhead
  split at hhead
  next hk =>
    cases hhead
    exact Or.inl ⟨hk, rfl⟩
  · exact Or.inr (hp.outside head hhead)

/-- A wire behind the first node begins an arm or what comes next, or it stays in one of them. -/
theorem Placed.wire_cases {w : Wire} (hw : w ∈ g.wires) (ht : w.target ∈ (run node arms rest).ids)
    (hne : w.target ≠ node.id) :
    (w.source = node.id ∧ ∃ arm, (w.port, arm) ∈ legs node arms ∧ arm.first = some w.target) ∨
    (w.source = node.id ∧ node.nextPort? = some w.port ∧ rest.first = some w.target) ∨
    (∃ arm ∈ arms, w.source ∈ arm.ids ∧ w.target ∈ arm.ids) ∨
    (w.source ∈ rest.ids ∧ w.target ∈ rest.ids) := by
  have hsource : w.source ∈ (run node arms rest).ids := by
    by_contra hout
    exact hne (Option.some.inj (hp.enters w hw ht hout)).symm
  have hback : back ≠ some w.target := fun hhead => hp.outside _ hhead ht
  have hinside : node.inside back ≠ some w.target := by
    intro hhead
    rcases hp.inside_eq hhead with ⟨_, hhead⟩ | hout
    · exact hne hhead
    · exact hout ht
  rcases mem_wires_run.mp (hp.leaves w hw hsource) with hl | ⟨arm, harm, hl⟩ | hl
  · obtain ⟨hs, ⟨arm, hleg, hfirst⟩ | ⟨hnext, hfirst⟩⟩ := mem_leaving.mp hl
    · have hfirst := (first_or hfirst).resolve_right fun h => hinside h.2
      exact Or.inl ⟨hs, arm, hleg, hfirst⟩
    · have hfirst := (first_or hfirst).resolve_right fun h => hback h.2
      exact Or.inr (Or.inl ⟨hs, hnext, hfirst⟩)
  · have htarget := (target_mem hl).resolve_right hinside
    exact Or.inr (Or.inr (Or.inl ⟨arm, harm, source_mem hl, htarget⟩))
  · have htarget := (target_mem hl).resolve_right hback
    exact Or.inr (Or.inr (Or.inr ⟨source_mem hl, htarget⟩))

/-- A wire to the first node from inside comes from the body of a loop, or from the loop itself. -/
theorem Placed.wire_to_node {w : Wire} (hw : w ∈ g.wires) (ht : w.target = node.id)
    (hs : w.source ∈ (run node arms rest).ids) :
    node.kind = .loop ∧ (w.source = node.id ∨ ∃ arm ∈ arms, w.source ∈ arm.ids) := by
  obtain ⟨hnode, hnodeRest, _, _⟩ := parts_disjoint hp.nodup
  have hmem : node.id ∈ (run node arms rest).ids := mem_ids_run.mpr (Or.inl rfl)
  have hback : back ≠ some w.target := fun hhead => hp.outside _ hhead (ht ▸ hmem)
  have hinside : node.inside back = some w.target → node.kind = .loop := by
    intro hhead
    rcases hp.inside_eq hhead with ⟨hk, _⟩ | hout
    · exact hk
    · exact absurd (ht ▸ hmem) hout
  rcases mem_wires_run.mp (hp.leaves w hw hs) with hl | ⟨arm, harm, hl⟩ | hl
  · obtain ⟨hs, ⟨arm, hleg, hfirst⟩ | ⟨hnext, hfirst⟩⟩ := mem_leaving.mp hl
    · rcases first_or hfirst with hfirst | ⟨_, hhead⟩
      · exact absurd (ht ▸ first_mem hfirst) (hnode arm (mem_arms_of_leg hleg))
      · exact ⟨hinside hhead, Or.inl hs⟩
    · rcases first_or hfirst with hfirst | ⟨_, hhead⟩
      · exact absurd (ht ▸ first_mem hfirst) hnodeRest
      · exact absurd hhead hback
  · rcases target_mem hl with htarget | hhead
    · exact absurd (ht ▸ htarget) (hnode arm harm)
    · exact ⟨hinside hhead, Or.inr ⟨arm, harm, source_mem hl⟩⟩
  · rcases target_mem hl with htarget | hhead
    · exact absurd (ht ▸ htarget) hnodeRest
    · exact absurd hhead hback

theorem Placed.enters_arm {arm : Plan} (harm : arm ∈ arms) {w : Wire} (hw : w ∈ g.wires)
    (ht : w.target ∈ arm.ids) (hs : w.source ∉ arm.ids) :
    w.source = node.id ∧ (w.port, arm) ∈ legs node arms ∧ arm.first = some w.target := by
  obtain ⟨hnode, _, hrest, _⟩ := parts_disjoint hp.nodup
  have hne : w.target ≠ node.id := fun heq => hnode arm harm (heq ▸ ht)
  rcases hp.wire_cases hw (mem_ids_run.mpr (Or.inr (Or.inl ⟨arm, harm, ht⟩))) hne with
    ⟨hsource, other, hleg, hfirst⟩ | ⟨_, _, hfirst⟩ | ⟨other, hother, hsource, htarget⟩ | ⟨_, htarget⟩
  · obtain rfl := arm_unique hp.nodup harm (mem_arms_of_leg hleg) ht (first_mem hfirst)
    exact ⟨hsource, hleg, hfirst⟩
  · exact absurd (first_mem hfirst) (hrest arm harm _ ht)
  · obtain rfl := arm_unique hp.nodup harm hother ht htarget
    exact absurd hsource hs
  · exact absurd htarget (hrest arm harm _ ht)

theorem Placed.enters_rest {w : Wire} (hw : w ∈ g.wires) (ht : w.target ∈ rest.ids)
    (hs : w.source ∉ rest.ids) :
    w.source = node.id ∧ node.nextPort? = some w.port ∧ rest.first = some w.target := by
  obtain ⟨_, hnode, hrest, _⟩ := parts_disjoint hp.nodup
  have hne : w.target ≠ node.id := fun heq => hnode (heq ▸ ht)
  rcases hp.wire_cases hw (mem_ids_run.mpr (Or.inr (Or.inr ht))) hne with
    ⟨_, other, hleg, hfirst⟩ | hnext | ⟨other, hother, _, htarget⟩ | ⟨hsource, _⟩
  · exact absurd ht (hrest other (mem_arms_of_leg hleg) _ (first_mem hfirst))
  · exact hnext
  · exact absurd ht (hrest other hother _ htarget)
  · exact absurd hsource hs

theorem Placed.arm (hfits : Fits node arms rest) {arm : Plan} (harm : arm ∈ arms) :
    Placed g (node.inside back) arm := by
  obtain ⟨hnode, _, hrest, _⟩ := parts_disjoint hp.nodup
  have hids : ∀ x ∈ arm.ids, x ∈ (run node arms rest).ids :=
    fun x hx => mem_ids_run.mpr (Or.inr (Or.inl ⟨arm, harm, hx⟩))
  refine ⟨?_, ?_, ?_, ?_, ?_, ?_, ?_⟩
  · intro n hn
    refine hp.nodes n ?_
    rw [nodes_run]
    exact List.mem_cons_of_mem _ (List.mem_append_left _ (List.mem_flatMap.mpr ⟨arm, harm, hn⟩))
  · exact (parts_nodup hp.nodup).1 arm harm
  · intro head hhead hmem
    rcases hp.inside_eq hhead with ⟨_, rfl⟩ | hout
    · exact hnode arm harm hmem
    · exact hout (hids _ hmem)
  · intro w hw hs
    rcases mem_wires_run.mp (hp.leaves w hw (hids _ hs)) with hl | ⟨other, hother, hl⟩ | hl
    · exact absurd ((mem_leaving.mp hl).1 ▸ hs) (hnode arm harm)
    · obtain rfl := arm_unique hp.nodup harm hother hs (source_mem hl)
      exact hl
    · exact absurd (source_mem hl) (hrest arm harm _ hs)
  · intro w hw
    exact hp.wired w (mem_wires_run.mpr (Or.inr (Or.inl ⟨arm, harm, hw⟩)))
  · intro w hw ht hs
    exact (hp.enters_arm harm hw ht hs).2.2
  · intro w hw w' hw' ht ht' hs hs'
    obtain ⟨hsource, hleg, hfirst⟩ := hp.enters_arm harm hw ht hs
    obtain ⟨hsource', hleg', hfirst'⟩ := hp.enters_arm harm hw' ht' hs'
    have hports := leg_unique hfits hp.nodup hleg hleg' ht ht
    have htargets := hfirst.symm.trans hfirst'
    obtain ⟨source, port, target⟩ := w
    obtain ⟨source', port', target'⟩ := w'
    simp_all

theorem Placed.next : Placed g back rest := by
  obtain ⟨_, hnode, hrest, _⟩ := parts_disjoint hp.nodup
  have hids : ∀ x ∈ rest.ids, x ∈ (run node arms rest).ids :=
    fun x hx => mem_ids_run.mpr (Or.inr (Or.inr hx))
  refine ⟨?_, (parts_nodup hp.nodup).2,
    fun head hhead hmem => hp.outside head hhead (hids _ hmem), ?_, ?_, ?_, ?_⟩
  · intro n hn
    refine hp.nodes n ?_
    rw [nodes_run]
    exact List.mem_cons_of_mem _ (List.mem_append_right _ hn)
  · intro w hw hs
    rcases mem_wires_run.mp (hp.leaves w hw (hids _ hs)) with hl | ⟨other, hother, hl⟩ | hl
    · exact absurd ((mem_leaving.mp hl).1 ▸ hs) hnode
    · exact absurd hs (hrest other hother _ (source_mem hl))
    · exact hl
  · intro w hw
    exact hp.wired w (mem_wires_run.mpr (Or.inr (Or.inr hw)))
  · intro w hw ht hs
    exact (hp.enters_rest hw ht hs).2.2
  · intro w hw w' hw' ht ht' hs hs'
    obtain ⟨hsource, hnext, hfirst⟩ := hp.enters_rest hw ht hs
    obtain ⟨hsource', hnext', hfirst'⟩ := hp.enters_rest hw' ht' hs'
    have hports := hnext.symm.trans hnext'
    have htargets := hfirst.symm.trans hfirst'
    obtain ⟨source, port, target⟩ := w
    obtain ⟨source', port', target'⟩ := w'
    simp_all

theorem Placed.leaving_of_source {w : Wire} (hw : w ∈ g.wires) (hs : w.source = node.id) :
    w ∈ leaving node arms rest back := by
  obtain ⟨hnode, hnodeRest, _, _⟩ := parts_disjoint hp.nodup
  have hmem : w.source ∈ (run node arms rest).ids := mem_ids_run.mpr (Or.inl hs)
  rcases mem_wires_run.mp (hp.leaves w hw hmem) with hl | ⟨arm, harm, hl⟩ | hl
  · exact hl
  · exact absurd (hs ▸ source_mem hl) (hnode arm harm)
  · exact absurd (hs ▸ source_mem hl) hnodeRest

end Parts

section Whole
variable {g : Graph} {back : Option Text} {plan : Plan}

theorem Placed.exists_part (hs : plan.Structured) (hp : Placed g back plan) {x : Text}
    (hx : x ∈ plan.ids) : ∃ back' node arms rest, node.id = x ∧
      Placed g back' (run node arms rest) ∧ (run node arms rest).Structured ∧
      ∀ y ∈ (run node arms rest).ids, y ∈ plan.ids := by
  induction hs generalizing back with
  | done => exact absurd hx List.not_mem_nil
  | @run node arms rest hfits harms hrest iharms ihrest =>
    rcases mem_ids_run.mp hx with rfl | ⟨arm, harm, hx⟩ | hx
    · exact ⟨back, node, arms, rest, rfl, hp, .run hfits harms hrest, fun y hy => hy⟩
    · obtain ⟨back', n, as, r, hid, hp', hs', hsub⟩ := iharms arm harm (hp.arm hfits harm) hx
      refine ⟨back', n, as, r, hid, hp', hs', fun y hy => ?_⟩
      exact mem_ids_run.mpr (Or.inr (Or.inl ⟨arm, harm, hsub y hy⟩))
    · obtain ⟨back', n, as, r, hid, hp', hs', hsub⟩ := ihrest hp.next hx
      refine ⟨back', n, as, r, hid, hp', hs', fun y hy => ?_⟩
      exact mem_ids_run.mpr (Or.inr (Or.inr (hsub y hy)))

theorem leads_of_wire {w : Wire} (hw : w ∈ g.wires) : Graph.Leads g.edges w.source w.target := by
  obtain ⟨e, he, hs, _, ht⟩ := Graph.mem_wires.mp hw
  exact ⟨e, he, hs, ht⟩

theorem Placed.reaches (hs : plan.Structured) (hp : Placed g back plan) {start x : Text}
    (hstart : plan.first = some start) (hx : x ∈ plan.ids) :
    Relation.ReflTransGen (fun a b => Graph.Leads g.edges a b ∧ b ∈ plan.ids) start x := by
  induction hs generalizing back start with
  | done => cases hstart
  | @run node arms rest hfits harms hrest iharms ihrest =>
    cases hstart
    -- a part is entered by a wire to its first node and passed from there
    have hpart : ∀ {part : Plan} {port s : Text}, part.first = some s →
        (∀ y ∈ part.ids, y ∈ (run node arms rest).ids) →
        ⟨node.id, port, s⟩ ∈ leaving node arms rest back →
        Relation.ReflTransGen (fun a b => Graph.Leads g.edges a b ∧ b ∈ part.ids) s x →
        Relation.ReflTransGen (fun a b => Graph.Leads g.edges a b ∧
          b ∈ (run node arms rest).ids) node.id x := by
      intro part port s hfirst hsub hw hpath
      have hwire := hp.wired _ (mem_wires_run.mpr (Or.inl hw))
      refine .head ⟨leads_of_wire hwire, hsub s (first_mem hfirst)⟩ ?_
      exact Relation.ReflTransGen.mono (fun _ _ h => ⟨h.1, hsub _ h.2⟩) _ _ hpath
    rcases mem_ids_run.mp hx with rfl | ⟨arm, harm, hx⟩ | hx
    · exact .refl
    · obtain ⟨s, hfirst⟩ := exists_first hx
      obtain ⟨port, hleg⟩ := hfits.exists_leg harm
      have hor : arm.first.or (node.inside back) = some s := by rw [hfirst, Option.some_or]
      refine hpart hfirst (fun y hy => mem_ids_run.mpr (Or.inr (Or.inl ⟨arm, harm, hy⟩)))
        (mem_leaving.mpr ⟨rfl, Or.inl ⟨arm, hleg, hor⟩⟩) ?_
      exact iharms arm harm (hp.arm hfits harm) hfirst hx
    · obtain ⟨s, hfirst⟩ := exists_first hx
      obtain ⟨port, hnext⟩ : ∃ port, node.nextPort? = some port := by
        refine Option.ne_none_iff_exists'.mp fun hnone => ?_
        rw [hfits.rest_eq_done hnone] at hfirst
        cases hfirst
      have hor : rest.first.or back = some s := by rw [hfirst, Option.some_or]
      refine hpart hfirst (fun y hy => mem_ids_run.mpr (Or.inr (Or.inr hy)))
        (mem_leaving.mpr ⟨rfl, Or.inr ⟨hnext, hor⟩⟩) ?_
      exact ihrest hp.next hfirst hx

end Whole

end WorkflowCompiler.Plan
