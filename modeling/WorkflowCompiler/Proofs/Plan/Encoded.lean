import Mathlib
import WorkflowCompiler.Proofs.Plan.Loops

/-! # Graphs of plans

The graph of a plan is sound, the plan is placed in it, and all its cycles are legal. So it is
accepted, whatever branches end in it. No merge points arise, and no snares.
-/
namespace WorkflowCompiler

namespace Plan
variable {node : Node} {arms : List Plan} {rest : Plan}

theorem Fits.port_mem (h : Fits node arms rest) (hk : node.kind ≠ .output) {port : Text}
    (hport : port ∈ node.armPorts arms.length ∨ node.nextPort? = some port) :
    port ∈ node.kind.outputNames node.config := by
  cases h with
  | step hstep =>
    rw [armPorts_step hstep, nextPort?_step hstep] at hport
    obtain rfl := Option.some.inj (hport.resolve_left List.not_mem_nil)
    cases hkind : node.kind <;> simp_all [NodeKind.isContainer, NodeKind.outputNames,
      NodeKind.outputs, NodeKind.outcomePorts?]
  | parallel hkind _ _ hcount =>
    simp only [Node.armPorts, Node.nextPort?, hkind, List.mem_map, List.mem_range] at hport
    obtain ⟨i, hi, rfl⟩ := hport.resolve_right (by simp)
    simp only [NodeKind.outputNames, NodeKind.outputs, hkind, List.map_cons, List.map_map,
      List.mem_cons, List.mem_map, List.mem_range]
    exact Or.inr ⟨i, by omega, rfl⟩
  | router hkind _ =>
    simp only [Node.armPorts, Node.nextPort?, hkind] at hport
    simpa [NodeKind.outputNames, NodeKind.outputs, hkind, Function.comp_def] using hport
  | loop hkind =>
    simp only [Node.armPorts, Node.nextPort?, hkind, List.mem_singleton, Option.some.injEq] at hport
    rcases hport with rfl | rfl <;> simp [NodeKind.outputNames, NodeKind.outputs, hkind]
  | _ => simp_all [Node.armPorts, Node.nextPort?, NodeKind.outputNames, NodeKind.outputs]

end Plan

namespace Encodes
open Plan Validation
variable {g : Graph} {input : Node} {plan : Plan} (h : Encodes g input plan)
include h

theorem wires_perm : g.wires.Perm ((Plan.run input [] plan).wires none) := by
  have hperm := h.edges.filterMap id
  simpa [Graph.wires, List.filterMap_map, Function.comp_def] using hperm

theorem ids_perm : (g.nodes.map (·.id)).Perm (Plan.run input [] plan).ids := by
  rw [Plan.ids, nodes_input]
  exact h.nodes.map (·.id)

theorem node_ids : (g.nodes.map (·.id)).Nodup := h.ids_perm.nodup_iff.mpr h.ids_nodup_run

theorem placed : Placed g none (Plan.run input [] plan) := by
  have hmem : ∀ {w}, w ∈ g.wires ↔ w ∈ (Plan.run input [] plan).wires none :=
    h.wires_perm.mem_iff
  have hsource : ∀ w ∈ g.wires, w.source ∈ (Plan.run input [] plan).ids :=
    fun w hw => source_mem (hmem.mp hw)
  refine ⟨?_, h.ids_nodup_run, nofun, ?_, ?_, ?_, ?_⟩
  · intro n hn
    exact Graph.node?_of_nodup h.node_ids (h.nodes.mem_iff.mpr (nodes_input ▸ hn))
  · exact fun w hw _ => hmem.mp hw
  · exact fun w hw => hmem.mpr hw
  · exact fun w hw _ hout => absurd (hsource w hw) hout
  · exact fun w hw _ _ _ _ hout => absurd (hsource w hw) hout

theorem mem_ids {x : Text} {node : Node} (hnode : g.node? x = some node) :
    x ∈ (Plan.run input [] plan).ids := by
  obtain ⟨hmem, rfl⟩ := Graph.node?_eq_some hnode
  exact h.ids_perm.mem_iff.mp (List.mem_map_of_mem hmem)

theorem exists_wire {e : Edge} (he : e ∈ g.edges) : ∃ w ∈ g.wires, g.wire? e = some w := by
  have hmem := h.edges.mem_iff.mp (List.mem_map_of_mem he)
  obtain ⟨w, hw, heq⟩ := List.mem_map.mp hmem
  exact ⟨w, h.wires_perm.mem_iff.mpr hw, heq.symm⟩

theorem sound : g.Sound := by
  refine ⟨h.node_ids, h.edge_ids, ?_, ?_⟩
  · intro e he
    obtain ⟨w, hw, hwire⟩ := h.exists_wire he
    obtain ⟨port, hport, rfl⟩ := Option.map_eq_some_iff.mp hwire
    have hsource := source_mem (h.wires_perm.mem_iff.mp hw)
    obtain ⟨back, node, arms, rest, hid, hp, hs, _⟩ := h.placed.exists_part h.structured_run hsource
    have hid : node.id = e.source := hid
    have hnode : g.node? e.source = some node := hid ▸ hp.node?
    have hk : node.kind ≠ .output :=
      h.ne_output node (nodes_input ▸ h.nodes.mem_iff.mp (Graph.node?_eq_some hnode).1)
    rw [Graph.portOf?_eq hnode] at hport
    refine ⟨node, port, hnode, hport, ?_⟩
    cases hs with
    | run hfits _ _ =>
      refine hfits.port_mem hk ?_
      rcases (mem_leaving.mp (hp.leaving_of_source hw hid.symm)).2 with ⟨arm, hleg, _⟩ | ⟨hnext, _⟩
      · exact Or.inl (List.of_mem_zip hleg).1
      · exact Or.inr hnext
  · intro e he
    obtain ⟨w, hw, hwire⟩ := h.exists_wire he
    obtain ⟨port, _, rfl⟩ := Option.map_eq_some_iff.mp hwire
    have hmem := h.wires_perm.mem_iff.mp hw
    have htarget : e.target ∈ (Plan.run input [] plan).ids :=
      (target_mem hmem).resolve_right nofun
    have hne : e.target ≠ input.id := by
      intro heq
      have hloop := (h.placed.wire_to_node hw heq (source_mem hmem)).1
      rw [h.entry] at hloop
      cases hloop
    have hplan : e.target ∈ plan.ids := by
      rcases mem_ids_run.mp htarget with heq | ⟨_, hnone, _⟩ | hplan
      · exact absurd heq hne
      · exact absurd hnone List.not_mem_nil
      · exact hplan
    obtain ⟨n, hn, hid⟩ := List.mem_map.mp hplan
    refine ⟨n, ?_, (h.steps n hn).1⟩
    rw [← hid]
    exact h.placed.nodes n (by simp [Plan.nodes_run, hn])

theorem checkEdge_eq_nil {e : Edge} (he : e ∈ g.edges) : checkEdge g e = [] := by
  obtain ⟨source, port, hsource, hport, hmem⟩ := h.sound.leaves e he
  obtain ⟨target, htarget, hk⟩ := h.sound.enters e he
  have hout : checkOutput e source = [] := by
    simp [checkOutput, hport, hmem]
  have hin : checkInput e target = [] := by
    have hdefault : defaultPort ∈ target.kind.inputNames := by
      cases hkind : target.kind <;> simp_all [NodeKind.inputNames, NodeKind.inputs]
    simp [checkInput, h.enters e he, hdefault]
  simp only [checkEdge, hsource, htarget, hout, hin, List.append_nil]

theorem checkCycles_eq_nil : checkCycles g = [] := by
  have hedges := soundEdges_of_sound fun e he => h.checkEdge_eq_nil he
  rw [checkCycles_eq_nil_iff, hedges]
  intro c hc
  rw [or_iff_not_imp_left, Bool.not_eq_true]
  intro hnontrivial
  have hids : ∀ x ∈ c, x ∈ g.nodes.map (·.id) := by
    intro x hx
    have hx := Graph.Successors.mem_nodes_of_component hc hx
    rw [nodes_successors] at hx
    exact List.mem_eraseDups.mp hx
  have hknot : Graph.Knot g.edges {m | m ∈ c} :=
    Graph.Successors.knot_of_component (fun hl => (links_successors.mp hl).2.2) hc hnontrivial
  refine h.placed.isLegal h.sound h.structured_run hknot ?_ ?_
  · intro m hm
    exact h.ids_perm.mem_iff.mp (hids m hm)
  · have hle : c.toFinset.card ≤ (g.nodes.map (·.id)).toFinset.card := by
      refine Finset.card_le_card fun x hx => ?_
      exact List.mem_toFinset.mpr (hids x (List.mem_toFinset.mp hx))
    have hlength := List.toFinset_card_le (g.nodes.map (·.id))
    rw [List.length_map] at hlength
    omega

theorem entryIds_eq : g.entryIds = [input.id] := by
  have hsteps : plan.nodes.filter (·.kind = .input) = [] := by
    refine List.filter_eq_nil_iff.mpr fun n hn => ?_
    simpa using (h.steps n hn).1
  have hperm := h.nodes.filter (·.kind = .input)
  rw [List.filter_cons_of_pos (by simp [h.entry]), hsteps] at hperm
  have hinputs : g.nodes.filter (·.kind = .input) = [input] := List.perm_singleton.mp hperm
  have hstarts : g.starts = [input] := by
    rw [Graph.starts, hinputs]
    rfl
  rw [Graph.entryIds_eq, hstarts]
  simp [Text.sort, List.eraseDups_cons]

theorem exists_accepted : ∃ v, judge g = .ok (.accepted v) ∧ v.graph = g := by
  have hidentity : checkIdentity g = [] := by
    rw [checkIdentity, repeated_of_nodup h.node_ids (by simp), repeated_of_nodup h.edge_ids (by simp)]
    rfl
  have hconfig : checkConfig g = .ok [] :=
    checkConfig_eq_nil_iff.mpr fun n hn => h.valid n (h.nodes.mem_iff.mp hn)
  have hedges : checkEdges g = [] := List.flatMap_eq_nil_iff.mpr fun e he => h.checkEdge_eq_nil he
  have hentry : g.entries ≠ [] := by
    intro hnone
    have hids := h.entryIds_eq
    rw [Graph.entryIds, hnone] at hids
    cases hids
  exact Validation.exists_accepted hidentity hconfig hedges h.checkCycles_eq_nil
    fun hnone => absurd hnone hentry

theorem edge_unique {e e' : Edge} (he : e ∈ g.edges) (he' : e' ∈ g.edges)
    (heq : g.wire? e = g.wire? e') : e = e' := by
  have hwires : (g.edges.map g.wire?).Nodup := by
    refine h.edges.nodup_iff.mpr (List.Nodup.map (Option.some_injective _) ?_)
    exact h.structured_run.wires_nodup h.placed.nodup none
  exact List.inj_on_of_nodup_map hwires he he' heq

theorem merges_eq_nil : g.merges = [] := by
  have hinjective : ∀ e ∈ g.forwardEdges, ∀ e' ∈ g.forwardEdges, e.target = e'.target → e = e' := by
    intro e he e' he' ht
    have hedge : e ∈ g.edges := (List.mem_filter.mp he).1
    have hedge' : e' ∈ g.edges := (List.mem_filter.mp he').1
    obtain ⟨w, hw, hwire⟩ := h.exists_wire hedge
    obtain ⟨w', hw', hwire'⟩ := h.exists_wire hedge'
    obtain ⟨target, htarget, _⟩ := h.sound.enters e hedge
    obtain ⟨back, node, arms, rest, hid, hp, hs, _⟩ :=
      h.placed.exists_part h.structured_run (h.mem_ids htarget)
    have hsource := hp.source_not_mem h.sound hs he hid.symm
    have hsource' := hp.source_not_mem h.sound hs he' (hid.trans ht).symm
    have hmem : node.id ∈ (Plan.run node arms rest).ids := mem_ids_run.mpr (Or.inl rfl)
    have hsame : w = w' := by
      obtain ⟨_, _, rfl⟩ := Option.map_eq_some_iff.mp hwire
      obtain ⟨_, _, rfl⟩ := Option.map_eq_some_iff.mp hwire'
      exact hp.once _ hw _ hw' (hid ▸ hmem) (ht ▸ hid ▸ hmem) hsource hsource'
    exact h.edge_unique hedge hedge' (by rw [hwire, hwire', hsame])
  have hedges : g.forwardEdges.Nodup := (List.Nodup.of_map _ h.edge_ids).filter _
  have htargets : (g.forwardEdges.map (·.target)).Nodup := hedges.map_on hinjective
  refine List.filter_eq_nil_iff.mpr fun x _ => ?_
  have hcount := List.nodup_iff_count_le_one.mp htargets x
  simpa using hcount

theorem not_exitReturns : ¬ g.ExitReturns := by
  rintro ⟨e, he, hport, hself, _⟩
  obtain ⟨source, _, hsource, _, _⟩ := h.sound.leaves e he
  obtain ⟨back, node, arms, rest, hid, hp, hs, _⟩ :=
    h.placed.exists_part h.structured_run (h.mem_ids hsource)
  obtain ⟨_, _, hw⟩ := wire_of_edge h.sound he
  have hmem : e.source ∈ (Plan.run node arms rest).ids := mem_ids_run.mpr (Or.inl hid.symm)
  obtain ⟨hk, _⟩ := hp.wire_to_node hw (hself.trans hid.symm) hmem
  cases hs with
  | run hfits _ _ =>
    obtain ⟨body, rfl⟩ := hfits.eq_body hk
    have hexit : g.portOf? e = some ("exit" : Text) :=
      (hp.portOf?_loop hk hid.symm (by decide)).mpr hport
    have hwire : ⟨node.id, "exit", node.id⟩ ∈ g.wires :=
      Graph.mem_wires.mpr ⟨e, he, hid.symm, hexit, hself.trans hid.symm⟩
    rcases hp.wire_loop hk hwire with ⟨hloop, _⟩ | ⟨_, hfirst⟩
    · exact absurd hloop (by decide)
    · rcases first_or hfirst with hfirst | ⟨_, hback⟩
      · exact (parts_disjoint hp.nodup).2.1 (first_mem hfirst)
      · exact hp.outside _ hback (hid ▸ hmem)

theorem exists_body {x head : Text} (hx : x ∈ Graph.loopBody g.edges head) {back : Option Text}
    {part : Plan} (hp : Placed g back part) (hs : part.Structured) (hmem : head ∈ part.ids) :
    ∃ body : Plan, body.Structured ∧ Placed g (some head) body ∧
      (∀ y, y ∈ Graph.loopBody g.edges head ↔ y ∈ body.ids) ∧ ∀ y ∈ body.ids, y ∈ part.ids := by
  obtain ⟨node, hnode, hk⟩ := isLoop_of_mem_loopBody h.sound hx
  obtain ⟨back', node', arms, rest, rfl, hp', hs', hsub⟩ := hp.exists_part hs hmem
  obtain rfl := Option.some.inj (hp'.node?.symm.trans hnode)
  cases hs' with
  | run hfits harms _ =>
    obtain ⟨body, rfl⟩ := hfits.eq_body hk
    have hbody := harms body (List.mem_singleton_self _)
    refine ⟨body, hbody, hp'.loopArm hk, fun y => hp'.mem_loopBody h.sound hk hbody, ?_⟩
    intro y hy
    exact hsub y (mem_ids_run.mpr (Or.inr (Or.inl ⟨body, List.mem_singleton_self _, hy⟩)))

theorem not_interlocked : ¬ g.Interlocked := by
  rintro ⟨a, b, ha, hb, _⟩
  obtain ⟨node, hnode, _⟩ := isLoop_of_mem_loopBody h.sound ha
  obtain ⟨outer, hs, hp, hbody, _⟩ :=
    h.exists_body ha h.placed h.structured_run (h.mem_ids hnode)
  obtain ⟨inner, _, _, hbody', hsub⟩ := h.exists_body hb hp hs ((hbody a).mp ha)
  exact hp.outside b rfl (hsub b ((hbody' b).mp hb))

theorem exists_block {v : Validated} (hv : v.graph = g) : ∃ root, (resolve v).block = .ok root := by
  subst hv
  have hsettled : ∀ node ∈ v.graph.nodes, Resolution.Settled node := by
    intro node hn
    obtain ⟨hloop, hjoin⟩ := h.chosen node (h.nodes.mem_iff.mp hn)
    refine ⟨fun hk => v.exists_join hn hk (hjoin hk), fun hk => ?_⟩
    obtain ⟨kind, _, hkind, _⟩ := v.exists_loopKind hn hk (hloop hk)
    exact ⟨kind, hkind⟩
  refine (Resolution.exists_block_or_snare v hsettled).resolve_right ?_
  rintro ⟨id, _, hsnare⟩
  rcases v.snare_cases hsnare with hexit | hlocked
  · exact h.not_exitReturns hexit
  · exact h.not_interlocked hlocked

end Encodes

end WorkflowCompiler
