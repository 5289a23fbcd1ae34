import Mathlib
import WorkflowCompiler.Proofs.Plan.Limbs

/-! # The graph of a plan

Every plan has a graph. Its edges are the wires of the plan, with ids that number them in unary, so
that they come in the order of the wires.
-/
namespace WorkflowCompiler

namespace Plan

def edgeId (i : Nat) : Text := List.replicate i 'e'

def edgeOf (wire : Wire × Nat) : Edge :=
  { id := edgeId wire.2, source := wire.1.source, target := wire.1.target,
    sourcePort := some wire.1.port }

/-- The graph of a plan behind an input node. -/
def graph (input : Node) (plan : Plan) : Graph where
  nodes := input :: plan.nodes
  edges := (((run input [] plan).wires none).zipIdx).map edgeOf

theorem edgeId_injective {i j : Nat} (h : edgeId i = edgeId j) : i = j := by
  simpa [edgeId] using congrArg List.length h

theorem le_edgeId {i j : Nat} (h : i ≤ j) : Text.le (edgeId i) (edgeId j) := by
  induction i generalizing j with
  | zero => rfl
  | succ i ih =>
    obtain ⟨j, rfl⟩ : ∃ less, j = less + 1 := ⟨j - 1, by omega⟩
    rw [edgeId, edgeId, List.replicate_succ, List.replicate_succ, Text.le_cons_iff]
    exact Or.inr ⟨rfl, ih (by omega)⟩

/-- The ports of a node have names, and no others begin like those of a parallel container. -/
theorem head_of_mem_outputNames {kind : NodeKind} {config : Members} {port : Text}
    (h : port ∈ kind.outputNames config) :
    port ≠ [] ∧ (kind ≠ .parallel → port.head? ≠ some (.char 'o')) := by
  cases kind with
  | parallel =>
    refine ⟨?_, fun hk => absurd rfl hk⟩
    simp only [NodeKind.outputNames, NodeKind.outputs, List.map_cons, List.map_map, List.mem_cons,
      List.mem_map] at h
    rcases h with rfl | ⟨i, _, rfl⟩
    · decide
    · exact List.cons_ne_nil _ _
  | router =>
    simp only [NodeKind.outputNames, NodeKind.outputs, routeLabels, List.map_map, List.mem_map] at h
    obtain ⟨i, _, rfl⟩ := h
    refine ⟨List.cons_ne_nil _ _, fun _ hhead => ?_⟩
    have hchar : CodePoint.char 'r' = .char 'o' := Option.some.inj hhead
    exact absurd hchar (by decide)
  | output => exact absurd h List.not_mem_nil
  | conditional | loop | apiCall | validator =>
    rcases List.mem_pair.mp h with rfl | rfl <;> exact ⟨by decide, fun _ => by decide⟩
  | _ =>
    obtain rfl := List.mem_singleton.mp h
    exact ⟨by decide, fun _ => by decide⟩

section Order
variable {node : Node} {arms : List Plan} {rest : Plan}

/-- Of two wires from one parallel container, the first one leads to the earlier member. -/
def Ordered (w w' : Wire) : Prop :=
  w.source = w'.source → ∀ i j, w.port = Node.memberPort i → w'.port = Node.memberPort j → i < j

theorem Fits.wire_port (h : Fits node arms rest) (hk : node.kind ≠ .output) {back : Option Text}
    {w : Wire} (hw : w ∈ leaving node arms rest back) :
    w.port ∈ node.kind.outputNames node.config := by
  refine h.port_mem hk ?_
  rcases (mem_leaving.mp hw).2 with ⟨arm, hleg, _⟩ | ⟨hnext, _⟩
  · exact Or.inl (List.of_mem_zip hleg).1
  · exact Or.inr hnext

theorem Fits.leaving_ordered (h : Fits node arms rest) (hk : node.kind ≠ .output)
    (back : Option Text) : (leaving node arms rest back).Pairwise Ordered := by
  by_cases hparallel : node.kind = .parallel
  · have hnext : node.nextPort? = none := by simp [Node.nextPort?, hparallel]
    simp only [leaving, hnext, Option.toList_none, List.map_nil, List.append_nil]
    rw [List.pairwise_filterMap, List.pairwise_map]
    refine (h.pairwise_legs hparallel).imp ?_
    rintro leg leg' ⟨i, j, hlt, hi, hj⟩ w hw w' hw' _ i' j' hi' hj'
    obtain ⟨t, _, rfl⟩ := Option.map_eq_some_iff.mp hw
    obtain ⟨t', _, rfl⟩ := Option.map_eq_some_iff.mp hw'
    rw [memberPort_injective (hi'.symm.trans hi), memberPort_injective (hj'.symm.trans hj)]
    exact hlt
  · refine List.Pairwise.imp_of_mem (R := fun _ _ => True) ?_ (List.pairwise_of_forall ?_)
    · intro w w' hw _ _ _ i j hi _
      have hhead := (head_of_mem_outputNames (h.wire_port hk hw)).2 hparallel
      rw [hi] at hhead
      exact absurd rfl hhead
    · exact fun _ _ => trivial

end Order

theorem Structured.wires_ordered {plan : Plan} (h : plan.Structured) (hnodup : plan.ids.Nodup)
    (hk : ∀ n ∈ plan.nodes, n.kind ≠ .output) (back : Option Text) :
    (plan.wires back).Pairwise Ordered := by
  induction h generalizing back with
  | done => exact List.Pairwise.nil
  | @run node arms rest hfits harms hrest iharms ihrest =>
    obtain ⟨hnode, hnodeRest, hrest, hapart⟩ := parts_disjoint hnodup
    obtain ⟨harmsNodup, hrestNodup⟩ := parts_nodup hnodup
    rw [nodes_run] at hk
    have harmsWires : (arms.flatMap (wires (node.inside back))).Pairwise Ordered := by
      refine List.pairwise_flatMap.mpr ⟨fun arm harm => ?_, hapart.imp ?_⟩
      · refine iharms arm harm (harmsNodup arm harm) (fun n hn => hk n ?_) _
        exact List.mem_cons_of_mem _ (List.mem_append_left _ (List.mem_flatMap.mpr ⟨arm, harm, hn⟩))
      · intro a b hdisjoint w hw w' hw' heq
        exact absurd (heq ▸ source_mem hw') (hdisjoint (source_mem hw))
    have hrestWires := ihrest hrestNodup
      (fun n hn => hk n (List.mem_cons_of_mem _ (List.mem_append_right _ hn))) back
    rw [wires, wiresAll_eq, List.pairwise_append, List.pairwise_append]
    refine ⟨hfits.leaving_ordered (hk node List.mem_cons_self) back,
      ⟨harmsWires, hrestWires, ?_⟩, ?_⟩
    · intro w hw w' hw' heq
      obtain ⟨arm, harm, hw⟩ := List.mem_flatMap.mp hw
      exact absurd (heq ▸ source_mem hw') (hrest arm harm _ (source_mem hw))
    · intro w hw w' hw' heq
      have hsource := (mem_leaving.mp hw).1
      rcases List.mem_append.mp hw' with hw' | hw'
      · obtain ⟨arm, harm, hw'⟩ := List.mem_flatMap.mp hw'
        exact absurd (hsource ▸ heq ▸ source_mem hw') (hnode arm harm)
      · exact absurd (hsource ▸ heq ▸ source_mem hw') hnodeRest

theorem Structured.port_mem {plan : Plan} (h : plan.Structured)
    (hk : ∀ n ∈ plan.nodes, n.kind ≠ .output) {back : Option Text} {w : Wire}
    (hw : w ∈ plan.wires back) :
    ∃ n ∈ plan.nodes, n.id = w.source ∧ w.port ∈ n.kind.outputNames n.config := by
  induction h generalizing back with
  | done => cases hw
  | @run node arms rest hfits harms hrest iharms ihrest =>
    rw [nodes_run] at hk ⊢
    rcases mem_wires_run.mp hw with hw | ⟨arm, harm, hw⟩ | hw
    · refine ⟨node, List.mem_cons_self, (mem_leaving.mp hw).1.symm, ?_⟩
      exact hfits.wire_port (hk node List.mem_cons_self) hw
    · have hsub : ∀ n ∈ arm.nodes, n ∈ node :: (arms.flatMap nodes ++ rest.nodes) := fun n hn =>
        List.mem_cons_of_mem _ (List.mem_append_left _ (List.mem_flatMap.mpr ⟨arm, harm, hn⟩))
      obtain ⟨n, hn, hport⟩ := iharms arm harm (fun n hn => hk n (hsub n hn)) hw
      exact ⟨n, hsub n hn, hport⟩
    · have hsub : ∀ n ∈ rest.nodes, n ∈ node :: (arms.flatMap nodes ++ rest.nodes) := fun n hn =>
        List.mem_cons_of_mem _ (List.mem_append_right _ hn)
      obtain ⟨n, hn, hport⟩ := ihrest (fun n hn => hk n (hsub n hn)) hw
      exact ⟨n, hsub n hn, hport⟩

section Encoding
variable {input : Node} {plan : Plan} (h : plan.WellFormed input)
include h

theorem portOf?_edgeOf {x : Wire × Nat} (hx : x ∈ ((run input [] plan).wires none).zipIdx) :
    (graph input plan).portOf? (edgeOf x) = some x.1.port := by
  obtain ⟨n, hn, hid, hport⟩ :=
    h.structured_run.port_mem h.ne_output (List.fst_mem_of_mem_zipIdx hx)
  rw [nodes_input] at hn
  have hnode : (graph input plan).node? x.1.source = some n :=
    hid ▸ Graph.node?_of_nodup (g := graph input plan) h.ids_nodup hn
  rw [Graph.portOf?_eq hnode]
  exact if_neg (head_of_mem_outputNames hport).1

theorem edges_graph : (graph input plan).edges.map (graph input plan).wire? =
    ((run input [] plan).wires none).map some := by
  calc (graph input plan).edges.map (graph input plan).wire?
    _ = ((run input [] plan).wires none).zipIdx.map fun x => some x.1 := by
      rw [graph, List.map_map]
      refine List.map_congr_left fun x hx => ?_
      have hport := portOf?_edgeOf h hx
      exact congrArg (Option.map _) hport
    _ = (((run input [] plan).wires none).zipIdx.map Prod.fst).map some := by
      rw [List.map_map]
      rfl
    _ = ((run input [] plan).wires none).map some := by rw [List.zipIdx_map_fst]

theorem graph_ordered {x x' : Wire × Nat} (hx : x ∈ ((run input [] plan).wires none).zipIdx)
    (hx' : x' ∈ ((run input [] plan).wires none).zipIdx) (hsource : x.1.source = x'.1.source)
    {i j : Nat} (hlt : i < j) (hi : x.1.port = Node.memberPort i)
    (hj : x'.1.port = Node.memberPort j) : x.2 ≤ x'.2 := by
  have hordered := h.structured_run.wires_ordered h.ids_nodup_run h.ne_output none
  obtain ⟨hlength, hw⟩ := List.mem_zipIdx' hx
  obtain ⟨hlength', hw'⟩ := List.mem_zipIdx' hx'
  by_contra hnot
  have hswap : Ordered x'.1 x.1 := by
    rw [hw, hw']
    exact List.pairwise_iff_getElem.mp hordered _ _ hlength' hlength (by omega)
  have := hswap hsource.symm j i hj hi
  omega

theorem encodes_graph : Encodes (graph input plan) input plan := by
  refine ⟨h, .refl _, ?_, .of_eq (edges_graph h), ?_, ?_⟩
  · have hnumbers : (graph input plan).edges.map (·.id) =
        (List.range' 0 ((run input [] plan).wires none).length).map edgeId := by
      rw [graph, List.map_map, ← List.zipIdx_map_snd, List.map_map]
      rfl
    rw [hnumbers]
    exact List.Nodup.map (fun i j => edgeId_injective) List.nodup_range'
  · intro e he
    obtain ⟨x, _, rfl⟩ := List.mem_map.mp he
    rfl
  · intro e he e' he' hsource i j hlt hi hj
    obtain ⟨x, hx, rfl⟩ := List.mem_map.mp he
    obtain ⟨x', hx', rfl⟩ := List.mem_map.mp he'
    rw [portOf?_edgeOf h hx] at hi
    rw [portOf?_edgeOf h hx'] at hj
    exact le_edgeId (graph_ordered h hx hx' hsource hlt (Option.some.inj hi) (Option.some.inj hj))

end Encoding

end Plan

end WorkflowCompiler
