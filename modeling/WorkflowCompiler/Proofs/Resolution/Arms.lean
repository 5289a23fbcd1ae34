import Mathlib
import WorkflowCompiler.Proofs.Graph.Around
import WorkflowCompiler.Proofs.Resolution.Strands

/-! # Arms of a node

How many chains begin at a node when another node is entered: one for every arm of the entered node
that leads there.
-/
namespace WorkflowCompiler

theorem Text.ofString_injective {s t : String} (h : Text.ofString s = Text.ofString t) : s = t := by
  have hchars : s.toList = t.toList :=
    List.map_injective_iff.mpr (fun _ _ h => CodePoint.char.inj h) h
  exact String.toList_inj.mp hchars

theorem routeLabels_nodup (config : Members) : ((routeLabels config).map (·.1)).Nodup := by
  simp only [routeLabels, List.map_map]
  refine List.Nodup.map_on ?_ List.nodup_range
  intro i _ j _ h
  have hnumeral : Text.ofString (toString i) = Text.ofString (toString j) := by
    simpa using h
  exact Nat.repr_inj.mp (Text.ofString_injective hnumeral)

namespace Resolution
variable {g : Graph} {node : Node}

theorem outcomePorts_ne {kind : NodeKind} {success failure : Text}
    (h : kind.outcomePorts? = some (success, failure)) : success ≠ failure := by
  cases kind <;> simp only [NodeKind.outcomePorts?, Option.some.injEq, Prod.mk.injEq, reduceCtorEq]
    at h
  all_goals
    obtain ⟨rfl, rfl⟩ := h
    decide

theorem ports_nodup : (g.ports node).Nodup := by
  unfold Graph.ports
  split
  · decide
  · exact routeLabels_nodup _
  · decide
  · split
    · exact List.nodup_singleton _
    next success failure hout =>
      split
      · simp [outcomePorts_ne hout]
      · exact List.nodup_singleton _

theorem targets_nodup (facts : Facts) (id port : Text) : (facts.targets id port).Nodup :=
  nodup_eraseDups _

theorem allTargets_nodup (facts : Facts) (id : Text) : (facts.allTargets id).Nodup :=
  nodup_eraseDups _

theorem starts_eq_ports (hk : node.kind ≠ .parallel) (owner : Option Text) (stop : List Text) :
    (strands (.ofGraph g) owner stop node).flatMap (·.starts) =
      (g.ports node).flatMap ((Facts.ofGraph g).targets node.id) := by
  obtain ⟨extra, hextra, heq⟩ := strands_eq_ports (g := g) hk owner stop
  have hnone : extra.flatMap (·.2) = [] := by
    rw [List.flatMap_eq_nil_iff]
    intro x hx
    rw [hextra x hx]
  have hsnd := congrArg (List.flatMap (·.2)) heq
  simpa [List.flatMap_append, List.flatMap_map, hnone] using hsnd

theorem starts_eq_members (hk : node.kind = .parallel) (owner : Option Text) (stop : List Text) :
    (strands (.ofGraph g) owner stop node).flatMap (·.starts) =
      (Facts.ofGraph g).allTargets node.id := by
  have hsnd := congrArg (List.flatMap (·.2)) (strands_eq_members (g := g) hk owner stop)
  simpa [List.flatMap_append, List.flatMap_map] using hsnd

def portsTo (g : Graph) (node : Node) (id : Text) : List Text :=
  (g.ports node).filter fun port => ((Facts.ofGraph g).targets node.id port).contains id

theorem count_starts_eq_ports (hk : node.kind ≠ .parallel) (owner : Option Text)
    (stop : List Text) (id : Text) :
    ((strands (.ofGraph g) owner stop node).flatMap (·.starts)).count id =
      (portsTo g node id).length := by
  rw [starts_eq_ports hk, portsTo]
  induction g.ports node with
  | nil => rfl
  | cons port rest ih =>
    rw [List.flatMap_cons, List.count_append, ih, (targets_nodup _ _ _).count, List.filter_cons]
    cases hmem : ((Facts.ofGraph g).targets node.id port).contains id with
    | true =>
      rw [if_pos (by simpa using hmem), if_pos rfl, List.length_cons]
      omega
    | false =>
      rw [if_neg (by simpa using hmem), if_neg Bool.false_ne_true]
      omega

theorem mem_portsTo {id port : Text} : port ∈ portsTo g node id ↔ port ∈ g.ports node ∧
    ∃ e ∈ g.edges, e.source = node.id ∧ g.portOf? e = some port ∧ e.target = id := by
  simp [portsTo, mem_targets_ofGraph]

theorem arm_eq_of_parallel (hnode : g.node? node.id = some node) (hk : node.kind = .parallel)
    {e : Edge} (hs : e.source = node.id) : g.arm e = (node.id, none) := by
  simp [Graph.arm, hs, hnode, hk]

theorem arm_eq_of_port (hnode : g.node? node.id = some node) (hk : node.kind ≠ .parallel)
    {e : Edge} (hs : e.source = node.id) : g.arm e = (node.id, g.portOf? e) := by
  simp [Graph.arm, hs, hnode, hk]

/-- A node all of whose edges to another one are in one arm begins at most one chain there. -/
theorem count_starts_le_one (hnode : g.node? node.id = some node) {id : Text}
    (h : ∀ e ∈ g.edges, ∀ e' ∈ g.edges, e.source = node.id → e'.source = node.id →
      e.target = id → e'.target = id → g.arm e = g.arm e') (owner : Option Text)
    (stop : List Text) :
    ((strands (.ofGraph g) owner stop node).flatMap (·.starts)).count id ≤ 1 := by
  by_cases hk : node.kind = .parallel
  · rw [starts_eq_members hk]
    exact List.nodup_iff_count_le_one.mp (allTargets_nodup _ _) id
  · rw [count_starts_eq_ports hk]
    have hone : ∀ a ∈ portsTo g node id, ∀ b ∈ portsTo g node id, a = b := by
      intro a ha b hb
      obtain ⟨_, e, he, hs, hp, ht⟩ := mem_portsTo.mp ha
      obtain ⟨_, e', he', hs', hp', ht'⟩ := mem_portsTo.mp hb
      have harm := h e he e' he' hs hs' ht ht'
      rw [arm_eq_of_port hnode hk hs, arm_eq_of_port hnode hk hs', hp, hp'] at harm
      exact Option.some.inj (Prod.mk.inj harm).2
    have hnodup : (portsTo g node id).Nodup := ports_nodup.filter _
    match hports : portsTo g node id with
    | [] => simp
    | [_] => simp
    | a :: b :: rest =>
      rw [hports] at hone hnodup
      have hab := hone a (by simp) b (by simp)
      simp [hab] at hnodup

theorem count_starts_pos (hg : g.Sound) (hnode : g.node? node.id = some node) {id : Text}
    (h : Graph.Leads g.edges node.id id) (owner : Option Text) (stop : List Text) :
    1 ≤ ((strands (.ofGraph g) owner stop node).flatMap (·.starts)).count id := by
  obtain ⟨e, he, hs, rfl⟩ := h
  obtain ⟨s, hmem, hstart, _⟩ := exists_strand_of_edge hg hnode he hs owner stop
  exact List.count_pos_iff.mpr (List.mem_flatMap.mpr ⟨s, hmem, hstart⟩)

theorem two_le_count_starts (hg : g.Sound) (hnode : g.node? node.id = some node) {e e' : Edge}
    (he : e ∈ g.edges) (he' : e' ∈ g.edges) (hs : e.source = node.id) (hs' : e'.source = node.id)
    (ht : e'.target = e.target) (harm : g.arm e ≠ g.arm e') (owner : Option Text)
    (stop : List Text) :
    2 ≤ ((strands (.ofGraph g) owner stop node).flatMap (·.starts)).count e.target := by
  by_cases hk : node.kind = .parallel
  · rw [arm_eq_of_parallel hnode hk hs, arm_eq_of_parallel hnode hk hs'] at harm
    exact absurd rfl harm
  · rw [count_starts_eq_ports hk]
    have hport : ∀ x ∈ g.edges, x.source = node.id → x.target = e.target →
        ∃ port ∈ portsTo g node e.target, g.portOf? x = some port := by
      intro x hx hxs hxt
      obtain ⟨source, port, hsource, hp, hout⟩ := hg.leaves x hx
      obtain rfl : node = source := Option.some.inj (hnode.symm.trans (hxs ▸ hsource))
      rw [← Graph.portOf?_eq hsource] at hp
      have hw : g.wired node.id port := List.any_eq_true.mpr ⟨x, hx, by simp [hxs, hp]⟩
      exact ⟨port, mem_portsTo.mpr ⟨mem_ports hk hout hw, x, hx, hxs, hp, hxt⟩, hp⟩
    obtain ⟨a, ha, hpa⟩ := hport e he hs rfl
    obtain ⟨b, hb, hpb⟩ := hport e' he' hs' ht
    have hab : a ≠ b := by
      rintro rfl
      rw [arm_eq_of_port hnode hk hs, arm_eq_of_port hnode hk hs', hpa, hpb] at harm
      exact harm rfl
    have hsub : [a, b].Subperm (portsTo g node e.target) := by
      apply List.subperm_of_subset
      · simp [hab]
      · simp [ha, hb]
    exact hsub.length_le

end Resolution

end WorkflowCompiler
