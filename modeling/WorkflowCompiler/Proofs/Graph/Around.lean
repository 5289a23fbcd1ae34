import Mathlib
import WorkflowCompiler.Proofs.Graph.Reach
import WorkflowCompiler.Proofs.Validation.Sound
import WorkflowCompiler.Resolution.Facts

/-! # Ways around a node

What can be reached from the entries without passing a given node. A loop whose own body leads on to
the head of a loop around it counts edges from outside as back edges, so two producers may meet at
its head without making it a merge point.
-/
namespace WorkflowCompiler.Graph

/-- A node can be reached from an entry. -/
def Reached (g : Graph) (id : Text) : Prop := ∃ s ∈ g.entryIds, Reaches g.edges s id

/-- A node can be reached from an entry without passing another one. -/
def ReachedAround (g : Graph) (avoid id : Text) : Prop :=
  ∃ s ∈ g.entryIds, s ≠ avoid ∧
    Relation.ReflTransGen (fun a b => Leads g.edges a b ∧ b ≠ avoid) s id

theorem reachedAround_entry {g : Graph} {avoid id : Text} (h : id ∈ g.entryIds)
    (hne : id ≠ avoid) : g.ReachedAround avoid id := ⟨id, h, hne, .refl⟩

theorem ReachedAround.step {g : Graph} {avoid a b : Text} (h : g.ReachedAround avoid a)
    (hl : Leads g.edges a b) (hne : b ≠ avoid) : g.ReachedAround avoid b := by
  obtain ⟨s, hs, hsne, hp⟩ := h
  exact ⟨s, hs, hsne, hp.tail ⟨hl, hne⟩⟩

theorem ReachedAround.ne {g : Graph} {avoid id : Text} (h : g.ReachedAround avoid id) :
    id ≠ avoid := by
  obtain ⟨s, _, hsne, hp⟩ := h
  rcases Relation.ReflTransGen.cases_tail hp with rfl | ⟨_, _, h⟩
  · exact hsne
  · exact h.2

theorem ReachedAround.reached {g : Graph} {avoid id : Text} (h : g.ReachedAround avoid id) :
    g.Reached id := by
  obtain ⟨s, hs, _, hp⟩ := h
  exact ⟨s, hs, Relation.ReflTransGen.mono (fun _ _ h => h.1) _ _ hp⟩

theorem Reached.step {g : Graph} {a b : Text} (h : g.Reached a) (hl : Leads g.edges a b) :
    g.Reached b := by
  obtain ⟨s, hs, hp⟩ := h
  exact ⟨s, hs, hp.tail hl⟩

theorem Sound.node_of_edge {g : Graph} (hg : g.Sound) {e : Edge} (he : e ∈ g.edges) :
    ∃ node, g.node? e.target = some node :=
  let ⟨node, hnode, _⟩ := hg.enters e he
  ⟨node, hnode⟩

theorem Sound.mem_nodeIds_of_leads {g : Graph} (hg : g.Sound) {a b : Text}
    (h : Leads g.edges a b) : a ∈ g.nodeIds ∧ b ∈ g.nodeIds := by
  obtain ⟨e, he, rfl, rfl⟩ := h
  obtain ⟨source, _, hsource, _, _⟩ := hg.leaves e he
  obtain ⟨target, htarget, _⟩ := hg.enters e he
  obtain ⟨hs, hsid⟩ := node?_eq_some hsource
  obtain ⟨ht, htid⟩ := node?_eq_some htarget
  constructor
  · exact List.mem_eraseDups.mpr (List.mem_map.mpr ⟨source, hs, hsid⟩)
  · exact List.mem_eraseDups.mpr (List.mem_map.mpr ⟨target, ht, htid⟩)

theorem Sound.node_of_reached {g : Graph} (hg : g.Sound) {id : Text} (h : g.Reached id) :
    ∃ node, g.node? id = some node := by
  obtain ⟨s, hs, hpath⟩ := h
  cases hpath with
  | refl => exact entry_node hg hs
  | tail _ hl =>
    obtain ⟨e, he, _, rfl⟩ := hl
    exact hg.node_of_edge he

/-- A node is reached from an entry over a number of edges. -/
inductive ReachedIn (g : Graph) : Nat → Text → Prop
  | entry {id : Text} : id ∈ g.entryIds → ReachedIn g 0 id
  | step {n : Nat} {a b : Text} : ReachedIn g n a → Leads g.edges a b → ReachedIn g (n + 1) b

theorem Reached.exists_in {g : Graph} {id : Text} (h : g.Reached id) : ∃ n, g.ReachedIn n id := by
  obtain ⟨s, hs, hp⟩ := h
  induction hp with
  | refl => exact ⟨0, .entry hs⟩
  | tail _ hl ih =>
    obtain ⟨n, ih⟩ := ih
    exact ⟨n + 1, .step ih hl⟩

/-- A way that is shorter than every way to a node does not pass it. -/
theorem ReachedIn.around {g : Graph} {n : Nat} {avoid id : Text} (h : g.ReachedIn n id)
    (hfar : ∀ k ≤ n, ¬ g.ReachedIn k avoid) : g.ReachedAround avoid id := by
  induction h with
  | entry hid =>
    refine reachedAround_entry hid ?_
    rintro rfl
    exact hfar 0 le_rfl (.entry hid)
  | @step n a b ha hl ih =>
    refine (ih fun k hk => hfar k (by omega)).step hl ?_
    rintro rfl
    exact hfar (n + 1) le_rfl (.step ha hl)

/-- The arm by which an edge leaves its source: its port, except that a parallel container runs all
its successors. -/
def arm (g : Graph) (e : Edge) : Text × Option Text :=
  (e.source, if (g.node? e.source).any (·.kind = .parallel) then none else g.portOf? e)

/-- Two arms lead to a node that is not a merge point, both from nodes that are reached around it. -/
def HiddenMerge (g : Graph) (head : Text) : Prop :=
  head ∉ g.merges ∧ ∃ e ∈ g.edges, ∃ e' ∈ g.edges, e.target = head ∧ e'.target = head ∧
    g.arm e ≠ g.arm e' ∧ g.ReachedAround head e.source ∧ g.ReachedAround head e'.source

/-- A node lies in the body of a loop proper: it is reached from the body port through nodes that
can be avoided on the way to the loop. -/
def InOwnBody (g : Graph) (head id : Text) : Prop :=
  ∃ e ∈ g.edges, e.source = head ∧ g.portOf? e = some "loop" ∧ g.ReachedAround e.target head ∧
    Relation.ReflTransGen (fun a b => Leads g.edges a b ∧ g.ReachedAround b head) e.target id

/-- Two arms lead to a node that is not a merge point, both from outside its own body. -/
def SplitEntry (g : Graph) (head : Text) : Prop :=
  head ∉ g.merges ∧ ∃ e ∈ g.edges, ∃ e' ∈ g.edges, e.target = head ∧ e'.target = head ∧
    g.arm e ≠ g.arm e' ∧ ∀ x ∈ [e, e'], g.Reached x.source ∧ x.source ≠ head ∧
      ¬ g.InOwnBody head x.source

theorem HiddenMerge.reached {g : Graph} {head : Text} (h : g.HiddenMerge head) :
    g.Reached head := by
  obtain ⟨_, e, he, _, _, rfl, _, _, hs, _⟩ := h
  exact hs.reached.step ⟨e, he, rfl, rfl⟩

/-- Where the own body of a loop is entered only through its head, hidden merge points are split. -/
theorem HiddenMerge.split {g : Graph} {head : Text} (h : g.HiddenMerge head)
    (hbody : ∀ id, g.InOwnBody head id → ¬ g.ReachedAround head id) : g.SplitEntry head := by
  obtain ⟨hmerge, e, he, e', he', ht, ht', harm, hs, hs'⟩ := h
  refine ⟨hmerge, e, he, e', he', ht, ht', harm, ?_⟩
  have hout : ∀ x : Edge, g.ReachedAround head x.source →
      g.Reached x.source ∧ x.source ≠ head ∧ ¬ g.InOwnBody head x.source :=
    fun x hx => ⟨hx.reached, hx.ne, fun hin => hbody _ hin hx⟩
  intro x hx
  rcases List.mem_cons.mp hx with rfl | hx
  · exact hout x hs
  · rw [List.mem_singleton.mp hx]
    exact hout e' hs'

theorem mem_backEdges {g : Graph} {e : Edge} (h : e ∈ g.backEdges) :
    e ∈ g.edges ∧ ∃ node ∈ g.nodes, node.kind = .loop ∧ e.target = node.id := by
  simp only [backEdges, List.mem_flatMap, List.mem_filter, incoming, decide_eq_true_eq,
    beq_iff_eq] at h
  obtain ⟨node, ⟨hnode, hkind⟩, ⟨he, ht⟩, _⟩ := h
  exact ⟨he, node, hnode, hkind, ht⟩

theorem mem_forwardEdges {g : Graph} (hnodup : (g.edges.map (·.id)).Nodup) {e : Edge} :
    e ∈ g.forwardEdges ↔ e ∈ g.edges ∧ e ∉ g.backEdges ∧ g.Reached e.source := by
  have hreached : e.source ∈ reachable g.edges (g.entries.map (·.id)) ↔ g.Reached e.source :=
    mem_reachable
  simp only [forwardEdges, List.mem_filter, Bool.and_eq_true, Bool.not_eq_true',
    List.contains_eq_mem, decide_eq_true_eq, decide_eq_false_iff_not, hreached]
  refine and_congr_right fun he => and_congr_left fun _ => not_congr ⟨fun hid => ?_, fun hb => ?_⟩
  · obtain ⟨b, hb, hid⟩ := List.mem_map.mp hid
    exact List.inj_on_of_nodup_map hnodup (mem_backEdges hb).1 he hid ▸ hb
  · exact List.mem_map_of_mem hb

theorem mem_merges_congr {g g' : Graph} (hnodup : (g.edges.map (·.id)).Nodup)
    (hnodup' : (g'.edges.map (·.id)).Nodup)
    (h : ∀ e, e ∈ g.forwardEdges ↔ e ∈ g'.forwardEdges) {id : Text} :
    id ∈ g.merges ↔ id ∈ g'.merges := by
  have hperm : g.forwardEdges.Perm g'.forwardEdges :=
    (List.perm_ext_iff_of_nodup (hnodup.of_map.filter _) (hnodup'.of_map.filter _)).mpr h
  have htargets := hperm.map Edge.target
  simp only [merges, List.mem_filter, List.mem_eraseDups, htargets.mem_iff, htargets.count_eq]

/-- An edge from a node that is reached is a forward edge, or it ends at a loop. -/
theorem Sound.forward_or_loop {g : Graph} (hg : g.Sound) {e : Edge} (he : e ∈ g.edges)
    (hs : g.Reached e.source) :
    e ∈ g.forwardEdges ∨ ∃ node, g.node? e.target = some node ∧ node.kind = .loop := by
  by_cases hback : e ∈ g.backEdges
  · obtain ⟨_, node, hnode, hkind, ht⟩ := mem_backEdges hback
    exact Or.inr ⟨node, ht ▸ hg.node?_id hnode, hkind⟩
  · exact Or.inl ((mem_forwardEdges hg.edges_nodup).mpr ⟨he, hback, hs⟩)

theorem mem_merges {g : Graph} {e e' : Edge} (he : e ∈ g.forwardEdges) (he' : e' ∈ g.forwardEdges)
    (hne : e ≠ e') (ht : e'.target = e.target) : e.target ∈ g.merges := by
  simp only [merges, List.mem_filter, List.mem_eraseDups, decide_eq_true_eq]
  refine ⟨List.mem_map_of_mem he, ?_⟩
  have hsub : [e, e'].Subperm g.forwardEdges := by
    apply List.subperm_of_subset
    · simp [hne]
    · simp [he, he']
  obtain ⟨both, hperm, hsub⟩ := hsub
  have hle := (hsub.map Edge.target).count_le e.target
  have htwo : ([e, e'].map Edge.target).count e.target = 2 := by simp [ht]
  rwa [(hperm.map Edge.target).count_eq, htwo] at hle

theorem HiddenMerge.isLoop {g : Graph} (hg : g.Sound) {head : Text} (h : g.HiddenMerge head) :
    ∃ node, g.node? head = some node ∧ node.kind = .loop := by
  obtain ⟨hmerge, e, he, e', he', rfl, ht, harm, hs, hs'⟩ := h
  rcases hg.forward_or_loop he hs.reached with hf | hloop
  · rcases hg.forward_or_loop he' hs'.reached with hf' | hloop
    · exact absurd (mem_merges hf hf' (fun heq => harm (congrArg g.arm heq)) ht) hmerge
    · exact ht ▸ hloop
  · exact hloop

end WorkflowCompiler.Graph
