import Mathlib
import WorkflowCompiler.Proofs.Graph.Reach
import WorkflowCompiler.Proofs.Resolution.Run
import WorkflowCompiler.Proofs.Validation.Sound

/-! # Strands and edges

The strands of a node are its edges, put together by the arms to which their ports belong. An edge
is guarded when its port leads into an arm that is not always run.
-/
namespace WorkflowCompiler

namespace Graph

def wired (g : Graph) (id port : Text) : Bool :=
  g.edges.any fun e => e.source == id && g.portOf? e == some port

/-- Whether a port leads into an arm that is not always run: every arm of a conditional or a router,
the body of a loop, and both arms of an outcome whose failure is provided for. -/
def isGuarded (g : Graph) (node : Node) (port : Text) : Bool :=
  match node.kind with
  | .conditional | .router => true
  | .loop => port == "loop"
  | kind => kind.outcomePorts?.any fun ports => g.wired node.id ports.2

/-- The guards of what a port leads to. -/
def guardsOf (g : Graph) (node : Node) (port : Text) : List Guard :=
  if g.isGuarded node port then [(node.id, port)] else []

/-- The ports by which a node is left. A failure that is not provided for leads nowhere. -/
def ports (g : Graph) (node : Node) : List Text :=
  match node.kind with
  | .conditional => ["true", "false"]
  | .router => (routeLabels node.config).map (·.1)
  | .loop => ["loop", "exit"]
  | kind =>
    match kind.outcomePorts? with
    | none => [defaultPort]
    | some (success, failure) => if g.wired node.id failure then [success, failure] else [success]

/-- The guarded arm into which an edge leads, if there is one. -/
def guard? (g : Graph) (e : Edge) : Option Guard := do
  let node ← g.node? e.source
  let port ← node.kind.effectivePort? e.sourcePort
  if g.isGuarded node port then some (node.id, port) else none

theorem portOf?_eq {g : Graph} {e : Edge} {node : Node} (h : g.node? e.source = some node) :
    g.portOf? e = node.kind.effectivePort? e.sourcePort := by
  simp [portOf?, h]

theorem guard?_toList {g : Graph} {e : Edge} {node : Node} {port : Text}
    (h : g.node? e.source = some node) (hp : g.portOf? e = some port) :
    (g.guard? e).toList = g.guardsOf node port := by
  rw [portOf?_eq h] at hp
  simp only [guard?, h, hp, guardsOf, Option.bind_eq_bind, Option.bind_some]
  split <;> rfl

theorem guard?_parallel {g : Graph} {e : Edge} {node : Node} (h : g.node? e.source = some node)
    (hk : node.kind = .parallel) : g.guard? e = none := by
  simp [guard?, h, isGuarded, hk, NodeKind.outcomePorts?]

end Graph

namespace Resolution

theorem mem_targets_ofGraph {g : Graph} {id port t : Text} :
    t ∈ (Facts.ofGraph g).targets id port ↔
      ∃ e ∈ g.edges, e.source = id ∧ g.portOf? e = some port ∧ e.target = t := by
  simp only [Facts.targets, Facts.ofGraph, sortEdges, List.mem_eraseDups, List.mem_map,
    List.mem_filter, (List.mergeSort_perm _ _).mem_iff, Bool.and_eq_true, beq_iff_eq]
  constructor
  · rintro ⟨_, ⟨⟨e, he, rfl⟩, hs, hp⟩, ht⟩
    exact ⟨e, he, hs, hp, ht⟩
  · rintro ⟨e, he, hs, hp, ht⟩
    exact ⟨_, ⟨⟨e, he, rfl⟩, hs, hp⟩, ht⟩

theorem mem_allTargets_ofGraph {g : Graph} {id t : Text} :
    t ∈ (Facts.ofGraph g).allTargets id ↔ ∃ e ∈ g.edges, e.source = id ∧ e.target = t := by
  simp only [Facts.allTargets, Facts.ofGraph, sortEdges, List.mem_eraseDups, List.mem_map,
    List.mem_filter, (List.mergeSort_perm _ _).mem_iff, beq_iff_eq]
  constructor
  · rintro ⟨_, ⟨⟨e, he, rfl⟩, hs⟩, ht⟩
    exact ⟨e, he, hs, ht⟩
  · rintro ⟨e, he, hs, ht⟩
    exact ⟨_, ⟨⟨e, he, rfl⟩, hs⟩, ht⟩

theorem isEmpty_targets_ofGraph {g : Graph} {id port : Text} :
    ((Facts.ofGraph g).targets id port).isEmpty = !g.wired id port := by
  rw [Bool.eq_iff_iff]
  simp only [List.isEmpty_iff, List.eq_nil_iff_forall_not_mem, mem_targets_ofGraph, Graph.wired,
    Bool.not_eq_true', List.any_eq_false, Bool.and_eq_true, beq_iff_eq]
  grind

/-- The strands of a node belong to no merge point, except that its chain may go on. Only the body of
a loop has a further head to stop at. -/
theorem strand_context {facts : Facts} {owner : Option Text} {stop : List Text} {node : Node}
    {s : Strand} (hs : s ∈ strands facts owner stop node) :
    (s.owner = none ∨ s.owner = owner) ∧
      (s.stop = stop ∨ s.stop = node.id :: stop ∧ s.starts = facts.targets node.id "loop") := by
  rcases List.mem_append.mp hs with hs | hs
  · suffices h : s.owner = none ∧
        (s.stop = stop ∨ s.stop = node.id :: stop ∧ s.starts = facts.targets node.id "loop") from
      ⟨Or.inl h.1, h.2⟩
    cases hc : node.kind.isContainer with
    | false =>
      rw [limbs_step _ _ hc] at hs
      split at hs
      · exact absurd hs List.not_mem_nil
      next success failure hout =>
        split at hs
        · exact absurd hs List.not_mem_nil
        · simp only [List.mem_cons, List.not_mem_nil, or_false] at hs
          rcases hs with rfl | rfl <;> exact ⟨rfl, Or.inl rfl⟩
    | true =>
      cases hk : node.kind <;> simp only [hk, NodeKind.isContainer, Bool.false_eq_true] at hc
      all_goals
        simp only [limbs, hk, List.mem_cons, List.mem_map, List.not_mem_nil, or_false] at hs
      case sequential => exact hs ▸ ⟨rfl, Or.inl rfl⟩
      case parallel =>
        obtain ⟨_, _, rfl⟩ := hs
        exact ⟨rfl, Or.inl rfl⟩
      case conditional => rcases hs with rfl | rfl <;> exact ⟨rfl, Or.inl rfl⟩
      case loop => exact hs ▸ ⟨rfl, Or.inr ⟨rfl, rfl⟩⟩
      case router =>
        obtain ⟨_, _, rfl⟩ := hs
        exact ⟨rfl, Or.inl rfl⟩
  · rw [List.mem_singleton.mp hs, continuation]
    refine ⟨?_, Or.inl rfl⟩
    dsimp only
    split
    · exact Or.inr rfl
    · exact Or.inl rfl

section Edges
variable {g : Graph} {node : Node}

/-- Apart from a parallel container, a node has a strand for every port it is left by, and at most
an empty one beside them. -/
theorem strands_eq_ports (hk : node.kind ≠ .parallel) (owner : Option Text) (stop : List Text) :
    ∃ extra : List (List Guard × List Text), (∀ x ∈ extra, x = ([], [])) ∧
      (strands (.ofGraph g) owner stop node).map (fun s => (s.guards, s.starts)) =
        (g.ports node).map (fun port =>
          (g.guardsOf node port, (Facts.ofGraph g).targets node.id port)) ++ extra := by
  cases hc : node.kind.isContainer with
  | true =>
    cases hk' : node.kind <;> simp only [hk', NodeKind.isContainer, Bool.false_eq_true] at hc
    case parallel => exact absurd hk' hk
    case loop =>
      refine ⟨[], by simp, ?_⟩
      have hexit : ("exit" : Text) ≠ "loop" := by decide
      simp [strands, limbs, nexts, continuation, Graph.ports, Graph.guardsOf, Graph.isGuarded, hk',
        hexit]
    all_goals
      refine ⟨[([], [])], by simp, ?_⟩
      simp [strands, limbs, nexts, continuation, Graph.ports, Graph.guardsOf, Graph.isGuarded, hk',
        NodeKind.outcomePorts?]
  | false =>
    have hports : g.ports node = match node.kind.outcomePorts? with
        | none => [defaultPort]
        | some (success, failure) =>
          if g.wired node.id failure then [success, failure] else [success] := by
      unfold Graph.ports
      cases hk' : node.kind <;> first | rfl | simp [NodeKind.isContainer, hk'] at hc
    have hguarded : ∀ port, g.isGuarded node port =
        node.kind.outcomePorts?.any fun ports => g.wired node.id ports.2 := by
      intro port
      unfold Graph.isGuarded
      cases hk' : node.kind <;> first | rfl | simp [NodeKind.isContainer, hk'] at hc
    simp only [strands, limbs_step _ _ hc, continuation, nexts_step _ hc, hports, Graph.guardsOf,
      hguarded, isEmpty_targets_ofGraph]
    cases hout : node.kind.outcomePorts? with
    | none => exact ⟨[], by simp, by simp⟩
    | some ports =>
      cases hw : g.wired node.id ports.2 with
      | false => exact ⟨[], by simp, by simp [hw]⟩
      | true => exact ⟨[([], [])], by simp, by simp [hw]⟩

/-- The strands of a parallel container are its members, one for each successor. -/
theorem strands_eq_members (hk : node.kind = .parallel) (owner : Option Text) (stop : List Text) :
    (strands (.ofGraph g) owner stop node).map (fun s => (s.guards, s.starts)) =
      ((Facts.ofGraph g).allTargets node.id).map (fun t => ([], [t])) ++ [([], [])] := by
  simp [strands, limbs, nexts, continuation, hk]

/-- Every chain of a strand begins at the end of an edge, and the guards of the strand are those
of the edge. -/
theorem exists_edge_of_mem_strands (hnode : g.node? node.id = some node) {owner : Option Text}
    {stop : List Text} {s : Strand} (hs : s ∈ strands (.ofGraph g) owner stop node) {t : Text}
    (ht : t ∈ s.starts) :
    ∃ e ∈ g.edges, e.source = node.id ∧ e.target = t ∧ (g.guard? e).toList = s.guards := by
  have hmem : (s.guards, s.starts) ∈
      (strands (.ofGraph g) owner stop node).map (fun s => (s.guards, s.starts)) :=
    List.mem_map_of_mem hs
  by_cases hk : node.kind = .parallel
  · rw [strands_eq_members hk] at hmem
    rcases List.mem_append.mp hmem with hmem | hmem
    · obtain ⟨t', ht', heq⟩ := List.mem_map.mp hmem
      obtain ⟨hguards, hstarts⟩ := Prod.mk.inj heq
      rw [← hstarts, List.mem_singleton] at ht
      obtain ⟨e, he, hsource, htarget⟩ := mem_allTargets_ofGraph.mp (ht ▸ ht')
      exact ⟨e, he, hsource, htarget, by simp [g.guard?_parallel (hsource ▸ hnode) hk, ← hguards]⟩
    · simp_all
  · obtain ⟨extra, hextra, heq⟩ := strands_eq_ports (g := g) hk owner stop
    rw [heq] at hmem
    rcases List.mem_append.mp hmem with hmem | hmem
    · obtain ⟨port, hport, heq⟩ := List.mem_map.mp hmem
      obtain ⟨hguards, hstarts⟩ := Prod.mk.inj heq
      obtain ⟨e, he, hsource, hp, htarget⟩ := mem_targets_ofGraph.mp (hstarts ▸ ht)
      exact ⟨e, he, hsource, htarget, hguards ▸ Graph.guard?_toList (hsource ▸ hnode) hp⟩
    · rw [(Prod.mk.inj (hextra _ hmem)).2] at ht
      exact absurd ht List.not_mem_nil

/-- A port of a node by which an edge leaves is one of those by which the node is left. -/
theorem mem_ports (hk : node.kind ≠ .parallel) {port : Text}
    (hp : port ∈ node.kind.outputNames node.config) (hw : g.wired node.id port) :
    port ∈ g.ports node := by
  simp only [NodeKind.outputNames, NodeKind.outputs] at hp
  simp only [Graph.ports]
  cases hk' : node.kind <;> simp_all [NodeKind.outcomePorts?, Function.comp_def]
  all_goals
    rcases hp with rfl | rfl
    · split <;> simp
    · simp [hw]

theorem exists_strand_of_edge (hg : g.Sound) (hnode : g.node? node.id = some node) {e : Edge}
    (he : e ∈ g.edges) (hs : e.source = node.id) (owner : Option Text) (stop : List Text) :
    ∃ s ∈ strands (.ofGraph g) owner stop node,
      e.target ∈ s.starts ∧ s.guards = (g.guard? e).toList := by
  have hmap : ∀ {guards starts}, (guards, starts) ∈
      (strands (.ofGraph g) owner stop node).map (fun s => (s.guards, s.starts)) →
      e.target ∈ starts → guards = (g.guard? e).toList →
      ∃ s ∈ strands (.ofGraph g) owner stop node,
        e.target ∈ s.starts ∧ s.guards = (g.guard? e).toList := by
    intro guards starts hmem ht hguards
    obtain ⟨s, hs, heq⟩ := List.mem_map.mp hmem
    obtain ⟨rfl, rfl⟩ := Prod.mk.inj heq
    exact ⟨s, hs, ht, hguards⟩
  by_cases hk : node.kind = .parallel
  · have ht : e.target ∈ (Facts.ofGraph g).allTargets node.id :=
      mem_allTargets_ofGraph.mpr ⟨e, he, hs, rfl⟩
    refine hmap ?_ (List.mem_singleton_self _) (by rw [Graph.guard?_parallel (hs ▸ hnode) hk, Option.toList_none])
    rw [strands_eq_members hk]
    exact List.mem_append_left _ (List.mem_map.mpr ⟨_, ht, rfl⟩)
  · obtain ⟨source, port, hsource, hp, hout⟩ := hg.leaves e he
    obtain rfl : node = source := Option.some.inj (hnode.symm.trans (hs ▸ hsource))
    rw [← Graph.portOf?_eq hsource] at hp
    have hw : g.wired node.id port :=
      List.any_eq_true.mpr ⟨e, he, by simp [hs, hp]⟩
    obtain ⟨extra, _, heq⟩ := strands_eq_ports (g := g) hk owner stop
    refine hmap ?_ (mem_targets_ofGraph.mpr ⟨e, he, hs, hp, rfl⟩)
      (Graph.guard?_toList (hs ▸ hnode) hp).symm
    rw [heq]
    exact List.mem_append_left _ (List.mem_map.mpr ⟨port, mem_ports hk hout hw, rfl⟩)

theorem Entry.Of.leads {e : Entry} {c : Call} (he : e.Of (.ofGraph g) c) {c' : Call}
    (hc : c' ∈ callsOf e.events) : Graph.Leads g.edges c.start c'.start := by
  obtain ⟨s, hs, hstart, _⟩ := he.call_strand hc
  have hnode : g.node? e.node.id = some e.node := he.node_id ▸ he.node
  obtain ⟨edge, hedge, hsource, htarget, _⟩ := exists_edge_of_mem_strands hnode hs hstart
  exact ⟨edge, hedge, hsource.trans he.node_id, htarget⟩

theorem Entry.Of.exists_call (hg : g.Sound) {e : Entry} {c : Call} (he : e.Of (.ofGraph g) c)
    {t : Text} (hl : Graph.Leads g.edges c.start t) :
    ∃ c' ∈ callsOf e.events, c'.start = t ∧ (c'.stop = c.stop ∨ c'.stop = c.start :: c.stop) := by
  obtain ⟨edge, hedge, hsource, rfl⟩ := hl
  have hid := he.node_id
  have hnode : g.node? e.node.id = some e.node := hid ▸ he.node
  obtain ⟨s, hs, hstart, _⟩ :=
    exists_strand_of_edge hg hnode hedge (hsource.trans hid.symm) c.owner c.stop
  have hstop := (strand_context hs).2
  rw [← he.strands] at hs
  obtain ⟨l, hl, rfl⟩ := List.mem_map.mp hs
  have hj := he.joins l hl
  rw [← hj.starts] at hstart
  obtain ⟨c', hc', htarget⟩ := List.mem_map.mp hstart
  refine ⟨c', he.calls ▸ List.mem_flatMap.mpr ⟨l, hl, hc'⟩, htarget, ?_⟩
  rw [(hj.context c' hc').2]
  exact hstop.imp_right fun h => hid ▸ h.1

end Edges

end Resolution

end WorkflowCompiler
