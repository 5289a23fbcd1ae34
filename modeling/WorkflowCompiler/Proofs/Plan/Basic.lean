import Mathlib
import WorkflowCompiler.Proofs.Resolution.Arms
import WorkflowCompiler.Validation.Basic

/-! # Plans

A plan says how a workflow is structured. Steps and loops follow one another, and the last node of a
chain may be a container with a chain in every arm. In the graph of a plan each node is wired to the
first node of every arm and to the one that comes next. Where a chain ends inside the body of a loop,
a wire goes back to the head of that loop instead.
-/
namespace WorkflowCompiler

/-- Nothing more, or a node with the plans of its arms and the plan with which its chain goes on. -/
inductive Plan where
  | done
  | run (node : Node) (arms : List Plan) (rest : Plan)

/-- An edge by the node and the port that it leaves and the node that it enters. -/
structure Wire where
  source : Text
  port : Text
  target : Text

namespace Node

def memberPort (i : Nat) : Text := "out" ++ toString (i + 1)

def armPorts (node : Node) (count : Nat) : List Text :=
  match node.kind with
  | .loop => ["loop"]
  | .sequential => [defaultPort]
  | .conditional => ["true", "false"]
  | .router => (routeLabels node.config).map (·.1)
  | .parallel => (List.range count).map memberPort
  | _ => []

def nextPort? (node : Node) : Option Text :=
  match node.kind with
  | .sequential | .parallel | .conditional | .router => none
  | .loop => some "exit"
  | kind => some ((kind.outcomePorts?.map (·.1)).getD defaultPort)

/-- Where open ends in the arms of a node lead, given where its own open end leads. -/
def inside (node : Node) (back : Option Text) : Option Text :=
  if node.kind = .loop then some node.id else back

end Node

namespace Plan

theorem induction {motive : Plan → Prop} (done : motive .done)
    (run : ∀ node arms rest, (∀ arm ∈ arms, motive arm) → motive rest →
      motive (.run node arms rest)) (plan : Plan) : motive plan := by
  refine @Plan.rec motive (fun arms => ∀ arm ∈ arms, motive arm) done run ?_ ?_ plan
  · intro arm harm
    exact absurd harm List.not_mem_nil
  · intro first others hfirst hothers arm harm
    rcases List.mem_cons.mp harm with rfl | harm
    · exact hfirst
    · exact hothers arm harm

def first : Plan → Option Text
  | .done => none
  | .run node _ _ => some node.id

mutual

def nodes : Plan → List Node
  | .done => []
  | .run node arms rest => node :: (nodesAll arms ++ rest.nodes)

def nodesAll : List Plan → List Node
  | [] => []
  | arm :: arms => arm.nodes ++ nodesAll arms

end

def ids (plan : Plan) : List Text := plan.nodes.map (·.id)

def legs (node : Node) (arms : List Plan) : List (Text × Plan) :=
  (node.armPorts arms.length).zip arms

def leaving (node : Node) (arms : List Plan) (rest : Plan) (back : Option Text) : List Wire :=
  let ways := (legs node arms).map (fun leg => (leg.1, leg.2.first.or (node.inside back)))
    ++ node.nextPort?.toList.map (fun port => (port, rest.first.or back))
  ways.filterMap fun way => way.2.map (⟨node.id, way.1, ·⟩)

mutual

/-- The wires of a plan whose open ends lead back to a given loop, if there is one. -/
def wires (back : Option Text) : Plan → List Wire
  | .done => []
  | .run node arms rest =>
    leaving node arms rest back ++ (wiresAll (node.inside back) arms ++ rest.wires back)

def wiresAll (back : Option Text) : List Plan → List Wire
  | [] => []
  | arm :: arms => arm.wires back ++ wiresAll back arms

end

/-- How arms and rest go with the kind of a node. Only steps and loops are followed by more. -/
inductive Fits (node : Node) : List Plan → Plan → Prop
  | step {rest : Plan} : node.kind.isContainer = false → Fits node [] rest
  | loop {body rest : Plan} : node.kind = .loop → Fits node [body] rest
  | sequential {inner : Plan} : node.kind = .sequential → Fits node [inner] .done
  | conditional {onTrue onFalse : Plan} : node.kind = .conditional →
    Fits node [onTrue, onFalse] .done
  | router {arms : List Plan} : node.kind = .router →
    arms.length = (routeLabels node.config).length → Fits node arms .done
  | parallel {arms : List Plan} : node.kind = .parallel → arms ≠ [] →
    (∀ arm ∈ arms, arm ≠ .done) →
    arms.length ≤ countOr defaultBranchCount (node.config.get "branchCount") →
    Fits node arms .done

inductive Structured : Plan → Prop
  | done : Structured .done
  | run {node : Node} {arms : List Plan} {rest : Plan} : Fits node arms rest →
    (∀ arm ∈ arms, Structured arm) → Structured rest → Structured (.run node arms rest)

/-- A plan behind an input node can be run. Steps are neither inputs nor outputs, and ids are
distinct. Configurations are valid, and no choice in them is left as an empty text. -/
structure WellFormed (input : Node) (plan : Plan) : Prop where
  structured : plan.Structured
  entry : input.kind = .input
  steps : ∀ n ∈ plan.nodes, n.kind ≠ .input ∧ n.kind ≠ .output
  ids_nodup : ((input :: plan.nodes).map (·.id)).Nodup
  valid : ∀ n ∈ input :: plan.nodes, Validation.checkNode n = .ok []
  chosen : ∀ n ∈ input :: plan.nodes, (n.kind = .loop → n.config.get "loopType" ≠ .str []) ∧
    (n.kind = .parallel → n.config.get "joinStrategy" ≠ .str [])

end Plan

def Graph.wire? (g : Graph) (e : Edge) : Option Wire :=
  (g.portOf? e).map fun port => ⟨e.source, port, e.target⟩

def Graph.wires (g : Graph) : List Wire := g.edges.filterMap g.wire?

/-- A graph has the nodes and the wires of a plan behind an input node. The edges to the members of a
parallel container are in the order of the members. -/
structure Encodes (g : Graph) (input : Node) (plan : Plan) : Prop extends
    plan.WellFormed input where
  nodes : g.nodes.Perm (input :: plan.nodes)
  edge_ids : (g.edges.map (·.id)).Nodup
  edges : (g.edges.map g.wire?).Perm (((Plan.run input [] plan).wires none).map some)
  enters : ∀ e ∈ g.edges, e.toPort = defaultPort
  ordered : ∀ e ∈ g.edges, ∀ e' ∈ g.edges, e.source = e'.source → ∀ i j, i < j →
    g.portOf? e = some (Node.memberPort i) → g.portOf? e' = some (Node.memberPort j) →
    Text.le e.id e'.id

namespace Plan

section Equations
variable {node : Node} {arms : List Plan} {rest : Plan} {back : Option Text}

theorem nodesAll_eq (arms : List Plan) : nodesAll arms = arms.flatMap nodes := by
  induction arms with
  | nil => rfl
  | cons arm arms ih => rw [nodesAll, ih, List.flatMap_cons]

theorem wiresAll_eq (arms : List Plan) : wiresAll back arms = arms.flatMap (wires back) := by
  induction arms with
  | nil => rfl
  | cons arm arms ih => rw [wiresAll, ih, List.flatMap_cons]

theorem nodes_run : (run node arms rest).nodes = node :: (arms.flatMap nodes ++ rest.nodes) := by
  rw [nodes, nodesAll_eq]

theorem ids_run : (run node arms rest).ids = node.id :: (arms.flatMap ids ++ rest.ids) := by
  rw [ids, nodes_run, List.map_cons, List.map_append, List.map_flatMap]
  rfl

theorem mem_ids_run {x : Text} : x ∈ (run node arms rest).ids ↔
    x = node.id ∨ (∃ arm ∈ arms, x ∈ arm.ids) ∨ x ∈ rest.ids := by
  rw [ids_run, List.mem_cons, List.mem_append, List.mem_flatMap]

theorem mem_wires_run {w : Wire} : w ∈ (run node arms rest).wires back ↔
    w ∈ leaving node arms rest back ∨ (∃ arm ∈ arms, w ∈ arm.wires (node.inside back)) ∨
      w ∈ rest.wires back := by
  rw [wires, wiresAll_eq, List.mem_append, List.mem_append, List.mem_flatMap]

theorem mem_leaving {w : Wire} : w ∈ leaving node arms rest back ↔ w.source = node.id ∧
    ((∃ arm, (w.port, arm) ∈ legs node arms ∧ arm.first.or (node.inside back) = some w.target) ∨
      (node.nextPort? = some w.port ∧ rest.first.or back = some w.target)) := by
  obtain ⟨source, port, target⟩ := w
  simp only [leaving, List.mem_filterMap, List.mem_append, List.mem_map, Option.mem_toList,
    Option.map_eq_some_iff, Wire.mk.injEq]
  constructor
  · rintro ⟨way, ⟨leg, hleg, rfl⟩ | ⟨next, hnext, rfl⟩, t, ht, rfl, rfl, rfl⟩
    · exact ⟨rfl, Or.inl ⟨leg.2, hleg, ht⟩⟩
    · exact ⟨rfl, Or.inr ⟨hnext, ht⟩⟩
  · rintro ⟨rfl, ⟨arm, hleg, ht⟩ | ⟨hnext, ht⟩⟩
    · exact ⟨_, Or.inl ⟨_, hleg, rfl⟩, target, ht, rfl, rfl, rfl⟩
    · exact ⟨_, Or.inr ⟨port, hnext, rfl⟩, target, ht, rfl, rfl, rfl⟩

theorem mem_arms_of_leg {leg : Text × Plan} (h : leg ∈ legs node arms) : leg.2 ∈ arms :=
  (List.of_mem_zip h).2

theorem first_mem {plan : Plan} {x : Text} (h : plan.first = some x) : x ∈ plan.ids := by
  cases plan with
  | done => cases h
  | run node arms rest =>
    cases h
    exact mem_ids_run.mpr (Or.inl rfl)

theorem exists_first {plan : Plan} {x : Text} (h : x ∈ plan.ids) : ∃ s, plan.first = some s := by
  cases plan with
  | done => exact absurd h List.not_mem_nil
  | run node arms rest => exact ⟨node.id, rfl⟩

theorem first_or {plan : Plan} {x : Text} (h : plan.first.or back = some x) :
    plan.first = some x ∨ plan = .done ∧ back = some x := by
  cases plan with
  | done => exact Or.inr ⟨rfl, h⟩
  | run node arms rest => exact Or.inl h

end Equations

theorem source_mem {plan : Plan} {back : Option Text} {w : Wire} (h : w ∈ plan.wires back) :
    w.source ∈ plan.ids := by
  induction plan using Plan.induction generalizing back with
  | done => cases h
  | run node arms rest harms hrest =>
    rw [mem_ids_run]
    rcases mem_wires_run.mp h with h | ⟨arm, harm, h⟩ | h
    · exact Or.inl (mem_leaving.mp h).1
    · exact Or.inr (Or.inl ⟨arm, harm, harms arm harm h⟩)
    · exact Or.inr (Or.inr (hrest h))

theorem target_mem {plan : Plan} {back : Option Text} {w : Wire} (h : w ∈ plan.wires back) :
    w.target ∈ plan.ids ∨ back = some w.target := by
  induction plan using Plan.induction generalizing back with
  | done => cases h
  | run node arms rest harms hrest =>
    have hinside : node.inside back = some w.target →
        w.target ∈ (run node arms rest).ids ∨ back = some w.target := by
      intro hin
      unfold Node.inside at hin
      split at hin
      · exact Or.inl (mem_ids_run.mpr (Or.inl (Option.some.inj hin).symm))
      · exact Or.inr hin
    rcases mem_wires_run.mp h with h | ⟨arm, harm, h⟩ | h
    · rcases (mem_leaving.mp h).2 with ⟨arm, hleg, ht⟩ | ⟨_, ht⟩
      · rcases first_or ht with ht | ⟨_, ht⟩
        · exact Or.inl (mem_ids_run.mpr (Or.inr (Or.inl ⟨arm, mem_arms_of_leg hleg, first_mem ht⟩)))
        · exact hinside ht
      · rcases first_or ht with ht | ⟨_, ht⟩
        · exact Or.inl (mem_ids_run.mpr (Or.inr (Or.inr (first_mem ht))))
        · exact Or.inr ht
    · rcases harms arm harm h with ht | ht
      · exact Or.inl (mem_ids_run.mpr (Or.inr (Or.inl ⟨arm, harm, ht⟩)))
      · exact hinside ht
    · exact (hrest h).imp_left fun ht => mem_ids_run.mpr (Or.inr (Or.inr ht))

theorem parts_disjoint {node : Node} {arms : List Plan} {rest : Plan}
    (h : (run node arms rest).ids.Nodup) :
    (∀ arm ∈ arms, node.id ∉ arm.ids) ∧ node.id ∉ rest.ids ∧
    (∀ arm ∈ arms, ∀ x ∈ arm.ids, x ∉ rest.ids) ∧
    arms.Pairwise (fun a b => a.ids.Disjoint b.ids) := by
  rw [ids_run, List.nodup_cons, List.mem_append, List.mem_flatMap, List.nodup_append] at h
  obtain ⟨hnode, harms, _, hapart⟩ := h
  refine ⟨?_, fun hmem => hnode (Or.inr hmem), ?_, (List.nodup_flatMap.mp harms).2⟩
  · intro arm harm hmem
    exact hnode (Or.inl ⟨arm, harm, hmem⟩)
  · intro arm harm x hx hrest
    exact hapart x (List.mem_flatMap.mpr ⟨arm, harm, hx⟩) x hrest rfl

theorem parts_nodup {node : Node} {arms : List Plan} {rest : Plan}
    (h : (run node arms rest).ids.Nodup) : (∀ arm ∈ arms, arm.ids.Nodup) ∧ rest.ids.Nodup := by
  rw [ids_run, List.nodup_cons, List.nodup_append] at h
  exact ⟨(List.nodup_flatMap.mp h.2.1).1, h.2.2.1⟩

section Ports
variable {node : Node} {arms : List Plan} {rest : Plan}

theorem nextPort?_step (h : node.kind.isContainer = false) :
    node.nextPort? = some ((node.kind.outcomePorts?.map (·.1)).getD defaultPort) := by
  unfold Node.nextPort?
  cases hk : node.kind <;> first | rfl | simp [NodeKind.isContainer, hk] at h

theorem armPorts_step (h : node.kind.isContainer = false) (count : Nat) :
    node.armPorts count = [] := by
  unfold Node.armPorts
  cases hk : node.kind <;> first | rfl | simp [NodeKind.isContainer, hk] at h

theorem memberPort_injective {i j : Nat} (h : Node.memberPort i = Node.memberPort j) : i = j := by
  have hnumeral : Text.ofString (toString (i + 1)) = Text.ofString (toString (j + 1)) := by
    simpa [Node.memberPort] using h
  have := Nat.repr_inj.mp (Text.ofString_injective hnumeral)
  omega

theorem Fits.length_armPorts (h : Fits node arms rest) :
    (node.armPorts arms.length).length = arms.length := by
  cases h with
  | step hk => simp [armPorts_step hk]
  | router hk hlength => simp [Node.armPorts, hk, hlength]
  | _ => simp [Node.armPorts, *]

theorem Fits.legs_map_fst (h : Fits node arms rest) :
    (legs node arms).map (·.1) = node.armPorts arms.length :=
  List.map_fst_zip h.length_armPorts.le

theorem Fits.legs_map_snd (h : Fits node arms rest) : (legs node arms).map (·.2) = arms :=
  List.map_snd_zip h.length_armPorts.ge

theorem Fits.exists_leg (h : Fits node arms rest) {arm : Plan} (harm : arm ∈ arms) :
    ∃ port, (port, arm) ∈ legs node arms := by
  rw [← h.legs_map_snd] at harm
  obtain ⟨leg, hleg, rfl⟩ := List.mem_map.mp harm
  exact ⟨leg.1, hleg⟩

theorem Fits.ports_nodup (h : Fits node arms rest) :
    (node.armPorts arms.length ++ node.nextPort?.toList).Nodup := by
  cases h with
  | step hk => simp [armPorts_step hk, nextPort?_step hk]
  | loop hk =>
    simp only [Node.armPorts, Node.nextPort?, hk]
    decide
  | sequential hk => simp [Node.armPorts, Node.nextPort?, hk]
  | conditional hk =>
    simp only [Node.armPorts, Node.nextPort?, hk]
    decide
  | router hk _ => simpa [Node.armPorts, Node.nextPort?, hk] using routeLabels_nodup node.config
  | parallel hk _ _ _ =>
    simp only [Node.armPorts, Node.nextPort?, hk, Option.toList_none, List.append_nil]
    exact List.nodup_range.map fun i j => memberPort_injective

theorem Fits.rest_eq_done (h : Fits node arms rest) (hnext : node.nextPort? = none) :
    rest = .done := by
  cases h with
  | step hk => simp [nextPort?_step hk] at hnext
  | loop hk => simp [Node.nextPort?, hk] at hnext
  | _ => rfl

theorem Fits.eq_nil (h : Fits node arms rest) (hk : node.kind.isContainer = false) : arms = [] := by
  cases h with
  | step _ => rfl
  | _ => simp_all [NodeKind.isContainer]

theorem Fits.eq_body (h : Fits node arms rest) (hk : node.kind = .loop) :
    ∃ body, arms = [body] := by
  cases h with
  | loop _ => exact ⟨_, rfl⟩
  | step hstep => simp [hk, NodeKind.isContainer] at hstep
  | _ => simp_all

theorem Fits.leaving_nodup (h : Fits node arms rest) (back : Option Text) :
    (leaving node arms rest back).Nodup := by
  have hports := h.ports_nodup
  rw [← h.legs_map_fst] at hports
  unfold leaving
  refine List.Nodup.filterMap ?_ (List.Nodup.of_map (·.1) ?_)
  · rintro ⟨port, target⟩ ⟨port', target'⟩ w hw hw'
    obtain ⟨t, rfl, rfl⟩ := Option.map_eq_some_iff.mp hw
    obtain ⟨t', rfl, heq⟩ := Option.map_eq_some_iff.mp hw'
    simp only [Wire.mk.injEq, true_and] at heq
    rw [heq.1, heq.2]
  · simpa [List.map_map, Function.comp_def] using hports

end Ports

theorem Structured.wires_nodup {plan : Plan} (h : plan.Structured) (hnodup : plan.ids.Nodup)
    (back : Option Text) : (plan.wires back).Nodup := by
  induction h generalizing back with
  | done => exact List.nodup_nil
  | @run node arms rest hfits harms hrest iharms ihrest =>
    obtain ⟨hnode, hnodeRest, hrest, hapart⟩ := parts_disjoint hnodup
    obtain ⟨harmsNodup, hrestNodup⟩ := parts_nodup hnodup
    have harmsWires : (arms.flatMap (wires (node.inside back))).Nodup := by
      refine List.nodup_flatMap.mpr ⟨fun arm harm => iharms arm harm (harmsNodup arm harm) _, ?_⟩
      refine hapart.imp fun hdisjoint w hw hw' => ?_
      exact hdisjoint (source_mem hw) (source_mem hw')
    rw [wires, wiresAll_eq, List.nodup_append, List.nodup_append]
    refine ⟨hfits.leaving_nodup back, ⟨harmsWires, ihrest hrestNodup back, ?_⟩, ?_⟩
    · rintro w hw _ hw' rfl
      obtain ⟨arm, harm, hw⟩ := List.mem_flatMap.mp hw
      exact hrest arm harm _ (source_mem hw) (source_mem hw')
    · rintro w hw _ hw' rfl
      have hsource := (mem_leaving.mp hw).1
      rcases List.mem_append.mp hw' with hw' | hw'
      · obtain ⟨arm, harm, hw'⟩ := List.mem_flatMap.mp hw'
        exact hnode arm harm (hsource ▸ source_mem hw')
      · exact hnodeRest (hsource ▸ source_mem hw')

section Whole
variable {input : Node} {plan : Plan} (h : plan.WellFormed input)

theorem nodes_input : (run input [] plan).nodes = input :: plan.nodes := by
  rw [nodes_run, List.flatMap_nil, List.nil_append]

include h

theorem WellFormed.structured_run : (Plan.run input [] plan).Structured :=
  .run (.step (by simp [h.entry, NodeKind.isContainer])) (by simp) h.structured

theorem WellFormed.ne_output : ∀ n ∈ (Plan.run input [] plan).nodes, n.kind ≠ .output := by
  intro n hn
  rcases List.mem_cons.mp (nodes_input ▸ hn) with rfl | hn
  · simp [h.entry]
  · exact (h.steps n hn).2

theorem WellFormed.ids_nodup_run : (Plan.run input [] plan).ids.Nodup := by
  rw [ids, nodes_input]
  exact h.ids_nodup

end Whole

end Plan

namespace Graph

theorem mem_wires {g : Graph} {w : Wire} : w ∈ g.wires ↔
    ∃ e ∈ g.edges, e.source = w.source ∧ g.portOf? e = some w.port ∧ e.target = w.target := by
  obtain ⟨source, port, target⟩ := w
  simp only [wires, wire?, List.mem_filterMap, Option.map_eq_some_iff, Wire.mk.injEq]
  constructor
  · rintro ⟨e, he, p, hp, rfl, rfl, rfl⟩
    exact ⟨e, he, rfl, hp, rfl⟩
  · rintro ⟨e, he, rfl, hp, rfl⟩
    exact ⟨e, he, port, hp, rfl, rfl, rfl⟩

end Graph

end WorkflowCompiler
