import Mathlib
import WorkflowCompiler.Block.Basic

/-! # Occurrences in a block

A block unfolds into a tree in which a shared sequence stands at every place that refers to it.
Every occurrence of a node in that tree lies inside a list of guarded arms, the outermost first.
-/
namespace WorkflowCompiler

/-- An arm that is not always run, given by a node and the port that leads into it. -/
abbrev Guard := Text × Text

namespace Block

/-- The node that a block stands for; a plain sequence stands for none. -/
def node? : Block → Option Node
  | .absent => none
  | .leaf _ node | .branch _ node .. | .switch _ node _ | .loop _ node .. => some node
  | .parallel _ container _ _ => some container
  | .sequence _ _ container _ => container

def splitPorts (node : Node) (outcomePort : Option Text) : Text × Text :=
  match outcomePort, node.kind.outcomePorts? with
  | some _, some ports => ports
  | _, _ => ("true", "false")

/-- The children of a block, each with the arm around it if that is guarded. -/
def parts : Block → List (List Guard × Block)
  | .absent | .leaf .. => []
  | .sequence _ items _ _ => items.map ([], ·)
  | .parallel _ _ members _ => members.map ([], ·)
  | .branch _ node _ onTrue onFalse outcomePort =>
    [([(node.id, (splitPorts node outcomePort).1)], onTrue),
      ([(node.id, (splitPorts node outcomePort).2)], onFalse)]
  | .switch _ node routes => routes.map fun route => ([(node.id, route.1.port)], route.2)
  | .loop _ node body _ _ => [([(node.id, "loop")], body)]

/-- A node occurs in the unfolding of a block, inside a list of guarded arms. -/
inductive Occurs : Block → List Guard → Text → Prop
  | here {b : Block} {node : Node} : b.node? = some node → Occurs b [] node.id
  | inside {b child : Block} {guards arms : List Guard} {id : Text} :
    (guards, child) ∈ b.parts → Occurs child arms id → Occurs b (guards ++ arms) id

/-- A node occurs in one of some blocks. -/
def OccursIn (blocks : List Block) (arms : List Guard) (id : Text) : Prop :=
  ∃ b ∈ blocks, b.Occurs arms id

theorem occurs_iff {b : Block} {arms : List Guard} {id : Text} :
    b.Occurs arms id ↔ (arms = [] ∧ ∃ node, b.node? = some node ∧ node.id = id) ∨
      ∃ guards child rest, (guards, child) ∈ b.parts ∧ arms = guards ++ rest ∧
        child.Occurs rest id := by
  constructor
  · rintro (hnode | ⟨hpart, hchild⟩)
    · exact Or.inl ⟨rfl, _, hnode, rfl⟩
    · exact Or.inr ⟨_, _, _, hpart, rfl, hchild⟩
  · rintro (⟨rfl, _, hnode, rfl⟩ | ⟨_, _, _, hpart, rfl, hchild⟩)
    · exact .here hnode
    · exact .inside hpart hchild

@[simp] theorem occursIn_nil {arms : List Guard} {id : Text} : ¬ OccursIn [] arms id := by
  simp [OccursIn]

@[simp] theorem occursIn_cons {b : Block} {rest : List Block} {arms : List Guard} {id : Text} :
    OccursIn (b :: rest) arms id ↔ b.Occurs arms id ∨ OccursIn rest arms id := by
  simp [OccursIn]

@[simp] theorem occursIn_append {xs ys : List Block} {arms : List Guard} {id : Text} :
    OccursIn (xs ++ ys) arms id ↔ OccursIn xs arms id ∨ OccursIn ys arms id := by
  simp only [OccursIn, List.mem_append, or_and_right, exists_or]

theorem exists_part_map {items : List Block} {guards arms : List Guard} {id : Text} :
    (∃ gs child rest, (gs, child) ∈ items.map (guards, ·) ∧ arms = gs ++ rest ∧
      child.Occurs rest id) ↔ ∃ rest, arms = guards ++ rest ∧ OccursIn items rest id := by
  simp only [List.mem_map, OccursIn, Prod.mk.injEq]
  constructor
  · rintro ⟨_, _, rest, ⟨child, hm, rfl, rfl⟩, harms, ho⟩
    exact ⟨rest, harms, child, hm, ho⟩
  · rintro ⟨rest, harms, child, hm, ho⟩
    exact ⟨guards, child, rest, ⟨child, hm, rfl, rfl⟩, harms, ho⟩

@[simp] theorem occurs_leaf {n : Nat} {node : Node} {arms : List Guard} {id : Text} :
    (Block.leaf n node).Occurs arms id ↔ arms = [] ∧ node.id = id := by
  rw [occurs_iff]
  simp [node?, parts]

theorem occurs_sequence {n : Nat} {items : List Block} {container : Option Node}
    {key : Option Text} {arms : List Guard} {id : Text} :
    (Block.sequence n items container key).Occurs arms id ↔
      (arms = [] ∧ ∃ node, container = some node ∧ node.id = id) ∨ OccursIn items arms id := by
  rw [occurs_iff, parts, exists_part_map]
  simp [node?]

@[simp] theorem occurs_plain {n : Nat} {items : List Block} {key : Option Text}
    {arms : List Guard} {id : Text} :
    (Block.sequence n items none key).Occurs arms id ↔ OccursIn items arms id := by
  simp [occurs_sequence]

theorem occurs_parallel {n : Nat} {node : Node} {members : List Block} {join : JoinStrategy}
    {arms : List Guard} {x : Text} :
    (Block.parallel n node members join).Occurs arms x ↔
      (arms = [] ∧ node.id = x) ∨ OccursIn members arms x := by
  rw [occurs_iff, parts, exists_part_map]
  simp [node?]

theorem occurs_branch {n : Nat} {node : Node} {condition : Value} {onTrue onFalse : Block}
    {outcomePort : Option Text} {arms : List Guard} {x : Text} :
    (Block.branch n node condition onTrue onFalse outcomePort).Occurs arms x ↔
      (arms = [] ∧ node.id = x) ∨
      (∃ rest, arms = (node.id, (splitPorts node outcomePort).1) :: rest ∧ onTrue.Occurs rest x) ∨
      ∃ rest, arms = (node.id, (splitPorts node outcomePort).2) :: rest ∧
        onFalse.Occurs rest x := by
  rw [occurs_iff]
  simp only [node?, parts, Option.some.injEq, exists_eq_left', List.mem_cons, Prod.mk.injEq,
    List.not_mem_nil, or_false]
  refine or_congr Iff.rfl ⟨?_, ?_⟩
  · rintro ⟨_, _, rest, ⟨rfl, rfl⟩ | ⟨rfl, rfl⟩, rfl, ho⟩
    · exact Or.inl ⟨rest, rfl, ho⟩
    · exact Or.inr ⟨rest, rfl, ho⟩
  · rintro (⟨rest, rfl, ho⟩ | ⟨rest, rfl, ho⟩)
    · exact ⟨_, _, rest, Or.inl ⟨rfl, rfl⟩, rfl, ho⟩
    · exact ⟨_, _, rest, Or.inr ⟨rfl, rfl⟩, rfl, ho⟩

theorem occurs_switch {n : Nat} {node : Node} {routes : List (Exit × Block)} {arms : List Guard}
    {x : Text} : (Block.switch n node routes).Occurs arms x ↔ (arms = [] ∧ node.id = x) ∨
      ∃ r ∈ routes, ∃ rest, arms = (node.id, r.1.port) :: rest ∧ r.2.Occurs rest x := by
  rw [occurs_iff]
  simp only [node?, parts, Option.some.injEq, exists_eq_left', List.mem_map, Prod.mk.injEq]
  refine or_congr Iff.rfl ⟨?_, ?_⟩
  · rintro ⟨_, _, rest, ⟨r, hr, rfl, rfl⟩, rfl, ho⟩
    exact ⟨r, hr, rest, rfl, ho⟩
  · rintro ⟨r, hr, rest, rfl, ho⟩
    exact ⟨_, _, rest, ⟨r, hr, rfl, rfl⟩, rfl, ho⟩

theorem occurs_loop {n : Nat} {node : Node} {body : Block} {kind : LoopKind} {params : Members}
    {arms : List Guard} {x : Text} : (Block.loop n node body kind params).Occurs arms x ↔
      (arms = [] ∧ node.id = x) ∨
      ∃ rest, arms = (node.id, ("loop" : Text)) :: rest ∧ body.Occurs rest x := by
  rw [occurs_iff]
  simp only [node?, parts, Option.some.injEq, exists_eq_left', List.mem_singleton, Prod.mk.injEq]
  refine or_congr Iff.rfl ⟨?_, ?_⟩
  · rintro ⟨_, _, rest, ⟨rfl, rfl⟩, rfl, ho⟩
    exact ⟨rest, rfl, ho⟩
  · rintro ⟨rest, rfl, ho⟩
    exact ⟨_, _, rest, ⟨rfl, rfl⟩, rfl, ho⟩

theorem sizeOf_lt_of_mem_children {b c : Block} (h : c ∈ b.children) : sizeOf c < sizeOf b := by
  cases b with
  | absent => simp [children] at h
  | leaf n node => simp [children] at h
  | sequence n items container key =>
    have := List.sizeOf_lt_of_mem (show c ∈ items from h)
    simp only [sequence.sizeOf_spec]
    omega
  | parallel n container members join =>
    have := List.sizeOf_lt_of_mem (show c ∈ members from h)
    simp only [parallel.sizeOf_spec]
    omega
  | branch n node condition onTrue onFalse outcomePort =>
    simp only [branch.sizeOf_spec]
    rcases List.mem_cons.mp h with rfl | h
    · omega
    · rw [List.mem_singleton.mp h]
      omega
  | switch n node routes =>
    obtain ⟨route, hr, rfl⟩ := List.mem_map.mp h
    have := List.sizeOf_lt_of_mem hr
    have : sizeOf route.2 < sizeOf route := by
      cases route
      simp only [Prod.mk.sizeOf_spec]
      omega
    simp only [switch.sizeOf_spec]
    omega
  | loop n node body kind params =>
    rw [List.mem_singleton.mp (show c ∈ [body] from h)]
    simp only [loop.sizeOf_spec]
    omega

/-- A property of a block that follows from the same property of its children. -/
theorem children_induction {motive : Block → Prop}
    (step : ∀ b : Block, (∀ c ∈ b.children, motive c) → motive b) (b : Block) : motive b := by
  induction hn : sizeOf b using Nat.strong_induction_on generalizing b with
  | h n ih =>
    apply step b
    intro c hc
    exact ih _ (hn ▸ sizeOf_lt_of_mem_children hc) c rfl

end Block

end WorkflowCompiler
