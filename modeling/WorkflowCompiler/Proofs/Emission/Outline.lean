import Mathlib
import WorkflowCompiler.Proofs.Block.Outline
import WorkflowCompiler.Proofs.Emission.Reference

/-! # The code of an outline

The code of a block is that of its outline: it does not show the numbers of blocks, and it has the
members of a parallel container in order anyway.
-/
namespace WorkflowCompiler.Emission
open Block

/-- A block, and the items of a sequence, are emitted as those of its outline. -/
structure Outlined (profile : Profile) (b : Block) : Prop where
  whole : ∀ predecessor,
    reference profile b.outline predecessor = reference profile b predecessor
  items : itemReferences profile b.outline = itemReferences profile b

section Lists
variable {profile : Profile}

theorem references_outline {blocks : List Block} (h : ∀ b ∈ blocks, Outlined profile b)
    (previous : Option Text) :
    references profile (blocks.map outline) previous = references profile blocks previous := by
  induction blocks generalizing previous with
  | nil => rfl
  | cons b rest ih =>
    rw [List.map_cons, references, references, (h b List.mem_cons_self).whole,
      sharedKey?_outline]
    simp only [ih fun c hc => h c (List.mem_cons_of_mem _ hc)]

theorem arm_outline {b : Block} (h : Outlined profile b) (label ident exit : Text) :
    arm profile b.outline (reference profile b.outline none) (itemReferences profile b.outline)
        label ident exit =
      arm profile b (reference profile b none) (itemReferences profile b) label ident exit := by
  have hkey := sharedKey?_outline b
  rw [h.whole, h.items]
  cases b with
  | sequence n items container key =>
    rw [outline_sequence] at hkey ⊢
    rw [arm, arm, hkey]
  | absent | leaf _ _ | parallel _ _ _ _ | branch _ _ _ _ _ _ | switch _ _ _ | loop _ _ _ _ _ => rfl

theorem routeReferences_outline {routes : List (Exit × Block)}
    (h : ∀ r ∈ routes, Outlined profile r.2) (label ident : Text) :
    routeReferences profile (outlineRoutes routes) label ident =
      routeReferences profile routes label ident := by
  induction routes with
  | nil => rfl
  | cons r rest ih =>
    obtain ⟨exit, b⟩ := r
    rw [outlineRoutes, routeReferences, routeReferences, arm_outline (h _ List.mem_cons_self),
      ih fun c hc => h c (List.mem_cons_of_mem _ hc)]

theorem mapM_head {members : List Block} (h : ∀ b ∈ members, ∃ first, b.head = .ok first) :
    ∃ heads : List (Text × Text), heads.map (·.1) = members.map headId ∧
      (members.mapM fun m => (liftM m.head : Emitting (Text × Text))) = pure heads := by
  induction members with
  | nil => exact ⟨[], rfl, rfl⟩
  | cons b rest ih =>
    obtain ⟨first, hfirst⟩ := h b List.mem_cons_self
    obtain ⟨heads, hids, hheads⟩ := ih fun c hc => h c (List.mem_cons_of_mem _ hc)
    refine ⟨first :: heads, ?_, ?_⟩
    · rw [List.map_cons, List.map_cons, hids, headId, hfirst]
    · rw [List.mapM_cons, hheads, hfirst]
      rfl

/-- The members of a parallel container are emitted in the order of the nodes they begin with. -/
theorem sortMembers_zip_headId (members : List Block) :
    sortMembers ((members.map headId).zip (memberReferences profile members)) =
      (sortByHead members).map fun b => (b.headId, reference profile b none) := by
  rw [memberReferences_eq, List.zip_map', sortMembers, sortByHead]
  exact (List.map_mergeSort (f := fun b : Block => (b.headId, reference profile b none))
    fun _ _ _ _ => rfl).symm

theorem reference_parallel {members : List Block}
    (h : ∀ b ∈ members, ∃ first, b.head = .ok first) {n : Nat} {node : Node} {join : JoinStrategy}
    {predecessor : Option Text} :
    reference profile (.parallel n node members join) predecessor = (do
      let ident ← claim node.id node.name
      let refs ← ((sortByHead members).map fun b => reference profile b none).mapM id
      let parts := { members := some (.names refs), join := some (.str join.name) }
      stateNode profile node.kind.template node ident node.name parts predecessor
      return ident) := by
  obtain ⟨heads, hids, hheads⟩ := mapM_head h
  conv_lhs => unfold reference
  simp only [hheads, pure_bind, hids, sortMembers_zip_headId, List.mapM_map, Function.comp_def, id]

end Lists

section Blocks
variable {profile : Profile}

theorem outlined_of_whole {b : Block}
    (hitems : ∀ n items container key, b ≠ .sequence n items container key)
    (h : ∀ predecessor,
      reference profile b.outline predecessor = reference profile b predecessor) :
    Outlined profile b := by
  refine ⟨h, ?_⟩
  cases b with
  | sequence n items container key => exact absurd rfl (hitems n items container key)
  | absent | leaf _ _ | parallel _ _ _ _ | branch _ _ _ _ _ _ | switch _ _ _ | loop _ _ _ _ _ =>
    simp only [outline, itemReferences]

theorem headLabel_outline (b : Block) (what : Text) :
    headLabel b.outline what = headLabel b what := by
  rw [headLabel, head_outline, headLabel]

theorem outlined_chain {n : Nat} {items : List Block} {key : Option Text}
    (h : ∀ b ∈ items, Outlined profile b) : Outlined profile (.sequence n items none key) := by
  have hlabel : ∀ (key : Option Text) (what : Text),
      headLabel (.sequence 0 (items.map outline) none key) what =
        headLabel (.sequence n items none key) what := by
    intro key what
    rw [← outline_sequence n, headLabel_outline]
  constructor
  · intro predecessor
    have hshared := sharedKey?_outline (.sequence n items none key)
    rw [outline_sequence] at hshared ⊢
    cases hkey : (Block.sequence n items none key).sharedKey? with
    | none =>
      rw [reference_plain hkey, reference_plain (hshared.trans hkey), hlabel,
        references_outline h none]
    | some k =>
      match items with
      | [item] =>
        rw [reference_singleton hkey]
        rw [List.map_singleton] at hshared ⊢
        rw [reference_singleton (hshared.trans hkey), (h item List.mem_cons_self).whole]
      | [] | first :: second :: rest =>
        rw [reference_shared hkey (by simp), reference_shared (hshared.trans hkey) (by simp),
          hlabel, references_outline h none]
  · rw [outline_sequence, itemReferences, itemReferences, references_outline h none]

theorem outlined_sequential {n : Nat} {node : Node} {items : List Block}
    (h : ∀ b ∈ items, Outlined profile b) :
    Outlined profile (.sequence n items (some node) none) := by
  constructor
  · intro predecessor
    rw [outline_sequence, reference_sequential, reference_sequential, references_outline h none]
  · rw [outline_sequence, itemReferences, itemReferences, references_outline h none]

theorem outlined_parallel {n : Nat} {node : Node} {members : List Block} {join : JoinStrategy}
    (hheads : ∀ b ∈ members, ∃ first, b.head = .ok first)
    (h : ∀ b ∈ members, Outlined profile b) :
    Outlined profile (.parallel n node members join) := by
  have houtlines : ∀ b ∈ sortByHead (members.map outline), ∃ first, b.head = .ok first := by
    intro b hb
    obtain ⟨c, hc, rfl⟩ := List.mem_map.mp ((List.mergeSort_perm _ _).mem_iff.mp hb)
    rw [head_outline]
    exact hheads c hc
  have hmembers : ((sortByHead (sortByHead (members.map outline))).map
      fun b => reference profile b none) =
        (sortByHead members).map fun b => reference profile b none := by
    rw [sortByHead_sortByHead, sortByHead_outline, List.map_map]
    refine List.map_congr_left fun b hb => ?_
    exact (h b ((List.mergeSort_perm _ _).mem_iff.mp hb)).whole none
  refine outlined_of_whole (by simp) fun predecessor => ?_
  rw [outline, outlineAll_eq, reference_parallel houtlines, reference_parallel hheads, hmembers]

theorem outlined_of_formed {b : Block} (h : b.Formed) : Outlined profile b := by
  induction h with
  | leaf _ =>
    refine outlined_of_whole (by simp) fun predecessor => ?_
    rw [outline, reference, reference]
  | chain _ _ ih => exact outlined_chain ih
  | sequential _ _ _ ih => exact outlined_sequential ih
  | parallel _ hmembers _ ih =>
    exact outlined_parallel (fun b hb => (hmembers b hb).exists_head) ih
  | conditional _ _ _ _ _ _ ih ih' | outcome _ _ _ _ _ ih ih' =>
    refine outlined_of_whole (by simp) fun predecessor => ?_
    rw [outline]
    unfold reference
    simp only [arm_outline ih, arm_outline ih']
  | switch _ _ _ ih =>
    refine outlined_of_whole (by simp) fun predecessor => ?_
    rw [outline]
    unfold reference
    simp only [routeReferences_outline ih]
  | loop _ _ _ _ ih =>
    refine outlined_of_whole (by simp) fun predecessor => ?_
    rw [outline]
    unfold reference
    simp only [arm_outline ih]

end Blocks

/-- The code of a block is that of its outline. -/
theorem ofBlock_outline {b : Block} (h : b.Formed) (profile : Profile) (name : Text) :
    Program.ofBlock profile name b.outline = Program.ofBlock profile name b := by
  have hb : Outlined profile b := outlined_of_formed h
  have hwhole : (do return [← reference profile b.outline none] : Emitting (List Text)) =
      (do return [← reference profile b none]) := by
    rw [hb.whole]
  have htop : topReferences profile b.outline = topReferences profile b := by
    cases b with
    | sequence n items container key =>
      cases container with
      | none =>
        have hkey := sharedKey?_outline (.sequence n items none key)
        have hitems := hb.items
        rw [outline_sequence] at hkey hitems hwhole ⊢
        rw [topReferences, topReferences, hkey, hitems, hwhole]
      | some node => exact hwhole
    | absent | leaf _ _ | parallel _ _ _ _ | branch _ _ _ _ _ _ | switch _ _ _ | loop _ _ _ _ _ =>
      exact hwhole
  rw [Program.ofBlock, htop, Program.ofBlock]

end WorkflowCompiler.Emission
