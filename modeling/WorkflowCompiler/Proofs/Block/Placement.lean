import Mathlib
import WorkflowCompiler.Proofs.Block.Within

/-! # Placements

Where a block stands among its siblings: which one it follows. An item of a sequence follows the
item before it, unless that one is shared; the members and arms of a container follow nothing.
-/
namespace WorkflowCompiler.Block

/-- Items one after the other, each with the item that it follows. -/
def successive (previous : Option Block) : List Block → List (Option Block × Block)
  | [] => []
  | b :: rest => (previous, b) :: successive (if b.sharedKey?.isSome then none else some b) rest

/-- The children of a block, each with the one that it follows. -/
def placements : Block → List (Option Block × Block)
  | .sequence _ items _ _ => successive none items
  | b => b.children.map fun c => (none, c)

/-- A block stands somewhere inside another one and follows a sibling there. -/
def Placed (root : Block) (previous : Option Block) (b : Block) : Prop :=
  ∃ x : Block, x.Within root ∧ (previous, b) ∈ x.placements

section Successive
variable {previous : Option Block} {xs ys : List Block} {p : Option Block × Block} {b : Block}

theorem mem_of_mem_successive (h : p ∈ successive previous xs) : p.2 ∈ xs := by
  induction xs generalizing previous with
  | nil => cases h
  | cons x rest ih =>
    rcases List.mem_cons.mp h with rfl | h
    · exact List.mem_cons_self
    · exact List.mem_cons_of_mem _ (ih h)

theorem successive_subset_append : successive previous xs ⊆ successive previous (xs ++ ys) := by
  induction xs generalizing previous with
  | nil => exact List.nil_subset _
  | cons x rest ih => exact List.cons_subset_cons _ ih

theorem mem_successive_append (h : p ∈ successive previous (xs ++ ys)) :
    p ∈ successive previous xs ∨ ∃ o, p ∈ successive o ys := by
  induction xs generalizing previous with
  | nil => exact Or.inr ⟨previous, h⟩
  | cons x rest ih =>
    rcases List.mem_cons.mp h with rfl | h
    · exact Or.inl List.mem_cons_self
    · exact (ih h).imp_left (List.mem_cons_of_mem _)

/-- What comes behind blocks that are not shared follows the last one of them. -/
theorem mem_successive_concat (hb : b.sharedKey? = none)
    (h : p ∈ successive previous (xs ++ b :: ys)) :
    p ∈ successive previous (xs ++ [b]) ∨ p ∈ successive (some b) ys := by
  induction xs generalizing previous with
  | nil =>
    rcases List.mem_cons.mp h with rfl | h
    · exact Or.inl List.mem_cons_self
    · rw [hb] at h
      exact Or.inr h
  | cons x rest ih =>
    rcases List.mem_cons.mp h with rfl | h
    · exact Or.inl List.mem_cons_self
    · exact (ih h).imp_left (List.mem_cons_of_mem _)

end Successive

theorem mem_children_of_mem_placements {b : Block} {p : Option Block × Block}
    (h : p ∈ b.placements) : p.2 ∈ b.children := by
  cases b with
  | sequence n items container key => exact mem_of_mem_successive h
  | absent | leaf _ _ | parallel _ _ _ _ | branch _ _ _ _ _ _ | switch _ _ _ | loop _ _ _ _ _ =>
    obtain ⟨c, hc, rfl⟩ := List.mem_map.mp h
    exact hc

theorem placed_iff {root b : Block} {previous : Option Block} :
    Placed root previous b ↔
      (previous, b) ∈ root.placements ∨ ∃ c ∈ root.children, Placed c previous b := by
  constructor
  · rintro ⟨x, hx, hb⟩
    rcases within_iff.mp hx with rfl | ⟨c, hc, hx⟩
    · exact Or.inl hb
    · exact Or.inr ⟨c, hc, x, hx, hb⟩
  · rintro (hb | ⟨c, hc, x, hx, hb⟩)
    · exact ⟨root, .refl root, hb⟩
    · exact ⟨x, hx.trans (within_of_mem_children hc), hb⟩

theorem Placed.within {root b : Block} {previous : Option Block} (h : Placed root previous b) :
    b.Within root := by
  obtain ⟨x, hx, hb⟩ := h
  exact (within_of_mem_children (mem_children_of_mem_placements hb)).trans hx

end WorkflowCompiler.Block
