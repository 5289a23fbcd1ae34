import Mathlib
import WorkflowCompiler.Proofs.Block.Within

/-! # Unfolding a block

A block is unfolded into the list of the nodes it stands for: a block comes before its children, and
a shared sequence is unfolded at every place where it stands. What follows what is said of every
occurrence, so it can be put together from the parts of a list.
-/
namespace WorkflowCompiler

namespace Block

mutual

/-- The ids of the nodes in a block, every block before its children. -/
def unfolding : Block → List Text
  | .absent => []
  | .leaf _ node => [node.id]
  | .sequence _ items container _ => container.toList.map (·.id) ++ unfoldingAll items
  | .parallel _ container members _ => container.id :: unfoldingAll members
  | .branch _ node _ onTrue onFalse _ => node.id :: (unfolding onTrue ++ unfolding onFalse)
  | .switch _ node routes => node.id :: unfoldingRoutes routes
  | .loop _ node body _ _ => node.id :: unfolding body

def unfoldingAll : List Block → List Text
  | [] => []
  | block :: rest => unfolding block ++ unfoldingAll rest

def unfoldingRoutes : List (Exit × Block) → List Text
  | [] => []
  | (_, block) :: rest => unfolding block ++ unfoldingRoutes rest

end

theorem unfoldingAll_eq_flatMap (blocks : List Block) :
    unfoldingAll blocks = blocks.flatMap unfolding := by
  induction blocks with
  | nil => rfl
  | cons b rest ih => rw [unfoldingAll, ih, List.flatMap_cons]

theorem unfoldingRoutes_eq_flatMap (routes : List (Exit × Block)) :
    unfoldingRoutes routes = (routes.map (·.2)).flatMap unfolding := by
  induction routes with
  | nil => rfl
  | cons route rest ih => rw [unfoldingRoutes, ih, List.map_cons, List.flatMap_cons]

theorem unfolding_eq (b : Block) :
    b.unfolding = b.node?.toList.map (·.id) ++ b.children.flatMap unfolding := by
  cases b <;> simp [unfolding, node?, children, unfoldingAll_eq_flatMap, unfoldingRoutes_eq_flatMap]

@[simp] theorem unfolding_plain (n : Nat) (items : List Block) (key : Option Text) :
    (Block.sequence n items none key).unfolding = items.flatMap unfolding := by
  simp [unfolding_eq, node?, children]

theorem mem_unfolding {b : Block} {id : Text} :
    id ∈ b.unfolding ↔ ∃ x : Block, x.Within b ∧ ∃ node, x.node? = some node ∧ node.id = id := by
  induction b using children_induction with
  | step b ih =>
    rw [unfolding_eq, List.mem_append, List.mem_map, List.mem_flatMap]
    constructor
    · rintro (⟨node, hnode, hid⟩ | ⟨c, hc, hid⟩)
      · exact ⟨b, .refl b, node, Option.mem_toList.mp hnode, hid⟩
      · obtain ⟨x, hx, hnode⟩ := (ih c hc).mp hid
        exact ⟨x, hx.trans (within_of_mem_children hc), hnode⟩
    · rintro ⟨x, hx, node, hnode, hid⟩
      rcases within_iff.mp hx with rfl | ⟨c, hc, hx⟩
      · exact Or.inl ⟨node, Option.mem_toList.mpr hnode, hid⟩
      · exact Or.inr ⟨c, hc, (ih c hc).mpr ⟨x, hx, node, hnode, hid⟩⟩

theorem Within.unfolding_subset {a b : Block} (h : a.Within b) {id : Text}
    (hid : id ∈ a.unfolding) : id ∈ b.unfolding := by
  obtain ⟨x, hx, hnode⟩ := mem_unfolding.mp hid
  exact mem_unfolding.mpr ⟨x, hx.trans h, hnode⟩

end Block

section Following
variable {α : Type*}

/-- Every occurrence of one thing in a list is followed by the other one, in the list or among some
that come after it. -/
def FollowedWithin (later xs : List α) (a b : α) : Prop :=
  ∀ before after, xs = before ++ a :: after → b ∈ after ∨ b ∈ later

/-- Every occurrence of one thing in a list is followed by an occurrence of the other one. -/
def FollowedBy (xs : List α) (a b : α) : Prop :=
  ∀ before after, xs = before ++ a :: after → b ∈ after

variable {later xs ys : List α} {a b : α}

theorem followedWithin_nil : FollowedWithin later [] a b := by
  intro before after h
  cases before <;> cases h

theorem followedBy_iff : FollowedBy xs a b ↔ FollowedWithin [] xs a b := by
  simp [FollowedBy, FollowedWithin]

theorem FollowedWithin.mono {more : List α} (hsub : ∀ x ∈ later, x ∈ more)
    (h : FollowedWithin later xs a b) : FollowedWithin more xs a b :=
  fun before after heq => (h before after heq).imp_right (hsub b)

theorem FollowedWithin.append (hx : FollowedWithin (ys ++ later) xs a b)
    (hy : FollowedWithin later ys a b) : FollowedWithin later (xs ++ ys) a b := by
  intro before after heq
  rcases List.append_eq_append_iff.mp heq with ⟨mid, rfl, hys⟩ | ⟨mid, hxs, hafter⟩
  · exact hy mid after hys
  · cases mid with
    | nil =>
      simp only [List.append_nil, List.nil_append] at hxs hafter
      exact hy [] after hafter.symm
    | cons x mid =>
      obtain ⟨rfl, rfl⟩ := List.cons.inj hafter
      rcases hx before mid hxs with h | h
      · exact Or.inl (List.mem_append_left _ h)
      · rcases List.mem_append.mp h with h | h
        · exact Or.inl (List.mem_append_right _ h)
        · exact Or.inr h

theorem FollowedWithin.of_append_left (h : FollowedWithin later (xs ++ ys) a b) :
    FollowedWithin (ys ++ later) xs a b := by
  intro before after heq
  rcases h before (after ++ ys) (by simp [heq]) with h | h
  · rcases List.mem_append.mp h with h | h
    · exact Or.inl h
    · exact Or.inr (List.mem_append_left _ h)
  · exact Or.inr (List.mem_append_right _ h)

theorem FollowedWithin.of_append_right (h : FollowedWithin later (xs ++ ys) a b) :
    FollowedWithin later ys a b :=
  fun before after heq => h (xs ++ before) after (by simp [heq])

/-- If one thing is among those that come after a list, it follows whatever is in the list. -/
theorem followedWithin_of_mem (h : b ∈ later) : FollowedWithin later xs a b :=
  fun _ _ _ => Or.inr h

theorem followedWithin_of_not_mem (h : a ∉ xs) : FollowedWithin later xs a b := by
  intro before after heq
  rw [heq] at h
  exact absurd (by simp) h

theorem followedWithin_flatMap {β : Type*} {f : β → List α} {items : List β}
    (h : ∀ x ∈ items, FollowedWithin later (f x) a b) :
    FollowedWithin later (items.flatMap f) a b := by
  induction items with
  | nil => exact followedWithin_nil
  | cons x rest ih =>
    refine ((h x List.mem_cons_self).mono fun y hy => List.mem_append_right _ hy).append ?_
    exact ih fun y hy => h y (List.mem_cons_of_mem _ hy)

/-- Listed by last occurrences, one thing comes before another one that follows it everywhere. -/
theorem FollowedBy.idxOf_dedup_lt [DecidableEq α] [BEq α] [LawfulBEq α] (h : FollowedBy xs a b) (ha : a ∈ xs) :
    xs.dedup.idxOf a < xs.dedup.idxOf b := by
  induction xs with
  | nil => exact absurd ha List.not_mem_nil
  | cons x rest ih =>
    have hrest : FollowedBy rest a b := fun before after heq =>
      h (x :: before) after (by rw [heq, List.cons_append])
    by_cases hx : x ∈ rest
    · rw [List.dedup_cons_of_mem hx]
      rcases List.mem_cons.mp ha with rfl | ha
      · exact ih hrest hx
      · exact ih hrest ha
    · rw [List.dedup_cons_of_notMem hx]
      have hb : b ∈ rest := by
        rcases List.mem_cons.mp ha with rfl | ha
        · exact h [] rest rfl
        · obtain ⟨before, after, heq⟩ := List.append_of_mem ha
          exact heq ▸ List.mem_append_right _ (List.mem_cons_of_mem _ (hrest before after heq))
      have hxb : x ≠ b := by
        rintro rfl
        exact hx hb
      rw [List.idxOf_cons_ne _ hxb]
      rcases List.mem_cons.mp ha with rfl | ha
      · rw [List.idxOf_cons_self]
        omega
      · have hxa : x ≠ a := by
          rintro rfl
          exact hx ha
        rw [List.idxOf_cons_ne _ hxa]
        exact Nat.succ_lt_succ (ih hrest ha)

end Following

end WorkflowCompiler
