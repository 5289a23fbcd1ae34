import Mathlib
import WorkflowCompiler.Proofs.Block.Within

/-! # The order of a walk

A block unfolds into a tree in which a shared block stands at every place that refers to it. A walk
lists the blocks of this tree in pre-order, each one where it stands first. That it skips what it
has met hides nothing: when a block is met again, all that stands inside it has been met, too, since
only the blocks around the present one are still open, and they are larger.
-/
namespace WorkflowCompiler.Block

mutual

/-- The blocks of the tree into which a block unfolds, every block before its children. -/
def preorder (block : Block) : List Block :=
  block ::
    match block with
    | .absent | .leaf .. => []
    | .sequence _ items _ _ => preorderAll items
    | .parallel _ _ members _ => preorderAll members
    | .branch _ _ _ onTrue onFalse _ => preorder onTrue ++ preorder onFalse
    | .switch _ _ routes => preorderRoutes routes
    | .loop _ _ body _ _ => preorder body

def preorderAll : List Block → List Block
  | [] => []
  | block :: rest => preorder block ++ preorderAll rest

def preorderRoutes : List (Exit × Block) → List Block
  | [] => []
  | (_, block) :: rest => preorder block ++ preorderRoutes rest

end

theorem preorderAll_eq_flatMap (blocks : List Block) :
    preorderAll blocks = blocks.flatMap preorder := by
  induction blocks with
  | nil => rfl
  | cons b rest ih => rw [preorderAll, ih, List.flatMap_cons]

theorem preorderRoutes_eq_flatMap (routes : List (Exit × Block)) :
    preorderRoutes routes = (routes.map (·.2)).flatMap preorder := by
  induction routes with
  | nil => rfl
  | cons route rest ih => rw [preorderRoutes, ih, List.map_cons, List.flatMap_cons]

theorem preorder_eq (b : Block) : b.preorder = b :: b.children.flatMap preorder := by
  cases b <;> simp [preorder, children, preorderAll_eq_flatMap, preorderRoutes_eq_flatMap]

theorem mem_preorder {x b : Block} : x ∈ b.preorder ↔ x.Within b := by
  induction b using children_induction with
  | step b ih =>
    rw [preorder_eq, List.mem_cons, List.mem_flatMap, within_iff]
    refine or_congr Iff.rfl (exists_congr fun c => ?_)
    exact and_congr_right fun hc => ih c hc

/-- Adds a block to those found so far, unless one with its serial number is among them. -/
def addNew (found : List Block) (b : Block) : List Block :=
  if found.any (·.serial == b.serial) then found else b :: found

theorem addNew_of_mem {found : List Block} {b : Block} (h : b ∈ found) : addNew found b = found :=
  if_pos (List.any_eq_true.mpr ⟨b, h, beq_self_eq_true b.serial⟩)

theorem foldl_addNew_of_subset {found blocks : List Block} (h : ∀ b ∈ blocks, b ∈ found) :
    blocks.foldl addNew found = found := by
  induction blocks with
  | nil => rfl
  | cons b rest ih =>
    rw [List.foldl_cons, addNew_of_mem (h b List.mem_cons_self)]
    exact ih fun c hc => h c (List.mem_cons_of_mem _ hc)

/-- Adding blocks one after the other leaves the first one of each serial number. -/
theorem reverse_foldl_addNew (blocks : List Block) :
    (blocks.foldl addNew []).reverse = blocks.eraseDupsBy (·.serial == ·.serial) := by
  have hloop : ∀ found : List Block, (blocks.foldl addNew found).reverse =
      List.eraseDupsBy.loop (·.serial == ·.serial) blocks found := by
    induction blocks with
    | nil => exact fun _ => rfl
    | cons b rest ih =>
      intro found
      have hany : (found.any fun x => b.serial == x.serial) = found.any (·.serial == b.serial) := by
        simp only [BEq.comm]
      rw [List.foldl_cons, ih, List.eraseDupsBy.loop, hany, addNew]
      cases found.any (·.serial == b.serial) <;> rfl
  exact hloop []

/-- If a block that was found is not larger than what is closed, all inside it was found. -/
theorem ClosedBelow.mem_of_within {size : Nat} {found : List Block} (h : ClosedBelow size found)
    {b : Block} (hb : b ∈ found) (hsize : sizeOf b ≤ size) {x : Block} (hx : x.Within b) :
    x ∈ found := by
  induction hx using Relation.ReflTransGen.head_induction_on with
  | refl => exact hb
  | head hac hcb ih => exact h _ ih ((Within.sizeOf_le hcb).trans hsize) _ hac

section Order
variable {blocks : Block → Prop} (hco : Coherent blocks)
include hco

/-- Visits one after the other add what stands in the trees of the visited blocks. -/
theorem foldl_visit_eq {size : Nat} {cs found : List Block}
    (hcs : ∀ c ∈ cs, ∀ x, x.Within c → blocks x) (hsize : ∀ c ∈ cs, sizeOf c ≤ size)
    (h : ∀ c ∈ cs, ∀ found : List Block, (∀ x ∈ found, blocks x) → ClosedBelow size found →
      visit c found = c.preorder.foldl addNew found)
    (hfound : ∀ x ∈ found, blocks x) (hclosed : ClosedBelow size found) :
    cs.foldl (fun found c => visit c found) found = (cs.flatMap preorder).foldl addNew found := by
  induction cs generalizing found with
  | nil => rfl
  | cons c rest ih =>
    have hfound' : ∀ x ∈ visit c found, blocks x := fun x hx =>
      ((extends_visit c found).within x hx).elim (hfound x) (hcs c List.mem_cons_self x)
    have hclosed' := (visit_closed hco (hcs c List.mem_cons_self) (hsize c List.mem_cons_self)
      hfound hclosed).1
    rw [List.foldl_cons, List.flatMap_cons, List.foldl_append,
      ← h c List.mem_cons_self found hfound hclosed]
    exact ih (fun d hd => hcs d (List.mem_cons_of_mem _ hd))
      (fun d hd => hsize d (List.mem_cons_of_mem _ hd))
      (fun d hd => h d (List.mem_cons_of_mem _ hd)) hfound' hclosed'

/-- A visit adds what stands in the tree of the visited block, in pre-order. -/
theorem visit_eq_foldl {b : Block} (hb : ∀ x, x.Within b → blocks x) {size : Nat}
    (hsize : sizeOf b ≤ size) {found : List Block} (hfound : ∀ x ∈ found, blocks x)
    (hclosed : ClosedBelow size found) : visit b found = b.preorder.foldl addNew found := by
  induction b using children_induction generalizing size found with
  | step b ih =>
    by_cases hold : found.any (·.serial == b.serial)
    · obtain ⟨x, hx, hs⟩ := List.any_eq_true.mp hold
      obtain rfl := hco x b (hfound x hx) (hb b (.refl b)) (by simpa using hs)
      rw [visit_eq, if_pos hold, foldl_addNew_of_subset]
      exact fun y hy => hclosed.mem_of_within hx hsize (mem_preorder.mp hy)
    · have hadd : ∀ x ∈ b :: found, blocks x :=
        List.forall_mem_cons.mpr ⟨hb b (.refl b), hfound⟩
      have hchild : ∀ c ∈ b.children, sizeOf c ≤ sizeOf b - 1 :=
        fun c hc => Nat.le_sub_one_of_lt (sizeOf_lt_of_mem_children hc)
      have hcs : ∀ c ∈ b.children, ∀ x, x.Within c → blocks x :=
        fun c hc x hx => hb x (hx.trans (within_of_mem_children hc))
      rw [visit_eq, if_neg hold, preorder_eq, List.foldl_cons, addNew, if_neg hold]
      exact foldl_visit_eq hco hcs hchild
        (fun c hc found hf hcl => ih c hc (hcs c hc) (hchild c hc) hf hcl) hadd
        (hclosed.cons hsize)

end Order

/-- A walk lists the blocks of the tree in pre-order, each one where it stands first. -/
theorem walk_eq_preorder {root : Block} (hco : Coherent (·.Within root)) :
    root.walk = root.preorder.eraseDupsBy (·.serial == ·.serial) := by
  have hempty : ClosedBelow (sizeOf root) [] := fun x hx => absurd hx List.not_mem_nil
  rw [walk, visit_eq_foldl hco (fun _ h => h) le_rfl (by simp) hempty, reverse_foldl_addNew]

/-- Every block that was found is the one with which the walk began or was met after one of its
parents; the last one found comes first. -/
def Descended (root : Block) : List Block → Prop
  | [] => True
  | b :: earlier => (b = root ∨ ∃ p ∈ earlier, b ∈ p.children) ∧ Descended root earlier

theorem Descended.of_append {root b : Block} {later earlier : List Block}
    (h : Descended root (later ++ b :: earlier)) : b = root ∨ ∃ p ∈ earlier, b ∈ p.children := by
  induction later with
  | nil => exact h.1
  | cons x later ih => exact ih h.2

theorem Descended.foldl_visit {root : Block} {cs found : List Block}
    (hvisit : ∀ c ∈ cs, ∀ found, (∃ p ∈ found, c ∈ p.children) → Descended root found →
      Descended root (visit c found))
    (hparent : ∃ p ∈ found, ∀ c ∈ cs, c ∈ p.children) (h : Descended root found) :
    Descended root (cs.foldl (fun found c => visit c found) found) := by
  induction cs generalizing found with
  | nil => exact h
  | cons c rest ih =>
    obtain ⟨p, hp, hcs⟩ := hparent
    refine ih (fun d hd => hvisit d (List.mem_cons_of_mem _ hd)) ?_
      (hvisit c List.mem_cons_self found ⟨p, hp, hcs c List.mem_cons_self⟩ h)
    exact ⟨p, (extends_visit c found).keeps p hp, fun d hd => hcs d (List.mem_cons_of_mem _ hd)⟩

theorem Descended.visit {root b : Block} {found : List Block}
    (hb : b = root ∨ ∃ p ∈ found, b ∈ p.children) (h : Descended root found) :
    Descended root (b.visit found) := by
  induction b using children_induction generalizing found with
  | step b ih =>
    rw [visit_eq]
    split
    · exact h
    · exact Descended.foldl_visit (fun c hc found hparent => ih c hc (Or.inr hparent))
        ⟨b, List.mem_cons_self, fun _ hc => hc⟩ ⟨hb, h⟩

theorem suffix_foldl_visit {cs : List Block}
    (h : ∀ c ∈ cs, ∀ found, found <:+ visit c found) (found : List Block) :
    found <:+ cs.foldl (fun found c => visit c found) found := by
  induction cs generalizing found with
  | nil => exact List.suffix_refl found
  | cons c rest ih =>
    exact (h c List.mem_cons_self found).trans (ih (fun d hd => h d (List.mem_cons_of_mem _ hd)) _)

theorem suffix_visit (b : Block) (found : List Block) : found <:+ visit b found := by
  induction b using children_induction generalizing found with
  | step b ih =>
    rw [visit_eq]
    split
    · exact List.suffix_refl found
    · exact (List.suffix_cons b found).trans (suffix_foldl_visit ih _)

theorem exists_walk_eq_cons (root : Block) : ∃ rest, root.walk = root :: rest := by
  have hsuffix : [root] <:+ root.children.foldl (fun found c => visit c found) [root] :=
    suffix_foldl_visit (fun c _ => suffix_visit c) [root]
  obtain ⟨found, hfound⟩ := hsuffix
  refine ⟨found.reverse, ?_⟩
  rw [walk, visit_eq, if_neg (by simp), ← hfound]
  simp

/-- Where equal serial numbers mean the same block, a walk is a depth-first traversal in pre-order:
it meets exactly the blocks inside the given one, each of them once, in the order in which they
stand first in the tree; it begins with the given block, and every other one comes after one of its
parents. -/
theorem walk_traverses {root : Block} (hco : Coherent (·.Within root)) :
    (∀ b : Block, b ∈ root.walk ↔ b.Within root) ∧ (root.walk.map serial).Nodup ∧
    root.walk = root.preorder.eraseDupsBy (·.serial == ·.serial) ∧
    root.walk.head? = some root ∧
    ∀ before b after, root.walk = before ++ b :: after → before ≠ [] →
      ∃ p ∈ before, b ∈ p.children := by
  obtain ⟨rest, hrest⟩ := exists_walk_eq_cons root
  refine ⟨fun b => mem_walk hco, walk_nodup root, walk_eq_preorder hco, by rw [hrest]; rfl, ?_⟩
  intro before b after hwalk hbefore
  have hdescended : Descended root (after.reverse ++ b :: before.reverse) := by
    have hreverse : root.visit [] = after.reverse ++ b :: before.reverse := by
      rw [← List.reverse_reverse (root.visit []), ← walk, hwalk]
      simp
    exact hreverse ▸ Descended.visit (Or.inl rfl) trivial
  rcases hdescended.of_append with rfl | ⟨p, hp, hb⟩
  · -- the block itself stands at the beginning and nowhere else
    obtain ⟨first, before, rfl⟩ := List.exists_cons_of_ne_nil hbefore
    obtain ⟨rfl, -⟩ := List.cons.inj (hrest.symm.trans hwalk)
    have hnodup := walk_nodup b
    rw [hwalk] at hnodup
    simp at hnodup
  · exact ⟨p, List.mem_reverse.mp hp, hb⟩

/-- What both arms of a split lead to. -/
def sharedTail : Block := .sequence 2 [.leaf 1 ⟨"m", .debug, [], none⟩] none (some "m")

/-- A step that stands in two places, without a key. -/
def sharedStep : Block := .leaf 3 ⟨"s", .debug, [], none⟩

def detour : Block := .sequence 4 [sharedStep, sharedTail] none none

def fork : Block := .branch 5 ⟨"c", .conditional, [], none⟩ (.str "x") sharedTail detour none

def crossing : Block := .sequence 6 [fork, sharedStep, sharedTail] none none

theorem coherent_crossing : Coherent (·.Within crossing) := by
  let all := [crossing, fork, detour, sharedStep, sharedTail, .leaf 1 ⟨"m", .debug, [], none⟩]
  have hnodup : (all.map serial).Nodup := by decide
  have hall : ∀ x ∈ crossing.preorder, x ∈ all := by
    simp [all, crossing, fork, detour, sharedStep, sharedTail, preorder, preorderAll]
  exact fun a b ha hb =>
    List.inj_on_of_nodup_map hnodup (hall a (mem_preorder.mpr ha)) (hall b (mem_preorder.mpr hb))

theorem walk_traverses_crossing :
    Coherent (·.Within crossing) ∧ crossing.walk.map serial = [6, 5, 2, 1, 4, 3] ∧
    crossing.walk = crossing.preorder.eraseDupsBy (·.serial == ·.serial) ∧
    ∃ p ∈ [crossing, fork, sharedTail, .leaf 1 ⟨"m", .debug, [], none⟩], detour ∈ p.children := by
  obtain ⟨-, -, horder, -, hparents⟩ := walk_traverses coherent_crossing
  exact ⟨coherent_crossing, rfl, horder, hparents _ detour [sharedStep] rfl (List.cons_ne_nil _ _)⟩

end WorkflowCompiler.Block
