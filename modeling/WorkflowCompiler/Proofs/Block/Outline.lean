import Mathlib
import WorkflowCompiler.Proofs.Block.Form
import WorkflowCompiler.Proofs.Text.Order

/-! # Outlines of blocks

The outline of a block leaves out the numbers, which say when a block was made, and has the members
of a parallel container in the order of the nodes that they begin with.
-/
namespace WorkflowCompiler.Block

def headId (b : Block) : Text :=
  match b.head with
  | .ok first => first.1
  | .error _ => []

def sortByHead (blocks : List Block) : List Block :=
  blocks.mergeSort fun a b => Text.le a.headId b.headId

mutual

def outline : Block → Block
  | .absent => .absent
  | .leaf _ node => .leaf 0 node
  | .sequence _ items container key => .sequence 0 (outlineAll items) container key
  | .parallel _ container members join =>
    .parallel 0 container (sortByHead (outlineAll members)) join
  | .branch _ node condition onTrue onFalse outcomePort =>
    .branch 0 node condition (outline onTrue) (outline onFalse) outcomePort
  | .switch _ node routes => .switch 0 node (outlineRoutes routes)
  | .loop _ node body kind params => .loop 0 node (outline body) kind params

def outlineAll : List Block → List Block
  | [] => []
  | block :: rest => outline block :: outlineAll rest

def outlineRoutes : List (Exit × Block) → List (Exit × Block)
  | [] => []
  | (exit, block) :: rest => (exit, outline block) :: outlineRoutes rest

end

theorem outlineAll_eq (blocks : List Block) : outlineAll blocks = blocks.map outline := by
  induction blocks with
  | nil => rfl
  | cons b rest ih => rw [outlineAll, ih, List.map_cons]

@[simp] theorem outline_sequence (n : Nat) (items : List Block) (container : Option Node)
    (key : Option Text) : outline (.sequence n items container key) =
      .sequence 0 (items.map outline) container key := by
  rw [outline, outlineAll_eq]

@[simp] theorem sharedKey?_outline (b : Block) : b.outline.sharedKey? = b.sharedKey? := by
  cases b with
  | sequence n items container key =>
    rw [outline_sequence]
    cases key <;> rfl
  | absent | leaf _ _ | parallel _ _ _ _ | branch _ _ _ _ _ _ | switch _ _ _ | loop _ _ _ _ _ => rfl

mutual

theorem head_outline (b : Block) : b.outline.head = b.head := by
  match b with
  | .absent => rfl
  | .leaf _ _ | .parallel _ _ _ _ | .branch _ _ _ _ _ _ | .switch _ _ _ | .loop _ _ _ _ _ =>
    rw [outline, head, head]
  | .sequence _ _ (some _) _ => rw [outline, head, head]
  | .sequence _ items none _ => rw [outline, head, head, headOfItems_outline items]

theorem headOfItems_outline (blocks : List Block) :
    headOfItems (outlineAll blocks) = headOfItems blocks := by
  match blocks with
  | [] => rfl
  | b :: _ => rw [outlineAll, headOfItems, headOfItems, head_outline b]

end

@[simp] theorem headId_outline (b : Block) : b.outline.headId = b.headId := by
  rw [headId, head_outline, headId]

theorem sortByHead_map {α : Type} (f : α → Block) (key : α → Text) (items : List α)
    (h : ∀ a ∈ items, (f a).headId = key a) :
    sortByHead (items.map f) = (items.mergeSort fun a b => Text.le (key a) (key b)).map f := by
  refine (List.map_mergeSort fun a ha b hb => ?_).symm
  rw [h a ha, h b hb]

theorem sortByHead_outline (blocks : List Block) :
    sortByHead (blocks.map outline) = (sortByHead blocks).map outline :=
  sortByHead_map outline headId blocks fun b _ => headId_outline b

theorem sortByHead_sortByHead (blocks : List Block) :
    sortByHead (sortByHead blocks) = sortByHead blocks := by
  have htrans : ∀ a b c : Block, Text.le a.headId b.headId → Text.le b.headId c.headId →
      Text.le a.headId c.headId := fun _ _ _ => Text.le_trans
  have htotal : ∀ a b : Block, (Text.le a.headId b.headId || Text.le b.headId a.headId) := by
    intro a b
    simpa using Text.le_total a.headId b.headId
  exact List.mergeSort_of_pairwise (List.pairwise_mergeSort htrans htotal blocks)

end WorkflowCompiler.Block
