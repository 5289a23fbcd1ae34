import Mathlib
import WorkflowCompiler.Block.Describe
import WorkflowCompiler.Proofs.Graph.Canonical
import WorkflowCompiler.Proofs.Resolution.Splice

/-! # Blocks up to layout and the order of members

The canonical form of a block has the canonical forms of its nodes and its condition. Walking
through blocks and joining sibling chains go by numbers, keys and ids, and so work on canonical
forms as they do on the blocks themselves.
-/
namespace WorkflowCompiler

namespace Block

mutual

/-- A block with its nodes in canonical form. The parameters of a loop are left out: they repeat
settings of its node. -/
def canonical : Block → Block
  | .absent => .absent
  | .leaf n node => .leaf n node.canonical
  | .sequence n items container key =>
    .sequence n (canonicalAll items) (container.map Node.canonical) key
  | .parallel n container members join =>
    .parallel n container.canonical (canonicalAll members) join
  | .branch n node condition onTrue onFalse outcomePort =>
    .branch n node.canonical condition.canonical (canonical onTrue) (canonical onFalse) outcomePort
  | .switch n node routes => .switch n node.canonical (canonicalRoutes routes)
  | .loop n node body kind _ => .loop n node.canonical (canonical body) kind []

def canonicalAll : List Block → List Block
  | [] => []
  | block :: rest => canonical block :: canonicalAll rest

def canonicalRoutes : List (Exit × Block) → List (Exit × Block)
  | [] => []
  | (exit, block) :: rest => (exit, canonical block) :: canonicalRoutes rest

end

theorem canonicalAll_eq (blocks : List Block) : canonicalAll blocks = blocks.map canonical := by
  induction blocks with
  | nil => rfl
  | cons b rest ih => rw [canonicalAll, ih, List.map_cons]

@[simp] theorem serial_canonical (b : Block) : b.canonical.serial = b.serial := by
  cases b <;> rfl

@[simp] theorem sharedKey?_canonical (b : Block) : b.canonical.sharedKey? = b.sharedKey? := by
  cases b with
  | sequence n items container key =>
    rw [canonical]
    cases key <;> rfl
  | absent | leaf _ _ | parallel _ _ _ _ | branch _ _ _ _ _ _ | switch _ _ _ | loop _ _ _ _ _ => rfl

mutual

theorem head_canonical (b : Block) : b.canonical.head = b.head := by
  match b with
  | .absent => rfl
  | .leaf _ _ | .parallel _ _ _ _ | .branch _ _ _ _ _ _ | .switch _ _ _ | .loop _ _ _ _ _ =>
    rw [canonical, head, head, Node.id_canonical, Node.name_canonical]
  | .sequence _ _ (some _) _ =>
    rw [canonical, Option.map_some, head, head, Node.id_canonical, Node.name_canonical]
  | .sequence _ items none _ =>
    rw [canonical, Option.map_none, head, head, headOfItems_canonical items]

theorem headOfItems_canonical (blocks : List Block) :
    headOfItems (canonicalAll blocks) = headOfItems blocks := by
  match blocks with
  | [] => rfl
  | b :: _ => rw [canonicalAll, headOfItems, headOfItems, head_canonical b]

end

theorem any_serial_canonical (n : Nat) (found : List Block) :
    (found.map canonical).any (·.serial == n) = found.any (·.serial == n) := by
  simp [List.any_map, Function.comp_def]

mutual

theorem visit_canonical (b : Block) (found : List Block) :
    b.canonical.visit (found.map canonical) = (b.visit found).map canonical := by
  unfold visit
  rw [any_serial_canonical, serial_canonical]
  split
  · rfl
  · match b with
    | .absent | .leaf _ _ => rfl
    | .sequence n items container key =>
      exact visitAll_canonical items (.sequence n items container key :: found)
    | .parallel n container members join =>
      exact visitAll_canonical members (.parallel n container members join :: found)
    | .branch n node condition onTrue onFalse port =>
      have htrue := visit_canonical onTrue (.branch n node condition onTrue onFalse port :: found)
      rw [List.map_cons, canonical] at htrue
      simp only [canonical, htrue]
      exact visit_canonical onFalse _
    | .switch n node routes => exact visitRoutes_canonical routes (.switch n node routes :: found)
    | .loop n node body kind params =>
      exact visit_canonical body (.loop n node body kind params :: found)

theorem visitAll_canonical (blocks : List Block) (found : List Block) :
    visitAll (canonicalAll blocks) (found.map canonical) =
      (visitAll blocks found).map canonical := by
  match blocks with
  | [] => rfl
  | b :: rest =>
    rw [canonicalAll, visitAll, visitAll, visit_canonical b found, visitAll_canonical rest]

theorem visitRoutes_canonical (routes : List (Exit × Block)) (found : List Block) :
    visitRoutes (canonicalRoutes routes) (found.map canonical) =
      (visitRoutes routes found).map canonical := by
  match routes with
  | [] => rfl
  | (_, b) :: rest =>
    rw [canonicalRoutes, visitRoutes, visitRoutes, visit_canonical b found,
      visitRoutes_canonical rest]

end

theorem walk_canonical (b : Block) : b.canonical.walk = b.walk.map canonical := by
  have hvisit := visit_canonical b []
  rw [List.map_nil] at hvisit
  rw [walk, hvisit, walk, List.map_reverse]

end Block

namespace Resolution
open Block

theorem nestedKeys_canonical (b : Block) : nestedKeys b.canonical = nestedKeys b := by
  rw [nestedKeys, walk_canonical, List.filterMap_map, nestedKeys]
  simp only [Function.comp_def, serial_canonical, sharedKey?_canonical]

theorem heldBack_canonical (blocks : List Block) :
    heldBack (blocks.map canonical) = (heldBack blocks).map (Prod.map id canonical) :=
  heldBack_map sharedKey?_canonical blocks

theorem splice_canonical (chains : List (List Block)) :
    splice (chains.map (List.map canonical)) = (splice chains).map canonical := by
  have hflat : (chains.map (List.map canonical)).flatten = chains.flatten.map canonical := by
    rw [List.map_flatten]
  simp only [splice, hflat, heldBack_canonical, List.flatMap_map, nestedKeys_canonical,
    List.map_append, List.filter_map, List.map_map, Function.comp_def, sharedKey?_canonical,
    Prod.map_fst, Prod.map_snd, id]

end Resolution

end WorkflowCompiler
