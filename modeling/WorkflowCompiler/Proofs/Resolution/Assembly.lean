import Mathlib
import WorkflowCompiler.Proofs.Block.Within
import WorkflowCompiler.Proofs.Resolution.Log
import WorkflowCompiler.Proofs.Resolution.Splice

/-! # What the blocks of a node hold

Whatever its kind, a node gives one block that holds the contents of its limbs in slots, and perhaps
a step in front of that; then its chain goes on. Nothing that the strands give is left out.
-/
namespace WorkflowCompiler

/-- The id of the node that a block stands for as its main block. The split after a step with an
outcome accompanies the step. -/
def Block.mainId? : Block → Option Text
  | .branch _ _ _ _ _ (some _) => none
  | b => b.node?.map (·.id)

theorem exists_node_of_mainId? {b : Block} {id : Text} (hid : b.mainId? = some id) :
    ∃ node, b.node? = some node ∧ node.id = id := by
  unfold Block.mainId? at hid
  split at hid
  · cases hid
  · exact Option.map_eq_some_iff.mp hid

theorem id_of_mainId? {b : Block} {id : Text} {node : Node} (hid : b.mainId? = some id)
    (hnode : b.node? = some node) : node.id = id := by
  obtain ⟨other, hother, rfl⟩ := exists_node_of_mainId? hid
  rw [Option.some.inj (hnode.symm.trans hother)]

namespace Resolution
open Block

/-- Blocks hold what some strands give: each of them is from a strand, and all that a strand gives
stands in one of them. -/
structure Covers (ls : List Laid) (slots : List Block) : Prop where
  origin : ∀ b ∈ slots, ∃ l ∈ ls, b ∈ l.made ∨ b ∈ l.content
  holds : ∀ l ∈ ls, ∀ x, x ∈ l.made ∨ x ∈ l.content → ∃ b ∈ slots, x.Within b
  plain : ∀ l ∈ ls, ∀ x ∈ l.made, ∃ n, x = .sequence n l.content none none

theorem covers_nil : Covers [] [] := ⟨by simp, by simp, by simp⟩

theorem Laid.Plain.covers {l : Laid} (h : l.Plain) : Covers [l] l.content where
  origin b hb := ⟨l, List.mem_singleton_self l, Or.inr hb⟩
  holds l' hl x hx := by
    rw [List.mem_singleton.mp hl, h.made] at hx
    rcases hx with hx | hx
    · exact absurd hx List.not_mem_nil
    · exact ⟨x, hx, .refl x⟩
  plain l' hl x hx := by
    rw [List.mem_singleton.mp hl, h.made] at hx
    exact absurd hx List.not_mem_nil

theorem Covers.append {ls ls' : List Laid} {bs bs' : List Block} (h : Covers ls bs)
    (h' : Covers ls' bs') : Covers (ls ++ ls') (bs ++ bs') where
  origin b hb := by
    rcases List.mem_append.mp hb with hb | hb
    · obtain ⟨l, hl, ho⟩ := h.origin b hb
      exact ⟨l, List.mem_append_left _ hl, ho⟩
    · obtain ⟨l, hl, ho⟩ := h'.origin b hb
      exact ⟨l, List.mem_append_right _ hl, ho⟩
  holds l hl x hx := by
    rcases List.mem_append.mp hl with hl | hl
    · obtain ⟨b, hb, hw⟩ := h.holds l hl x hx
      exact ⟨b, List.mem_append_left _ hb, hw⟩
    · obtain ⟨b, hb, hw⟩ := h'.holds l hl x hx
      exact ⟨b, List.mem_append_right _ hb, hw⟩
  plain l hl x hx := by
    rcases List.mem_append.mp hl with hl | hl
    · exact h.plain l hl x hx
    · exact h'.plain l hl x hx

theorem Laid.Wraps.covers {l : Laid} {b : Block} (h : l.Wraps b) : Covers [l] [b] := by
  rcases h with ⟨hcontent, hmade⟩ | ⟨n, rfl, hmade⟩
  · refine ⟨by simp [hcontent], ?_, by simp [hmade]⟩
    intro l' hl x hx
    rw [List.mem_singleton.mp hl, hcontent, hmade] at hx
    exact ⟨b, List.mem_singleton_self b, by
      rcases hx with hx | hx
      · exact absurd hx List.not_mem_nil
      · rw [List.mem_singleton.mp hx]
        exact .refl b⟩
  · refine ⟨by simp [hmade], ?_, by simp [hmade]⟩
    intro l' hl x hx
    rw [List.mem_singleton.mp hl, hmade] at hx
    refine ⟨_, List.mem_singleton_self _, ?_⟩
    rcases hx with hx | hx
    · rw [List.mem_singleton.mp hx]
      exact .refl _
    · exact within_of_mem_children hx

theorem MemberBlocks.covers {ls : List Laid} {bs : List Block} (h : MemberBlocks ls bs) :
    Covers ls bs := by
  induction h with
  | nil => exact covers_nil
  | @skip l rest members hcontent hmade _ ih =>
    have hempty : Covers [l] [] := ⟨by simp, by simp [hcontent, hmade], by simp [hmade]⟩
    exact hempty.append ih
  | cons hw _ ih => exact hw.wraps.covers.append ih

theorem covers_routes {R : Laid → Exit × Block → Prop} (hR : ∀ l r, R l r → l.Wraps r.2)
    {ls : List Laid} {routes : List (Exit × Block)} (h : List.Forall₂ R ls routes) :
    Covers ls (routes.map (·.2)) := by
  induction h with
  | nil => exact covers_nil
  | cons hl _ ih => exact (hR _ _ hl).covers.append ih

/-- The blocks of a node: those made for it, in front of what its chain goes on with. One of them
has all slots as its children, and the other ones have none. -/
structure Shape (node : Node) (heads : List Block) (laid : List Laid) (items : List Block)
    (inner : List Laid) (rest : Laid) (slots : List Block) : Prop where
  laid : laid = inner ++ [rest]
  items : items = heads ++ rest.content
  rest : rest.Plain
  covers : Covers inner slots
  children : ∀ h ∈ heads, h.children = [] ∨ h.children = slots
  holder : ∃ h ∈ heads, h.children = slots
  unshared : ∀ h ∈ heads, h.sharedKey? = none
  main : heads.filterMap mainId? = [node.id]

theorem Assembled.shape {node : Node} {heads items : List Block} {laid : List Laid}
    (h : Assembled node heads laid items) :
    ∃ inner rest slots, Shape node heads laid items inner rest slots := by
  cases h with
  | @step n rest _ hrest =>
    exact ⟨[], rest, [], rfl, rfl, hrest, covers_nil, by simp [Block.children],
      by simp [Block.children], by simp [sharedKey?], rfl⟩
  | @sequential n inner rest _ hinner hrest =>
    exact ⟨[inner], rest, inner.content, rfl, rfl, hrest, hinner.covers, by simp [Block.children],
      by simp [Block.children], by simp [sharedKey?], rfl⟩
  | @parallel n inner members join rest _ _ hm _ hrest =>
    exact ⟨inner, rest, members, rfl, rfl, hrest, hm.covers, by simp [Block.children],
      by simp [Block.children], by simp [sharedKey?], rfl⟩
  | @conditional n condition onTrue onFalse a b rest _ _ ha hb _ _ hrest =>
    exact ⟨[a, b], rest, [onTrue, onFalse], rfl, rfl, hrest,
      ha.wraps.covers.append hb.wraps.covers,
      by simp [Block.children], by simp [Block.children], by simp [sharedKey?], rfl⟩
  | @outcome m n success failure onTrue onFalse a b rest _ ha hb _ _ hrest =>
    exact ⟨[a, b], rest, [onTrue, onFalse], rfl, rfl, hrest,
      ha.wraps.covers.append hb.wraps.covers,
      by simp [Block.children], by simp [Block.children], by simp [sharedKey?], rfl⟩
  | @switch n inner routes rest _ _ hf hrest =>
    exact ⟨inner, rest, routes.map (·.2), rfl, rfl, hrest, covers_routes (fun _ _ h => h.1.wraps) hf,
      by simp [Block.children], by simp [Block.children], by simp [sharedKey?], rfl⟩
  | @loop n body kind params inner rest _ _ _ hw _ hrest =>
    exact ⟨[inner], rest, [body], rfl, rfl, hrest, hw.wraps.covers, by simp [Block.children],
      by simp [Block.children], by simp [sharedKey?], rfl⟩

theorem Assembled.resume {node : Node} {heads items : List Block} {laid : List Laid}
    (h : Assembled node heads laid items) :
    ∃ inner rest, laid = inner ++ [rest] ∧ items = heads ++ rest.content ∧
      ∀ rest' : Laid, rest'.Plain →
        Assembled node heads (inner ++ [rest']) (heads ++ rest'.content) := by
  cases h with
  | @step n rest hk _ => exact ⟨[], rest, rfl, rfl, fun _ => .step hk⟩
  | @sequential n inner rest hk hi _ => exact ⟨[inner], rest, rfl, rfl, fun _ => .sequential hk hi⟩
  | @parallel n inner members join rest hk hj hm hi _ =>
    exact ⟨inner, rest, rfl, rfl, fun _ => .parallel hk hj hm hi⟩
  | @conditional n condition onTrue onFalse a b rest hk hc ha hb hga hgb _ =>
    exact ⟨[a, b], rest, rfl, rfl, fun _ => .conditional hk hc ha hb hga hgb⟩
  | @outcome m n success failure onTrue onFalse a b rest ho ha hb hga hgb _ =>
    exact ⟨[a, b], rest, rfl, rfl, fun _ => .outcome ho ha hb hga hgb⟩
  | @switch n inner routes rest hk he hf _ =>
    exact ⟨inner, rest, rfl, rfl, fun _ => .switch hk he hf⟩
  | @loop n body kind params inner rest hk hkind hp hw hg _ =>
    exact ⟨[inner], rest, rfl, rfl, fun _ => .loop hk hkind hp hw hg⟩

section Parts
variable {node : Node} {heads items : List Block} {laid : List Laid}

/-- The blocks that an entry makes: those for its node, and the sequences around its strands. -/
def ownBlocks (heads : List Block) (laid : List Laid) : List Block :=
  heads ++ laid.flatMap Laid.made

theorem mem_ownBlocks {b : Block} :
    b ∈ ownBlocks heads laid ↔ b ∈ heads ∨ ∃ l ∈ laid, b ∈ l.made := by
  simp [ownBlocks]

theorem Assembled.item_origin (h : Assembled node heads laid items) {b : Block} (hb : b ∈ items) :
    b ∈ ownBlocks heads laid ∨ ∃ l ∈ laid, b ∈ l.content := by
  obtain ⟨inner, rest, slots, hs⟩ := h.shape
  rw [hs.items] at hb
  rcases List.mem_append.mp hb with hb | hb
  · exact Or.inl (mem_ownBlocks.mpr (Or.inl hb))
  · exact Or.inr ⟨rest, by simp [hs.laid], hb⟩

theorem Assembled.child_origin (h : Assembled node heads laid items) {b c : Block}
    (hb : b ∈ ownBlocks heads laid) (hc : c ∈ b.children) :
    c ∈ ownBlocks heads laid ∨ ∃ l ∈ laid, c ∈ l.content := by
  obtain ⟨inner, rest, slots, hs⟩ := h.shape
  rcases mem_ownBlocks.mp hb with hb | ⟨l, hl, hb⟩
  · rcases hs.children b hb with hnone | hslots
    · rw [hnone] at hc
      exact absurd hc List.not_mem_nil
    · obtain ⟨l, hl, ho⟩ := hs.covers.origin c (hslots ▸ hc)
      have hl' : l ∈ laid := hs.laid ▸ List.mem_append_left _ hl
      rcases ho with ho | ho
      · exact Or.inl (mem_ownBlocks.mpr (Or.inr ⟨l, hl', ho⟩))
      · exact Or.inr ⟨l, hl', ho⟩
  · right
    rw [hs.laid] at hl
    rcases List.mem_append.mp hl with hl' | hl'
    · obtain ⟨n, rfl⟩ := hs.covers.plain l hl' b hb
      exact ⟨l, hs.laid ▸ hl, hc⟩
    · rw [List.mem_singleton.mp hl', hs.rest.made] at hb
      exact absurd hb List.not_mem_nil

theorem Assembled.holds (h : Assembled node heads laid items) {x : Block}
    (hx : x ∈ ownBlocks heads laid ∨ ∃ l ∈ laid, x ∈ l.content) :
    ∃ item ∈ items, x.Within item := by
  obtain ⟨inner, rest, slots, hs⟩ := h.shape
  have hhead : ∀ b ∈ heads, b ∈ items := fun b hb => hs.items ▸ List.mem_append_left _ hb
  have hinner : ∀ l ∈ inner, x ∈ l.made ∨ x ∈ l.content → ∃ item ∈ items, x.Within item := by
    intro l hl hx
    obtain ⟨b, hb, hw⟩ := hs.covers.holds l hl x hx
    obtain ⟨holder, hmem, hchildren⟩ := hs.holder
    exact ⟨holder, hhead holder hmem, hw.trans (within_of_mem_children (hchildren ▸ hb))⟩
  have hlaid : ∀ l ∈ laid, x ∈ l.made ∨ x ∈ l.content → ∃ item ∈ items, x.Within item := by
    intro l hl hx
    rw [hs.laid] at hl
    rcases List.mem_append.mp hl with hl | hl
    · exact hinner l hl hx
    · rw [List.mem_singleton.mp hl, hs.rest.made] at hx
      rcases hx with hx | hx
      · exact absurd hx List.not_mem_nil
      · exact ⟨x, hs.items ▸ List.mem_append_right _ hx, .refl x⟩
  rcases hx with hx | ⟨l, hl, hx⟩
  · rcases mem_ownBlocks.mp hx with hx | ⟨l, hl, hx⟩
    · exact ⟨x, hhead x hx, .refl x⟩
    · exact hlaid l hl (Or.inl hx)
  · exact hlaid l hl (Or.inr hx)

theorem Assembled.made_plain (h : Assembled node heads laid items) {l : Laid} (hl : l ∈ laid)
    {b : Block} (hb : b ∈ l.made) : ∃ n, b = .sequence n l.content none none := by
  obtain ⟨inner, rest, slots, hs⟩ := h.shape
  rw [hs.laid] at hl
  rcases List.mem_append.mp hl with hl | hl
  · exact hs.covers.plain l hl b hb
  · rw [List.mem_singleton.mp hl, hs.rest.made] at hb
    exact absurd hb List.not_mem_nil

theorem Assembled.unshared (h : Assembled node heads laid items) {b : Block}
    (hb : b ∈ ownBlocks heads laid) : b.sharedKey? = none := by
  rcases mem_ownBlocks.mp hb with hb | ⟨l, hl, hb⟩
  · obtain ⟨inner, rest, slots, hs⟩ := h.shape
    exact hs.unshared b hb
  · obtain ⟨n, rfl⟩ := h.made_plain hl hb
    rfl

theorem Assembled.main (h : Assembled node heads laid items) :
    (ownBlocks heads laid).filterMap mainId? = [node.id] := by
  obtain ⟨inner, rest, slots, hs⟩ := h.shape
  have hnone : (laid.flatMap Laid.made).filterMap mainId? = [] := by
    rw [List.filterMap_eq_nil_iff]
    intro b hb
    obtain ⟨l, hl, hb⟩ := List.mem_flatMap.mp hb
    obtain ⟨n, rfl⟩ := h.made_plain hl hb
    rfl
  rw [ownBlocks, List.filterMap_append, hs.main, hnone, List.append_nil]

/-- What stands inside the blocks of a node was made for them, or stands inside what a strand
gives. -/
theorem Assembled.within_origin (h : Assembled node heads laid items) {x item : Block}
    (hitem : item ∈ items) (hx : x.Within item) :
    x ∈ ownBlocks heads laid ∨ ∃ l ∈ laid, ∃ b ∈ l.content, x.Within b := by
  have hlift : ∀ y, y ∈ ownBlocks heads laid ∨ (∃ l ∈ laid, y ∈ l.content) →
      y ∈ ownBlocks heads laid ∨ ∃ l ∈ laid, ∃ b ∈ l.content, y.Within b := by
    rintro y (hy | ⟨l, hl, hy⟩)
    · exact Or.inl hy
    · exact Or.inr ⟨l, hl, y, hy, .refl y⟩
  induction hx using Relation.ReflTransGen.head_induction_on with
  | refl => exact hlift _ (h.item_origin hitem)
  | head hac _ ih =>
    rcases ih with ih | ⟨l, hl, b, hb, hw⟩
    · exact hlift _ (h.child_origin ih hac)
    · exact Or.inr ⟨l, hl, b, hb, Within.trans (within_of_mem_children hac) hw⟩

end Parts

theorem Laid.Joins.mem_result {l : Laid} (h : l.Joins) {b : Block} (hb : b ∈ l.content) :
    ∃ c ∈ l.calls, b ∈ c.result := by
  have hflat : b ∈ (l.calls.map (·.result)).flatten := by
    rcases h.content with hcontent | hcontent
    · exact mem_flatten_of_mem_splice (hcontent ▸ hb)
    · simpa [hcontent] using hb
  obtain ⟨_, hresult, hb⟩ := List.mem_flatten.mp hflat
  obtain ⟨c, hc, rfl⟩ := List.mem_map.mp hresult
  exact ⟨c, hc, hb⟩

end Resolution

end WorkflowCompiler
