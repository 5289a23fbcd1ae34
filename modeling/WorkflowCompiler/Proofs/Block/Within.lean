import Mathlib
import WorkflowCompiler.Block.Basic
import WorkflowCompiler.Proofs.Block.Occurrence

/-! # Blocks inside blocks

A walk through a block meets every block inside it exactly once, provided that serial numbers tell
apart the blocks inside it.
-/
namespace WorkflowCompiler.Block

/-- A block is another one or stands inside it, at any depth. -/
def Within : Block → Block → Prop := Relation.ReflTransGen fun a b => a ∈ b.children

theorem Within.refl (b : Block) : b.Within b := Relation.ReflTransGen.refl

theorem Within.trans {a b c : Block} (h : a.Within b) (h' : b.Within c) : a.Within c :=
  Relation.ReflTransGen.trans h h'

theorem within_of_mem_children {a b : Block} (h : a ∈ b.children) : a.Within b :=
  Relation.ReflTransGen.single h

/-- What stands inside a block is the block or stands inside one of its children. -/
theorem within_iff {a b : Block} : a.Within b ↔ a = b ∨ ∃ c ∈ b.children, a.Within c := by
  constructor
  · intro h
    rcases Relation.ReflTransGen.cases_tail h with h | ⟨c, hac, hcb⟩
    · exact Or.inl h.symm
    · exact Or.inr ⟨c, hcb, hac⟩
  · rintro (rfl | ⟨c, hc, hac⟩)
    · exact .refl _
    · exact hac.trans (within_of_mem_children hc)

theorem Within.eq_or_sizeOf_lt {a b : Block} (h : a.Within b) : a = b ∨ sizeOf a < sizeOf b := by
  induction h with
  | refl => exact Or.inl rfl
  | tail _ hbc ih =>
    right
    rcases ih with rfl | hlt
    · exact sizeOf_lt_of_mem_children hbc
    · exact hlt.trans (sizeOf_lt_of_mem_children hbc)

theorem Within.sizeOf_le {a b : Block} (h : a.Within b) : sizeOf a ≤ sizeOf b := by
  rcases h.eq_or_sizeOf_lt with rfl | hlt
  · exact le_rfl
  · exact hlt.le

/-- Serial numbers tell apart some blocks. -/
def Coherent (blocks : Block → Prop) : Prop :=
  ∀ a b, blocks a → blocks b → a.serial = b.serial → a = b

theorem visitAll_eq_foldl (blocks found : List Block) :
    visitAll blocks found = blocks.foldl (fun found b => visit b found) found := by
  induction blocks generalizing found with
  | nil => rfl
  | cons b rest ih => rw [visitAll, ih, List.foldl_cons]

theorem visitRoutes_eq_foldl (routes : List (Exit × Block)) (found : List Block) :
    visitRoutes routes found = (routes.map (·.2)).foldl (fun found b => visit b found) found := by
  induction routes generalizing found with
  | nil => rfl
  | cons route rest ih => rw [visitRoutes, ih, List.map_cons, List.foldl_cons]

theorem visit_eq (b : Block) (found : List Block) :
    visit b found = if found.any (·.serial == b.serial) then found
      else b.children.foldl (fun found c => visit c found) (b :: found) := by
  cases b <;>
    simp only [visit, children, visitAll_eq_foldl, visitRoutes_eq_foldl, List.foldl_cons,
      List.foldl_nil]

/-- What a visit finds: it keeps what was found, adds only blocks inside the visited one, and never
a second one with the same serial number. -/
structure Extends (found : List Block) (inside : Block → Prop) (found' : List Block) : Prop where
  keeps : ∀ x ∈ found, x ∈ found'
  within : ∀ x ∈ found', x ∈ found ∨ inside x
  nodup : (found.map serial).Nodup → (found'.map serial).Nodup

theorem Extends.refl (found : List Block) (inside : Block → Prop) :
    Extends found inside found := ⟨fun _ h => h, fun _ h => Or.inl h, id⟩

theorem Extends.trans {a b c : List Block} {inside : Block → Prop} (h : Extends a inside b)
    (h' : Extends b inside c) : Extends a inside c where
  keeps x hx := h'.keeps x (h.keeps x hx)
  within x hx := by
    rcases h'.within x hx with hx | hx
    · exact h.within x hx
    · exact Or.inr hx
  nodup hn := h'.nodup (h.nodup hn)

theorem Extends.mono {a b : List Block} {inside inside' : Block → Prop}
    (hi : ∀ x, inside x → inside' x) (h : Extends a inside b) : Extends a inside' b where
  keeps := h.keeps
  within x hx := (h.within x hx).imp_right (hi x)
  nodup := h.nodup

theorem extends_foldl {inside : Block → Prop} {blocks found : List Block}
    (h : ∀ b ∈ blocks, ∀ found, Extends found inside (visit b found)) :
    Extends found inside (blocks.foldl (fun found b => visit b found) found) := by
  induction blocks generalizing found with
  | nil => exact .refl _ _
  | cons b rest ih =>
    exact (h b List.mem_cons_self found).trans (ih fun c hc => h c (List.mem_cons_of_mem _ hc))

theorem extends_visit (b : Block) (found : List Block) :
    Extends found (·.Within b) (visit b found) := by
  induction b using children_induction generalizing found with
  | step b ih =>
    rw [visit_eq]
    split
    next => exact .refl _ _
    next hnew =>
      have hadd : Extends found (·.Within b) (b :: found) := by
        refine ⟨fun x hx => List.mem_cons_of_mem _ hx, ?_, ?_⟩
        · intro x hx
          rcases List.mem_cons.mp hx with rfl | hx
          · exact Or.inr (.refl _)
          · exact Or.inl hx
        · intro hn
          refine List.nodup_cons.mpr ⟨?_, hn⟩
          intro hmem
          obtain ⟨x, hx, hs⟩ := List.mem_map.mp hmem
          exact hnew (List.any_eq_true.mpr ⟨x, hx, by simpa using hs⟩)
      refine hadd.trans (extends_foldl fun c hc found => ?_)
      exact (ih c hc found).mono fun x hx => hx.trans (within_of_mem_children hc)

/-- Below a size, what was found includes the children of what was found. -/
def ClosedBelow (size : Nat) (found : List Block) : Prop :=
  ∀ x ∈ found, sizeOf x ≤ size → ∀ c ∈ x.children, c ∈ found

theorem foldl_closed {blocks : Block → Prop} {size : Nat} {cs found : List Block}
    (hcs : ∀ c ∈ cs, ∀ x, x.Within c → blocks x)
    (h : ∀ c ∈ cs, ∀ found : List Block, (∀ x ∈ found, blocks x) → ClosedBelow size found →
      ClosedBelow size (visit c found) ∧ c ∈ visit c found)
    (hfound : ∀ x ∈ found, blocks x) (hclosed : ClosedBelow size found) :
    ClosedBelow size (cs.foldl (fun found c => visit c found) found) ∧
      ∀ c ∈ cs, c ∈ cs.foldl (fun found c => visit c found) found := by
  induction cs generalizing found with
  | nil => exact ⟨hclosed, by simp⟩
  | cons c rest ih =>
    obtain ⟨hc, hmem⟩ := h c List.mem_cons_self found hfound hclosed
    have hfound' : ∀ x ∈ visit c found, blocks x := fun x hx =>
      ((extends_visit c found).within x hx).elim (hfound x) (hcs c List.mem_cons_self x)
    obtain ⟨hrest, hall⟩ := ih (fun d hd => hcs d (List.mem_cons_of_mem _ hd))
      (fun d hd => h d (List.mem_cons_of_mem _ hd)) hfound' hc
    refine ⟨hrest, ?_⟩
    intro x hx
    rcases List.mem_cons.mp hx with rfl | hx
    · have hkeep : Extends (visit x found) (fun _ => True)
          (rest.foldl (fun found c => visit c found) (visit x found)) :=
        extends_foldl fun d _ found => (extends_visit d found).mono fun _ _ => trivial
      exact hkeep.keeps x hmem
    · exact hall x hx

/-- A block that is added is not closed yet, so the blocks are closed only below its size. -/
theorem ClosedBelow.cons {size : Nat} {found : List Block} (h : ClosedBelow size found) {b : Block}
    (hsize : sizeOf b ≤ size) : ClosedBelow (sizeOf b - 1) (b :: found) := by
  intro x hx hs c hc
  rcases List.mem_cons.mp hx with rfl | hx
  · have := sizeOf_lt_of_mem_children hc
    omega
  · exact List.mem_cons_of_mem _ (h x hx (by omega) c hc)

/-- A visit finds the visited block, and closes what it finds. The blocks around the visited one are
larger than it, so it does not matter that their children are still to come. -/
theorem visit_closed {blocks : Block → Prop} (hco : Coherent blocks) {b : Block}
    (hb : ∀ x, x.Within b → blocks x) {size : Nat} (hsize : sizeOf b ≤ size)
    {found : List Block} (hfound : ∀ x ∈ found, blocks x) (hclosed : ClosedBelow size found) :
    ClosedBelow size (visit b found) ∧ b ∈ visit b found := by
  induction b using children_induction generalizing size found with
  | step b ih =>
    have hkeep := extends_visit b found
    rw [visit_eq] at hkeep ⊢
    split
    next hold =>
      obtain ⟨x, hx, hs⟩ := List.any_eq_true.mp hold
      obtain rfl := hco x b (hfound x hx) (hb b (.refl b)) (by simpa using hs)
      exact ⟨hclosed, hx⟩
    next hnew =>
      rw [if_neg hnew] at hkeep
      have hcs : ∀ c ∈ b.children, ∀ x, x.Within c → blocks x :=
        fun c hc x hx => hb x (hx.trans (within_of_mem_children hc))
      have hadd : ∀ x ∈ b :: found, blocks x :=
        List.forall_mem_cons.mpr ⟨hb b (.refl b), hfound⟩
      have hopen := hclosed.cons hsize
      obtain ⟨hbelow, hmem⟩ := foldl_closed hcs (fun c hc found hf hcl =>
        ih c hc (hcs c hc) (by have := sizeOf_lt_of_mem_children hc; omega) hf hcl) hadd hopen
      have hself : b ∈ b.children.foldl (fun found c => visit c found) (b :: found) := by
        have hadds : Extends (b :: found) (fun _ => True)
            (b.children.foldl (fun found c => visit c found) (b :: found)) :=
          extends_foldl fun d _ found => (extends_visit d found).mono fun _ _ => trivial
        exact hadds.keeps b List.mem_cons_self
      refine ⟨?_, hself⟩
      intro x hx hs c hc
      rcases hkeep.within x hx with hx' | hx'
      · exact hkeep.keeps c (hclosed x hx' hs c hc)
      · rcases hx'.eq_or_sizeOf_lt with rfl | hlt
        · exact hmem c hc
        · exact hbelow x hx (by omega) c hc

theorem walk_nodup (b : Block) : (b.walk.map serial).Nodup := by
  rw [walk, List.map_reverse, List.nodup_reverse]
  exact (extends_visit b []).nodup (by simp)

theorem within_of_mem_walk {x b : Block} (h : x ∈ b.walk) : x.Within b := by
  rcases (extends_visit b []).within x (List.mem_reverse.mp h) with h | h
  · exact absurd h List.not_mem_nil
  · exact h

theorem mem_walk {x b : Block} (hco : Coherent (·.Within b)) : x ∈ b.walk ↔ x.Within b := by
  refine ⟨within_of_mem_walk, fun h => ?_⟩
  have hempty : ClosedBelow (sizeOf b) [] := fun x hx => absurd hx List.not_mem_nil
  obtain ⟨hclosed, hself⟩ := visit_closed hco (fun _ h => h) le_rfl (by simp) hempty
  rw [walk, List.mem_reverse]
  -- from the block inwards, child by child
  induction h using Relation.ReflTransGen.head_induction_on with
  | refl => exact hself
  | head hac hcb ih => exact hclosed _ ih (Within.sizeOf_le hcb) _ hac

end WorkflowCompiler.Block
