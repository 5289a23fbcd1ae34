import Mathlib
import WorkflowCompiler.Graph.Basic

/-! # The order of texts

Texts are totally ordered, so edges with distinct ids have one ascending order only.
-/
namespace WorkflowCompiler

theorem CodePoint.toNat_injective {a b : CodePoint} (h : a.toNat = b.toNat) : a = b := by
  -- the numbers of characters leave out those of the surrogates
  have hvalid : ∀ (c : Char) (offset : Fin 0x800), c.toNat ≠ 0xD800 + offset.val := by
    intro c offset heq
    have hscalar : c.toNat < 0xD800 ∨ 0xDFFF < c.toNat ∧ c.toNat < 0x110000 := c.valid
    have hoffset := offset.isLt
    omega
  cases a with
  | char c =>
    cases b with
    | char d => exact congrArg CodePoint.char (Char.toNat_inj.mp h)
    | surrogate offset => exact absurd h (hvalid c offset)
  | surrogate offset =>
    cases b with
    | char d => exact absurd h.symm (hvalid d offset)
    | surrogate other =>
      simp only [toNat] at h
      exact congrArg CodePoint.surrogate (Fin.ext (by omega))

namespace Text

theorem le_cons_iff {a b : CodePoint} {as bs : Text} :
    le (a :: as) (b :: bs) ↔ a.toNat < b.toNat ∨ a = b ∧ le as bs := by
  simp only [le, Bool.or_eq_true, Bool.and_eq_true, decide_eq_true_eq, beq_iff_eq]
  constructor
  · rintro (h | ⟨h, hle⟩)
    · exact Or.inl h
    · exact Or.inr ⟨CodePoint.toNat_injective h, hle⟩
  · rintro (h | ⟨rfl, hle⟩)
    · exact Or.inl h
    · exact Or.inr ⟨rfl, hle⟩

theorem le_trans {a b c : Text} (hab : le a b) (hbc : le b c) : le a c := by
  induction a generalizing b c with
  | nil => rfl
  | cons x as ih =>
    cases b with
    | nil => cases hab
    | cons y bs =>
      cases c with
      | nil => cases hbc
      | cons z cs =>
        rw [le_cons_iff] at hab hbc ⊢
        rcases hab with hab | ⟨rfl, hab⟩
        · rcases hbc with hbc | ⟨rfl, _⟩
          · exact Or.inl (by omega)
          · exact Or.inl hab
        · rcases hbc with hbc | ⟨rfl, hbc⟩
          · exact Or.inl hbc
          · exact Or.inr ⟨rfl, ih hab hbc⟩

theorem le_total (a b : Text) : le a b ∨ le b a := by
  induction a generalizing b with
  | nil => exact Or.inl rfl
  | cons x as ih =>
    cases b with
    | nil => exact Or.inr rfl
    | cons y bs =>
      rw [le_cons_iff, le_cons_iff]
      rcases Nat.lt_trichotomy x.toNat y.toNat with h | h | h
      · exact Or.inl (Or.inl h)
      · obtain rfl := CodePoint.toNat_injective h
        exact (ih bs).imp (fun h => Or.inr ⟨rfl, h⟩) fun h => Or.inr ⟨rfl, h⟩
      · exact Or.inr (Or.inl h)

theorem le_antisymm {a b : Text} (hab : le a b) (hba : le b a) : a = b := by
  induction a generalizing b with
  | nil =>
    cases b with
    | nil => rfl
    | cons y bs => cases hba
  | cons x as ih =>
    cases b with
    | nil => cases hab
    | cons y bs =>
      rw [le_cons_iff] at hab hba
      rcases hab with hab | ⟨rfl, hab⟩
      · rcases hba with hba | ⟨rfl, _⟩ <;> omega
      · rcases hba with hba | ⟨_, hba⟩
        · omega
        · rw [ih hab hba]

theorem pairwise_sort (xs : List Text) : (sort xs).Pairwise fun a b => le a b = true := by
  refine List.pairwise_mergeSort ?_ ?_ xs
  · intro a b c
    exact le_trans
  · intro a b
    rw [Bool.or_eq_true]
    exact le_total a b

theorem sort_congr {xs ys : List Text} (h : xs.Perm ys) : sort xs = sort ys := by
  have hsort : ∀ zs, (sort zs).Perm zs := fun zs => List.mergeSort_perm zs _
  exact List.Perm.eq_of_pairwise (fun _ _ _ _ => le_antisymm) (pairwise_sort xs) (pairwise_sort ys)
    ((hsort xs).trans (h.trans (hsort ys).symm))

end Text

theorem pairwise_sortEdges (edges : List Edge) :
    (sortEdges edges).Pairwise fun a b => Text.le a.id b.id := by
  refine List.pairwise_mergeSort ?_ ?_ edges
  · intro a b c
    exact Text.le_trans
  · intro a b
    rw [Bool.or_eq_true]
    exact Text.le_total a.id b.id

theorem sortEdges_congr {edges edges' : List Edge} (h : edges.Perm edges')
    (hnodup : (edges.map (·.id)).Nodup) : sortEdges edges = sortEdges edges' := by
  have hsort : ∀ es, (sortEdges es).Perm es := fun es => List.mergeSort_perm es _
  refine List.Perm.eq_of_pairwise ?_ (pairwise_sortEdges _) (pairwise_sortEdges _)
    ((hsort edges).trans (h.trans (hsort edges').symm))
  intro a b ha hb hab hba
  exact List.inj_on_of_nodup_map hnodup ((hsort edges).mem_iff.mp ha)
    (h.mem_iff.mpr ((hsort edges').mem_iff.mp hb)) (Text.le_antisymm hab hba)

theorem sortEdges_filter {edges : List Edge} (hnodup : (edges.map (·.id)).Nodup)
    (p : Edge → Bool) : sortEdges (edges.filter p) = (sortEdges edges).filter p := by
  have hperm : (edges.filter p).Perm ((sortEdges edges).filter p) :=
    (List.mergeSort_perm edges _).symm.filter p
  rw [sortEdges_congr hperm (hnodup.sublist (List.filter_sublist.map _))]
  exact List.mergeSort_of_pairwise ((pairwise_sortEdges edges).filter p)

end WorkflowCompiler
