import Mathlib
import WorkflowCompiler.Identifier.Basic

/-! # Fresh identifiers

An allocator never hands out an identifier that is taken. The numbered forms of a base are all
different, so that one more of them than there are taken identifiers cannot all be taken.
-/
namespace WorkflowCompiler.Identifier.Allocator

theorem numbered_injective (base : Text) : Function.Injective (numbered base) := by
  intro m n h
  unfold numbered at h
  have hchars : (toString m).toList = (toString n).toList := by
    apply List.map_injective_iff.mpr fun a b hab => CodePoint.char.inj hab
    exact List.append_cancel_left h
  exact Nat.repr_injective (String.toList_inj.mp hchars)

/-- If the search ends at a taken identifier, every form it went past is taken. -/
theorem numbered_mem_of_firstFree_mem {taken : List Text} {base : Text} {attempts n : Nat}
    (h : firstFree taken base attempts n ∈ taken) {i : Nat} (hi : i ≤ attempts) :
    numbered base (n + i) ∈ taken := by
  induction attempts generalizing n i with
  | zero =>
    obtain rfl : i = 0 := by omega
    exact h
  | succ attempts ih =>
    rw [firstFree] at h
    split at h
    next htaken =>
      cases i with
      | zero => exact List.contains_iff_mem.mp htaken
      | succ i =>
        have hnext := ih h (i := i) (by omega)
        rwa [show n + 1 + i = n + (i + 1) by omega] at hnext
    next hfree => exact absurd (List.contains_iff_mem.mpr h) hfree

theorem firstFree_not_mem (taken : List Text) (base : Text) (n : Nat) :
    firstFree taken base taken.length n ∉ taken := by
  intro h
  let forms := (List.range (taken.length + 1)).map fun i => numbered base (n + i)
  have hnodup : forms.Nodup := by
    apply List.nodup_range.map
    intro i j hij
    have hsum := numbered_injective base hij
    omega
  have hsubset : forms ⊆ taken := by
    intro form hform
    obtain ⟨i, hi, rfl⟩ := List.mem_map.mp hform
    have hlt := List.mem_range.mp hi
    exact numbered_mem_of_firstFree_mem h (by omega)
  have hlength := hnodup.length_le_of_subset hsubset
  simp only [forms, List.length_map, List.length_range] at hlength
  omega

theorem choose_not_mem (taken : List Text) (base : Text) : choose taken base ∉ taken := by
  unfold choose
  split
  · exact firstFree_not_mem taken base 2
  next hfree => exact fun h => hfree (List.contains_iff_mem.mpr h)

end WorkflowCompiler.Identifier.Allocator
