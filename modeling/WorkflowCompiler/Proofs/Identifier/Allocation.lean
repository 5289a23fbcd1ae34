import Mathlib
import WorkflowCompiler.Proofs.Identifier.Fresh
import WorkflowCompiler.Proofs.Identifier.Normal

/-! # Runs of an allocator

Each call of an allocator hands out the identifier of a name, or the form of it with the least
number that is not taken, and takes it. So the identifiers of a whole run are valid and all different, and
none is reserved, also where a name looks like the numbered form of another one.
-/
namespace WorkflowCompiler.Identifier.Allocator

/-- What a base is to get: itself if it is free, else its first free form from number two on. -/
def Chosen (taken : List Text) (base ident : Text) : Prop :=
  (base ∉ taken ∧ ident = base) ∨
  (base ∈ taken ∧ ∃ n, 2 ≤ n ∧ ident = numbered base n ∧ numbered base n ∉ taken ∧
    ∀ m, 2 ≤ m → m < n → numbered base m ∈ taken)

theorem Chosen.not_mem {taken : List Text} {base ident : Text} (h : Chosen taken base ident) :
    ident ∉ taken := by
  rcases h with ⟨hfree, rfl⟩ | ⟨-, n, -, rfl, hfree, -⟩
  · exact hfree
  · exact hfree

theorem Chosen.congr {taken taken' : List Text} (htaken : ∀ x, x ∈ taken ↔ x ∈ taken')
    {base ident : Text} (h : Chosen taken base ident) : Chosen taken' base ident := by
  simpa only [Chosen, htaken] using h

/-- The search ends at a numbered form, and every form before it is taken. -/
theorem exists_firstFree_eq (taken : List Text) (base : Text) (attempts n : Nat) :
    ∃ k, n ≤ k ∧ firstFree taken base attempts n = numbered base k ∧
      ∀ m, n ≤ m → m < k → numbered base m ∈ taken := by
  induction attempts generalizing n with
  | zero => exact ⟨n, le_rfl, rfl, fun m hm hlt => absurd hlt (Nat.not_lt.mpr hm)⟩
  | succ attempts ih =>
    rw [firstFree]
    split
    next htaken =>
      obtain ⟨k, hk, heq, hbefore⟩ := ih (n + 1)
      refine ⟨k, by omega, heq, fun m hm hlt => ?_⟩
      rcases Nat.eq_or_lt_of_le hm with rfl | hm
      · exact List.contains_iff_mem.mp htaken
      · exact hbefore m hm hlt
    next => exact ⟨n, le_rfl, rfl, fun m hm hlt => absurd hlt (Nat.not_lt.mpr hm)⟩

theorem chosen_choose (taken : List Text) (base : Text) :
    Chosen taken base (choose taken base) := by
  unfold choose
  split
  next htaken =>
    obtain ⟨n, hn, heq, hbefore⟩ := exists_firstFree_eq taken base taken.length 2
    have hfree := firstFree_not_mem taken base 2
    rw [heq] at hfree ⊢
    exact Or.inr ⟨List.contains_iff_mem.mp htaken, n, hn, rfl, hfree, hbefore⟩
  next hfree => exact Or.inl ⟨fun h => hfree (List.contains_iff_mem.mpr h), rfl⟩

/-- The identifiers for some names with their fallbacks, allocated one after the other. -/
def allocateAll (a : Allocator) : List (Text × Text) → List Text
  | [] => []
  | (name, fallback) :: rest =>
    (a.allocate name fallback).1 :: allocateAll (a.allocate name fallback).2 rest

section Runs
variable {a : Allocator} {calls : List (Text × Text)}

theorem length_allocateAll (a : Allocator) (calls : List (Text × Text)) :
    (a.allocateAll calls).length = calls.length := by
  induction calls generalizing a with
  | nil => rfl
  | cons call rest ih => rw [allocateAll, List.length_cons, ih, List.length_cons]

/-- Each identifier is chosen by what was taken at first and what was handed out before it. -/
theorem chosen_allocateAll {i : Nat} {name fallback ident : Text}
    (hcall : calls[i]? = some (name, fallback)) (hident : (a.allocateAll calls)[i]? = some ident) :
    Chosen (a.taken ++ (a.allocateAll calls).take i) (ofName name fallback) ident := by
  induction calls generalizing a i with
  | nil => cases hcall
  | cons call rest ih =>
    cases i with
    | zero =>
      cases hcall
      cases hident
      rw [List.take_zero, List.append_nil]
      exact chosen_choose a.taken (ofName name fallback)
    | succ i =>
      refine (ih hcall hident).congr fun x => ?_
      simp only [allocateAll, allocate, List.take_succ_cons, List.mem_append, List.mem_cons]
      tauto

theorem not_mem_taken {ident : Text} (h : ident ∈ a.allocateAll calls) : ident ∉ a.taken := by
  obtain ⟨i, hi, rfl⟩ := List.getElem_of_mem h
  have hcall : i < calls.length := length_allocateAll a calls ▸ hi
  have hchosen := chosen_allocateAll (List.getElem?_eq_getElem hcall) (List.getElem?_eq_getElem hi)
  exact fun hmem => hchosen.not_mem (List.mem_append_left _ hmem)

theorem nodup_allocateAll (a : Allocator) (calls : List (Text × Text)) :
    (a.allocateAll calls).Nodup := by
  induction calls generalizing a with
  | nil => exact List.nodup_nil
  | cons call rest ih =>
    rw [allocateAll]
    refine List.nodup_cons.mpr ⟨fun hmem => ?_, ih _⟩
    exact not_mem_taken hmem List.mem_cons_self

theorem isValid_of_mem_allocateAll
    (h : ∀ call ∈ calls, call.2 ∈ [nodeFallback, workflowFallback]) {ident : Text}
    (hident : ident ∈ a.allocateAll calls) : isValid ident = true := by
  induction calls generalizing a with
  | nil => cases hident
  | cons call rest ih =>
    obtain ⟨hcall, hrest⟩ := List.forall_mem_cons.mp h
    rcases List.mem_cons.mp hident with rfl | hident
    · exact isValid_choose (isValid_ofName (led_fallback hcall) call.1) a.taken
    · exact ih hrest hident

end Runs

/-- Whatever names are reserved and whatever names are asked for, each call gets the identifier of
its name if it is free, and else the numbered form of it with the least free number. All identifiers
are valid, none is reserved and no two are the same. -/
theorem allocateAll_fresh (reserved : List Text) {calls : List (Text × Text)}
    (h : ∀ call ∈ calls, call.2 ∈ [nodeFallback, workflowFallback]) :
    (allocateAll ⟨reserved⟩ calls).length = calls.length ∧
    (∀ (i : Nat) (name fallback ident : Text), calls[i]? = some (name, fallback) →
      (allocateAll ⟨reserved⟩ calls)[i]? = some ident →
      Chosen (reserved ++ (allocateAll ⟨reserved⟩ calls).take i) (ofName name fallback) ident) ∧
    (allocateAll ⟨reserved⟩ calls).Nodup ∧
    ∀ ident ∈ allocateAll ⟨reserved⟩ calls, ident ∉ reserved ∧ isValid ident = true :=
  ⟨length_allocateAll _ _, fun _ _ _ _ => chosen_allocateAll, nodup_allocateAll _ _,
    fun _ hident => ⟨not_mem_taken hident, isValid_of_mem_allocateAll h hident⟩⟩

/-- Names that look like numbered forms of one another. -/
def lookalikes : List (Text × Text) :=
  [("Writer", nodeFallback), ("writer", nodeFallback), ("writer 2", nodeFallback),
    ("Writer!", nodeFallback), ("", workflowFallback)]

theorem allocateAll_lookalikes :
    allocateAll ⟨["writer_3"]⟩ lookalikes =
      ["writer", "writer_2", "writer_2_2", "writer_4", "workflow"] ∧
    Chosen ["writer_3", "writer", "writer_2", "writer_2_2"] "writer" "writer_4" := by
  have heq : allocateAll ⟨["writer_3"]⟩ lookalikes =
      ["writer", "writer_2", "writer_2_2", "writer_4", "workflow"] := by decide
  have hfallbacks : ∀ call ∈ lookalikes, call.2 ∈ [nodeFallback, workflowFallback] := by decide
  have hchosen := (allocateAll_fresh ["writer_3"] hfallbacks).2.1 3 "Writer!" nodeFallback
    "writer_4" rfl (by rw [heq]; rfl)
  rw [heq] at hchosen
  exact ⟨heq, hchosen⟩

end WorkflowCompiler.Identifier.Allocator
