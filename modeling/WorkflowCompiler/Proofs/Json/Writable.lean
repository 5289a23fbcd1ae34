import Mathlib
import WorkflowCompiler.Json.Reader
import WorkflowCompiler.Proofs.Fault
import WorkflowCompiler.Proofs.Value.Members
import WorkflowCompiler.Proofs.Value.Spelling

/-! # What is read from JSON text can be written

The reader takes no integer with more digits than are written, so whatever a text holds has a
literal.
-/
namespace WorkflowCompiler.Json

/-! ## Numbers -/

theorem digit_le {d : Char} (h : d.isDigit = true) : d.toNat - 48 ≤ 9 := by
  rw [Char.isDigit, Bool.and_eq_true, decide_eq_true_eq, decide_eq_true_eq] at h
  have hle : d.toNat ≤ 57 := UInt32.le_iff_toNat_le.mp h.2
  omega

theorem foldl_digits_lt {ds : List Char} (h : ∀ d ∈ ds, d.isDigit = true) (n : Nat) :
    ds.foldl (fun n d => 10 * n + (d.toNat - 48)) n < (n + 1) * 10 ^ ds.length := by
  induction ds generalizing n with
  | nil => simp
  | cons d rest ih =>
    obtain ⟨hd, hrest⟩ := List.forall_mem_cons.mp h
    have hdigit := digit_le hd
    calc (d :: rest).foldl (fun n d => 10 * n + (d.toNat - 48)) n
        < (10 * n + (d.toNat - 48) + 1) * 10 ^ rest.length := ih hrest _
      _ ≤ ((n + 1) * 10) * 10 ^ rest.length := Nat.mul_le_mul_right _ (by omega)
      _ = (n + 1) * 10 ^ (d :: rest).length := by rw [List.length_cons, Nat.pow_succ']; ring

theorem isShort_of_digits {ds : List Char} (h : ∀ d ∈ ds, d.isDigit = true)
    (hlength : ds.length ≤ Text.maxDigits) {n : Int} (hn : n.natAbs = digitsValue ds) :
    Text.isShort n = true := by
  rw [Text.isShort_iff, hn]
  have hlt : digitsValue ds < (0 + 1) * 10 ^ ds.length := foldl_digits_lt h 0
  rw [Nat.zero_add, Nat.one_mul] at hlt
  generalize Text.maxDigits = k at hlength ⊢
  exact hlt.trans_le (Nat.pow_le_pow_right (by omega) hlength)

theorem isDigit_of_mem_wholePart {cs : List Char} : ∀ d ∈ (wholePart cs).1, d.isDigit = true := by
  unfold wholePart
  split
  · exact List.forall_mem_singleton.mpr rfl
  · exact fun d hd => List.mem_takeWhile_imp hd

theorem isWritable_of_number {pos : Nat} {cs : List Char} {r : Scanned Value}
    (h : number pos cs = .ok r) : r.1.isWritable = true := by
  simp only [number] at h
  split at h
  -- the sign makes no difference
  all_goals
    split at h
    · cases h
    · split at h
      · split at h
        · cases h
        next hlength =>
          cases h
          refine isShort_of_digits isDigit_of_mem_wholePart (Nat.not_lt.mp hlength) ?_
          split <;> simp
      · cases h
        rfl

theorem isWritable_of_keyword? {pos : Nat} {cs : List Char} {r : Scanned Value}
    (h : keyword? pos cs = some r) : r.1.isWritable = true := by
  have hall : ∀ k ∈ keywords, k.2.isWritable = true := by decide
  obtain ⟨k, hk, rfl⟩ := Option.map_eq_some_iff.mp h
  exact hall k (List.mem_of_find?_eq_some hk)

/-! ## Values -/

/-- What is read with some fuel can be written. -/
structure ReadsWritable (fuel : Nat) : Prop where
  value : ∀ {pos cs r}, value fuel pos cs = .ok r → r.1.isWritable = true
  items : ∀ {pos cs r}, items fuel pos cs = .ok r → ∀ v ∈ r.1, v.isWritable = true
  members : ∀ {pos cs r}, members fuel pos cs = .ok r → ∀ m ∈ r.1, m.2.isWritable = true

section Step
variable {fuel pos : Nat} {cs : List Char} (ih : ReadsWritable fuel)
include ih

theorem ReadsWritable.value_succ {r : Scanned Value} (h : Json.value (fuel + 1) pos cs = .ok r) :
    r.1.isWritable = true := by
  unfold Json.value at h
  split at h
  · obtain ⟨s, -, rfl⟩ := map_eq_ok h
    rfl
  · simp only at h
    split at h
    · cases h
      rfl
    · obtain ⟨found, hfound, rfl⟩ := map_eq_ok h
      exact Value.every_list_iff.mpr (ih.items hfound)
  · simp only at h
    split at h
    · cases h
      rfl
    · obtain ⟨found, hfound, rfl⟩ := map_eq_ok h
      refine Value.isWritable_object_iff.mpr fun m hm => ?_
      rcases Members.mem_merge hm with hm | hm
      · cases hm
      · exact ih.members hfound m hm
  · split at h
    next found hfound =>
      cases h
      exact isWritable_of_keyword? hfound
    · exact isWritable_of_number h

theorem ReadsWritable.items_succ {r : Scanned (List Value)}
    (h : Json.items (fuel + 1) pos cs = .ok r) : ∀ v ∈ r.1, v.isWritable = true := by
  unfold Json.items at h
  obtain ⟨first, hfirst, h⟩ := exists_of_bind_eq_ok h
  have hwritable := ih.value hfirst
  simp only at h
  split at h
  · cases h
    exact List.forall_mem_singleton.mpr hwritable
  · obtain ⟨rest, hrest, rfl⟩ := map_eq_ok h
    exact List.forall_mem_cons.mpr ⟨hwritable, ih.items hrest⟩
  · cases h

theorem ReadsWritable.members_succ {r : Scanned (List (Text × Value))}
    (h : Json.members (fuel + 1) pos cs = .ok r) : ∀ m ∈ r.1, m.2.isWritable = true := by
  unfold Json.members at h
  split at h
  · obtain ⟨name, -, h⟩ := exists_of_bind_eq_ok h
    simp only at h
    split at h
    · obtain ⟨first, hfirst, h⟩ := exists_of_bind_eq_ok h
      have hwritable := ih.value hfirst
      split at h
      · cases h
        exact List.forall_mem_singleton.mpr hwritable
      · obtain ⟨rest, hrest, rfl⟩ := map_eq_ok h
        exact List.forall_mem_cons.mpr ⟨hwritable, ih.members hrest⟩
      · cases h
    · cases h
  · cases h

end Step

theorem readsWritable (fuel : Nat) : ReadsWritable fuel := by
  induction fuel with
  | zero =>
    constructor
    · intro pos cs r h
      cases h
    · intro pos cs r h
      cases h
    · intro pos cs r h
      cases h
  | succ fuel ih => exact ⟨ih.value_succ, ih.items_succ, ih.members_succ⟩

theorem isWritable_of_read {text : String} {v : Value} (h : read text = .ok v) :
    v.isWritable = true := by
  have hwhole : ∀ {cs : List Char}, readChars.whole cs = .ok v → v.isWritable = true := by
    intro cs h
    unfold readChars.whole at h
    obtain ⟨found, hfound, h⟩ := exists_of_bind_eq_ok h
    simp only at h
    split at h
    · cases h
      exact (readsWritable _).value hfound
    · cases h
  unfold read readChars at h
  split at h
  · split at h
    · cases h
    · exact hwhole h
  · exact hwhole h

end WorkflowCompiler.Json
