import Mathlib
import WorkflowCompiler.Value.Basic

/-! # Members of objects

Look-up after members are put, merged or appended. Names stay free of repetitions, and a merge of
new names appends.
-/
namespace WorkflowCompiler

theorem mem_of_lookup {α : Type} {table : List (Text × α)} {key : Text} {a : α}
    (h : table.lookup key = some a) : (key, a) ∈ table := by
  obtain ⟨before, after, rfl, _⟩ := List.lookup_eq_some_iff.mp h
  exact List.mem_append_right _ List.mem_cons_self

theorem lookup_map_pair {β : Type*} (ids : List Text) (f : Text → β) (x : Text) :
    (ids.map fun id => (id, f id)).lookup x = if x ∈ ids then some (f x) else none := by
  induction ids with
  | nil => rfl
  | cons id rest ih =>
    rw [List.map_cons, List.lookup_cons, ih]
    by_cases hx : x = id
    · simp [hx]
    · have hne : (x == id) = false := beq_eq_false_iff_ne.mpr hx
      simp [hx, hne]

namespace Members

theorem get?_cons (m : Text × Value) (rest : Members) (name : Text) :
    get? (m :: rest) name = if name = m.1 then some m.2 else get? rest name := by
  by_cases h : name = m.1
  · simp [get?, List.lookup, h]
  · have hne : (name == m.1) = false := beq_eq_false_iff_ne.mpr h
    simp [get?, List.lookup, hne, h]

theorem mem_of_get? {ms : Members} {name : Text} {v : Value} (h : ms.get? name = some v) :
    (name, v) ∈ ms :=
  mem_of_lookup h

theorem get?_of_mem {ms : Members} (hnames : ms.names.Nodup) {m : Text × Value} (hm : m ∈ ms) :
    ms.get? m.1 = some m.2 := by
  induction ms with
  | nil => exact absurd hm List.not_mem_nil
  | cons first rest ih =>
    obtain ⟨hfirst, hrest⟩ := List.nodup_cons.mp hnames
    rw [get?_cons]
    rcases List.mem_cons.mp hm with rfl | hm
    · rw [if_pos rfl]
    · have hne : m.1 ≠ first.1 := by
        intro heq
        exact hfirst (List.mem_map.mpr ⟨m, hm, heq⟩)
      rw [if_neg hne, ih hrest hm]

theorem has_iff {ms : Members} {name : Text} : ms.has name = true ↔ ∃ v, ms.get? name = some v := by
  induction ms with
  | nil => simp [has, get?]
  | cons m rest ih =>
    rw [get?_cons]
    by_cases h : name = m.1
    · simp [has, h]
    · rw [if_neg h, ← ih]
      simp [has, Ne.symm h]

theorem has_eq_false_iff {ms : Members} {name : Text} :
    ms.has name = false ↔ ms.get? name = none := by
  rw [Bool.eq_false_iff, ne_eq, has_iff, Option.eq_none_iff_forall_ne_some, not_exists]

theorem get?_of_get {ms : Members} {name : Text} {v : Value} (h : ms.get name = v)
    (hv : v ≠ .null) : ms.get? name = some v := by
  subst h
  rw [get] at hv ⊢
  cases hget : ms.get? name with
  | none =>
    rw [hget] at hv
    exact absurd rfl hv
  | some v => rfl

theorem get?_put (ms : Members) (name other : Text) (v : Value) :
    (ms.put name v).get? other = if other = name then some v else ms.get? other := by
  induction ms with
  | nil => rw [put, get?_cons]
  | cons m rest ih =>
    rw [put]
    split
    next h =>
      subst h
      simp only [get?_cons]
      split <;> rfl
    next h =>
      simp only [get?_cons, ih]
      split
      next hkey =>
        subst hkey
        rw [if_neg h]
      · rfl

theorem put_of_get? {ms : Members} {name : Text} {v : Value} (h : ms.get? name = some v) :
    ms.put name v = ms := by
  induction ms with
  | nil => cases h
  | cons m rest ih =>
    rw [get?_cons] at h
    rw [put]
    split at h
    next hname =>
      cases h
      rw [if_pos hname.symm, hname]
    next hname => rw [if_neg (Ne.symm hname), ih h]

theorem put_of_not_mem {ms : Members} {name : Text} (h : name ∉ ms.names) (v : Value) :
    ms.put name v = ms ++ [(name, v)] := by
  induction ms with
  | nil => rfl
  | cons m rest ih =>
    obtain ⟨hm, hrest⟩ := not_or.mp (mt List.mem_cons.mpr h)
    rw [put, if_neg (Ne.symm hm), ih hrest, List.cons_append]

theorem names_put_of_mem {ms : Members} {name : Text} (h : name ∈ ms.names) (v : Value) :
    (ms.put name v).names = ms.names := by
  induction ms with
  | nil => exact absurd h List.not_mem_nil
  | cons m rest ih =>
    rw [put]
    split
    next hname => rw [names, names, List.map_cons, List.map_cons, hname]
    next hname =>
      have hrest := (List.mem_cons.mp h).resolve_left (Ne.symm hname)
      exact congrArg (m.1 :: ·) (ih hrest)

theorem nodup_put {ms : Members} (h : ms.names.Nodup) (name : Text) (v : Value) :
    (ms.put name v).names.Nodup := by
  by_cases hname : name ∈ ms.names
  · rwa [names_put_of_mem hname]
  · have hconcat : (ms.names ++ [name]).Nodup := by
      rw [← List.concat_eq_append]
      exact List.Nodup.concat hname h
    rw [put_of_not_mem hname, names, List.map_append]
    exact hconcat

theorem mem_put {ms : Members} {name : Text} {v : Value} {m : Text × Value}
    (h : m ∈ ms.put name v) : m ∈ ms ∨ m = (name, v) := by
  induction ms with
  | nil => exact Or.inr (List.mem_singleton.mp h)
  | cons first rest ih =>
    rw [put] at h
    split at h
    · rcases List.mem_cons.mp h with rfl | h
      · exact Or.inr rfl
      · exact Or.inl (List.mem_cons_of_mem _ h)
    · rcases List.mem_cons.mp h with rfl | h
      · exact Or.inl List.mem_cons_self
      · exact (ih h).imp_left (List.mem_cons_of_mem _)

/-- What is kept of the members put one after the other is what was put last under each name. -/
theorem get?_merge {extra : Members} (hextra : extra.names.Nodup) (ms : Members) (name : Text) :
    (ms.merge extra).get? name = (extra.get? name).or (ms.get? name) := by
  induction extra generalizing ms with
  | nil => rfl
  | cons m rest ih =>
    obtain ⟨hm, hrest⟩ := List.nodup_cons.mp hextra
    have hstep : ms.merge (m :: rest) = (ms.put m.1 m.2).merge rest := rfl
    rw [hstep, ih hrest, get?_put, get?_cons]
    split
    next h =>
      cases hget : get? rest name with
      | none => rfl
      | some v => exact absurd (List.mem_map.mpr ⟨_, mem_of_get? hget, h⟩) hm
    next => rfl

theorem mem_merge {extra ms : Members} {m : Text × Value} (h : m ∈ ms.merge extra) :
    m ∈ ms ∨ m ∈ extra := by
  induction extra generalizing ms with
  | nil => exact Or.inl h
  | cons first rest ih =>
    have hstep : m ∈ (ms.put first.1 first.2).merge rest := h
    rcases ih hstep with h | h
    · refine (mem_put h).imp_right ?_
      rintro rfl
      exact List.mem_cons_self
    · exact Or.inr (List.mem_cons_of_mem _ h)

theorem nodup_merge {ms : Members} (h : ms.names.Nodup) (extra : Members) :
    (ms.merge extra).names.Nodup := by
  induction extra generalizing ms with
  | nil => exact h
  | cons m rest ih => exact ih (nodup_put h m.1 m.2)

theorem get?_append (ms extra : Members) (name : Text) :
    get? (ms ++ extra) name = (ms.get? name).or (extra.get? name) := by
  induction ms with
  | nil => rfl
  | cons m rest ih =>
    rw [List.cons_append, get?_cons, get?_cons, ih]
    split <;> rfl

theorem merge_eq_append {ms extra : Members} (hextra : extra.names.Nodup)
    (hfresh : ∀ name ∈ extra.names, name ∉ ms.names) : ms.merge extra = ms ++ extra := by
  induction extra generalizing ms with
  | nil => exact (List.append_nil ms).symm
  | cons m rest ih =>
    obtain ⟨hm, hrest⟩ := List.nodup_cons.mp hextra
    have hstep : ms.merge (m :: rest) = (ms.put m.1 m.2).merge rest := rfl
    have hput := put_of_not_mem (hfresh m.1 List.mem_cons_self) m.2
    rw [hstep, hput, ih hrest, List.append_assoc, List.singleton_append]
    intro name hname
    simp only [names, List.map_append, List.map_cons, List.map_nil, List.mem_append,
      List.mem_singleton, not_or]
    refine ⟨hfresh name (List.mem_cons_of_mem _ hname), ?_⟩
    rintro rfl
    exact hm hname

end Members

end WorkflowCompiler
