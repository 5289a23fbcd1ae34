import Mathlib
import WorkflowCompiler.Proofs.Text.Order
import WorkflowCompiler.Proofs.Value.Members
import WorkflowCompiler.Proofs.Value.Spelling

/-! # Values up to the order of members

The canonical form of a value has the members of every object, at every depth, in ascending order of
their names. Members with one name keep their order, so a look-up finds the same member as before.
Literals do not tell a value from its canonical form.
-/
namespace WorkflowCompiler

def nameLe {α : Type} (a b : Text × α) : Bool := Text.le a.1 b.1

section Sorting
variable {α : Type}

theorem nameLe_trans (a b c : Text × α) (hab : nameLe a b = true) (hbc : nameLe b c = true) :
    nameLe a c = true := Text.le_trans hab hbc

theorem nameLe_total (a b : Text × α) : (nameLe a b || nameLe b a) = true := by
  rw [Bool.or_eq_true]
  exact Text.le_total a.1 b.1

theorem filter_mergeSort_nameLe (xs : List (Text × α)) (name : Text) :
    (xs.mergeSort nameLe).filter (·.1 == name) = xs.filter (·.1 == name) := by
  have hnames : ∀ a ∈ xs.filter (·.1 == name), a.1 = name := by
    intro a ha
    simpa using (List.mem_filter.mp ha).2
  have hsorted : (xs.filter (·.1 == name)).Pairwise fun a b => nameLe a b = true := by
    apply List.pairwise_of_forall_mem_list
    intro a ha b hb
    rw [nameLe, hnames a ha, hnames b hb]
    exact (Text.le_total name name).elim id id
  have hsub := List.sublist_mergeSort nameLe_trans nameLe_total hsorted List.filter_sublist
  have hkept := hsub.filter (·.1 == name)
  simp only [List.filter_filter, Bool.and_self] at hkept
  exact (hkept.eq_of_length ((List.mergeSort_perm _ _).filter _).length_eq.symm).symm

theorem lookup_eq_head? (xs : List (Text × α)) (name : Text) :
    xs.lookup name = ((xs.filter (·.1 == name)).head?).map (·.2) := by
  induction xs with
  | nil => rfl
  | cons x rest ih =>
    obtain ⟨key, a⟩ := x
    by_cases h : name = key
    · subst h
      simp [List.lookup]
    · have hne : (name == key) = false := beq_eq_false_iff_ne.mpr h
      have hne' : (key == name) = false := beq_eq_false_iff_ne.mpr fun heq => h heq.symm
      simp [List.lookup, hne, hne', ih]

theorem lookup_mergeSort_nameLe (xs : List (Text × α)) (name : Text) :
    (xs.mergeSort nameLe).lookup name = xs.lookup name := by
  rw [lookup_eq_head?, filter_mergeSort_nameLe, ← lookup_eq_head?]

theorem lookup_map_snd {β : Type} (f : α → β) (xs : List (Text × α)) (name : Text) :
    (xs.map fun x => (x.1, f x.2)).lookup name = (xs.lookup name).map f := by
  induction xs with
  | nil => rfl
  | cons x rest ih =>
    obtain ⟨key, a⟩ := x
    by_cases h : (name == key) = true
    · simp [List.lookup, h]
    · simp only [Bool.not_eq_true] at h
      simp [List.lookup, h, ih]

/-- What is done to things under their names can be done before or after sorting. -/
theorem map_mergeSort_nameLe {β : Type} (f : α → β) (xs : List (Text × α)) :
    (xs.mergeSort nameLe).map (fun x => (x.1, f x.2)) =
      (xs.map fun x => (x.1, f x.2)).mergeSort nameLe :=
  List.map_mergeSort fun _ _ _ _ => rfl

theorem mergeSort_nameLe_mergeSort (xs : List (Text × α)) :
    (xs.mergeSort nameLe).mergeSort nameLe = xs.mergeSort nameLe :=
  List.mergeSort_of_pairwise (List.pairwise_mergeSort nameLe_trans nameLe_total xs)

end Sorting

namespace Value

mutual

/-- A value with the members of every object in ascending order of their names. -/
def canonical : Value → Value
  | .null => .null
  | .bool b => .bool b
  | .int n => .int n
  | .float x => .float x
  | .str s => .str s
  | .list items => .list (canonicalItems items)
  | .object members => .object ((canonicalMembers members).mergeSort nameLe)

def canonicalItems : List Value → List Value
  | [] => []
  | v :: rest => canonical v :: canonicalItems rest

def canonicalMembers : List (Text × Value) → List (Text × Value)
  | [] => []
  | (name, v) :: rest => (name, canonical v) :: canonicalMembers rest

end

theorem canonicalItems_eq (items : List Value) : canonicalItems items = items.map canonical := by
  induction items with
  | nil => rfl
  | cons v rest ih => rw [canonicalItems, ih, List.map_cons]

theorem canonicalMembers_eq (members : List (Text × Value)) :
    canonicalMembers members = members.map fun m => (m.1, m.2.canonical) := by
  induction members with
  | nil => rfl
  | cons m rest ih => rw [canonicalMembers, ih, List.map_cons]

theorem spellingMembers_eq (members : List (Text × Value)) :
    spellingMembers members = members.map fun m => (m.1, m.2.spelling) := by
  induction members with
  | nil => rfl
  | cons m rest ih => rw [spellingMembers, ih, List.map_cons]

end Value

/-- Members with their values in canonical form and in ascending order of names. -/
def Members.canonical (ms : Members) : Members :=
  (Value.canonicalMembers ms).mergeSort nameLe

namespace Value

@[simp] theorem canonical_null : canonical .null = .null := by rw [canonical]
@[simp] theorem canonical_bool (b : Bool) : canonical (.bool b) = .bool b := by rw [canonical]
@[simp] theorem canonical_int (n : Int) : canonical (.int n) = .int n := by rw [canonical]
@[simp] theorem canonical_float (x : Float) : canonical (.float x) = .float x := by rw [canonical]
@[simp] theorem canonical_str (s : Text) : canonical (.str s) = .str s := by rw [canonical]

@[simp] theorem canonical_list (items : List Value) :
    canonical (.list items) = .list (items.map canonical) := by
  rw [canonical, canonicalItems_eq]

@[simp] theorem canonical_object (ms : Members) :
    canonical (.object ms) = .object ms.canonical := by
  rw [canonical, Members.canonical]

end Value

theorem Members.canonical_eq (ms : Members) :
    ms.canonical = (ms.map fun m => (m.1, m.2.canonical)).mergeSort nameLe := by
  rw [Members.canonical, Value.canonicalMembers_eq]

theorem Members.get?_canonical (ms : Members) (name : Text) :
    ms.canonical.get? name = (ms.get? name).map Value.canonical := by
  rw [Members.get?, Members.canonical_eq, lookup_mergeSort_nameLe, lookup_map_snd]
  rfl

theorem Members.get_canonical (ms : Members) (name : Text) :
    ms.canonical.get name = (ms.get name).canonical := by
  rw [Members.get, Members.get?_canonical, Members.get]
  cases ms.get? name with
  | none => simp
  | some v => rfl

theorem Members.has_canonical (ms : Members) (name : Text) :
    ms.canonical.has name = ms.has name := by
  rw [Members.has, Members.canonical_eq, (List.mergeSort_perm _ _).any_eq, List.any_map]
  rfl

mutual

theorem Value.spelling_canonical (v : Value) : v.canonical.spelling = v.spelling := by
  match v with
  | .null | .bool _ | .int _ | .float _ | .str _ => rw [Value.canonical]
  | .list items =>
    rw [Value.canonical, Value.spelling, Value.spelling, Value.spellingItems_canonical items]
  | .object members =>
    rw [Value.canonical, Value.spelling, Value.spelling, Value.spellingMembers_eq,
      map_mergeSort_nameLe, ← Value.spellingMembers_eq, Value.spellingMembers_canonical members]
    have hsort : Value.sortEntries = fun entries => entries.mergeSort nameLe := rfl
    simp only [hsort, mergeSort_nameLe_mergeSort]

theorem Value.spellingItems_canonical (items : List Value) :
    Value.spellingItems (Value.canonicalItems items) = Value.spellingItems items := by
  match items with
  | [] => rfl
  | v :: rest =>
    rw [Value.canonicalItems, Value.spellingItems, Value.spellingItems, Value.spelling_canonical v,
      Value.spellingItems_canonical rest]

theorem Value.spellingMembers_canonical (members : List (Text × Value)) :
    Value.spellingMembers (Value.canonicalMembers members) = Value.spellingMembers members := by
  match members with
  | [] => rfl
  | (name, v) :: rest =>
    rw [Value.canonicalMembers, Value.spellingMembers, Value.spellingMembers,
      Value.spelling_canonical v, Value.spellingMembers_canonical rest]

end

mutual

theorem Value.every_canonical (p : Value → Bool) (v : Value) :
    v.canonical.every p = v.every p := by
  match v with
  | .null | .bool _ | .int _ | .float _ | .str _ => rw [Value.canonical]
  | .list items =>
    rw [Value.canonical, Value.every, Value.every, Value.everyItem_canonical p items]
  | .object ms =>
    rw [Bool.eq_iff_iff, Value.canonical_object, Value.every_object_iff]
    have hmember := Value.everyMember_canonical p ms
    rw [Bool.eq_iff_iff, ← Value.every, ← Value.every, Value.every_object_iff] at hmember
    rw [← hmember, Members.canonical]
    exact forall_congr' fun m => by rw [List.mem_mergeSort]

theorem Value.everyItem_canonical (p : Value → Bool) (items : List Value) :
    Value.everyItem p (Value.canonicalItems items) = Value.everyItem p items := by
  match items with
  | [] => rfl
  | v :: rest =>
    rw [Value.canonicalItems, Value.everyItem, Value.everyItem, Value.every_canonical p v,
      Value.everyItem_canonical p rest]

theorem Value.everyMember_canonical (p : Value → Bool) (ms : List (Text × Value)) :
    Value.everyMember p (Value.canonicalMembers ms) = Value.everyMember p ms := by
  match ms with
  | [] => rfl
  | (name, v) :: rest =>
    rw [Value.canonicalMembers, Value.everyMember, Value.everyMember, Value.every_canonical p v,
      Value.everyMember_canonical p rest]

end

theorem Value.isWritable_canonical (v : Value) : v.canonical.isWritable = v.isWritable :=
  v.every_canonical Value.isShort

theorem Value.literal_canonical (v : Value) : v.canonical.literal = v.literal := by
  rw [Value.literal_eq, Value.literal_eq, Value.isWritable_canonical, Value.spelling_canonical]

mutual

theorem Value.canonical_canonical (v : Value) : v.canonical.canonical = v.canonical := by
  match v with
  | .null | .bool _ | .int _ | .float _ | .str _ => rw [Value.canonical, Value.canonical]
  | .list items =>
    rw [Value.canonical, Value.canonical, Value.canonicalItems_canonical items]
  | .object members =>
    rw [Value.canonical, Value.canonical, Value.canonicalMembers_eq (List.mergeSort _ _),
      map_mergeSort_nameLe, ← Value.canonicalMembers_eq, Value.canonicalMembers_canonical members,
      mergeSort_nameLe_mergeSort]

theorem Value.canonicalItems_canonical (items : List Value) :
    Value.canonicalItems (Value.canonicalItems items) = Value.canonicalItems items := by
  match items with
  | [] => rfl
  | v :: rest =>
    rw [Value.canonicalItems, Value.canonicalItems, Value.canonical_canonical v,
      Value.canonicalItems_canonical rest]

theorem Value.canonicalMembers_canonical (members : List (Text × Value)) :
    Value.canonicalMembers (Value.canonicalMembers members) = Value.canonicalMembers members := by
  match members with
  | [] => rfl
  | (name, v) :: rest =>
    rw [Value.canonicalMembers, Value.canonicalMembers, Value.canonical_canonical v,
      Value.canonicalMembers_canonical rest]

end

end WorkflowCompiler
