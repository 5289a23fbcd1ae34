import Mathlib
import WorkflowCompiler.Decimal.Binary64
import WorkflowCompiler.Proofs.Value.Members

/-! # Equal values

Values are compared by what they stand for. A truth value counts as zero or one, a whole number
equals the binary64 number of the same amount, and objects are equal when they give equal values to
the same names, in whatever order. Equal values are nested equally deep, so none equals a part of
itself.
-/
namespace WorkflowCompiler

namespace Decimal

def isInteger (x : Float) (n : Int) : Bool :=
  let signed : Int := if isNegative x then -(magnitude x).1 else (magnitude x).1
  let q := (magnitude x).2
  isFinite x && (if 0 ≤ q then signed * pow2 q.toNat == n else signed == n * pow2 (-q).toNat)

/-- Whether two numbers are the same or compare as equal, as both zeros do. -/
def equal (x y : Float) : Bool := x.toBits == y.toBits || x == y

theorem equal_refl (x : Float) : equal x x = true := by simp [equal]

end Decimal

namespace Value

mutual

/-- Whether no object, at any depth, has two members of one name. -/
def distinct : Value → Bool
  | .list items => distinctItems items
  | .object ms => decide (Members.names ms).Nodup && distinctMembers ms
  | _ => true

def distinctItems : List Value → Bool
  | [] => true
  | v :: rest => v.distinct && distinctItems rest

def distinctMembers : List (Text × Value) → Bool
  | [] => true
  | (_, v) :: rest => v.distinct && distinctMembers rest

end

theorem distinctItems_iff {items : List Value} :
    distinctItems items = true ↔ ∀ v ∈ items, v.distinct = true := by
  induction items with
  | nil => simp [distinctItems]
  | cons v rest ih => rw [distinctItems, Bool.and_eq_true, ih, List.forall_mem_cons]

theorem distinctMembers_iff {ms : Members} :
    distinctMembers ms = true ↔ ∀ m ∈ ms, m.2.distinct = true := by
  induction ms with
  | nil => simp [distinctMembers]
  | cons m rest ih => rw [distinctMembers, Bool.and_eq_true, ih, List.forall_mem_cons]

theorem distinct_list_iff {items : List Value} :
    distinct (.list items) = true ↔ ∀ v ∈ items, v.distinct = true := by
  rw [distinct, distinctItems_iff]

theorem distinct_object_iff {ms : Members} : distinct (.object ms) = true ↔
    ms.names.Nodup ∧ ∀ m ∈ ms, m.2.distinct = true := by
  rw [distinct, Bool.and_eq_true, decide_eq_true_iff, distinctMembers_iff]

theorem distinct_of_get? {ms : Members} (h : distinct (.object ms) = true) {name : Text}
    {v : Value} (hv : ms.get? name = some v) : v.distinct = true :=
  (distinct_object_iff.mp h).2 _ (Members.mem_of_get? hv)

/-- A truth value or number, as an integer or as a binary64 number. -/
def amount? : Value → Option (Int ⊕ Float)
  | .bool b => some (.inl b.toInt)
  | .int n => some (.inl n)
  | .float x => some (.inr x)
  | _ => none

def equalAmounts : Int ⊕ Float → Int ⊕ Float → Bool
  | .inl m, .inl n => m == n
  | .inl n, .inr x => Decimal.isInteger x n
  | .inr x, .inl n => Decimal.isInteger x n
  | .inr x, .inr y => Decimal.equal x y

mutual

def equal (v w : Value) : Bool :=
  match v with
  | .null => w.isNull
  | .bool b => w.amount?.any (equalAmounts (.inl b.toInt))
  | .int n => w.amount?.any (equalAmounts (.inl n))
  | .float x => w.amount?.any (equalAmounts (.inr x))
  | .str s => w.str? == some s
  | .list items =>
    match w with
    | .list items' => equalItems items items'
    | _ => false
  | .object ms =>
    match w with
    | .object ms' => ms.length == ms'.length && equalMembers ms ms'
    | _ => false

def equalItems : List Value → List Value → Bool
  | [], items' => items'.isEmpty
  | _ :: _, [] => false
  | v :: rest, v' :: rest' => equal v v' && equalItems rest rest'

/-- Whether each member has an equal one under its name in other members. -/
def equalMembers : List (Text × Value) → Members → Bool
  | [], _ => true
  | (name, v) :: rest, ms' => (ms'.get? name).any (fun v' => equal v v') && equalMembers rest ms'

end

theorem equalMembers_iff {ms ms' : Members} : equalMembers ms ms' = true ↔
    ∀ m ∈ ms, ∃ v', ms'.get? m.1 = some v' ∧ equal m.2 v' = true := by
  induction ms with
  | nil => simp [equalMembers]
  | cons m rest ih =>
    rw [equalMembers, Bool.and_eq_true, ih, List.forall_mem_cons]
    refine and_congr_left fun _ => ?_
    cases ms'.get? m.1 <;> simp

theorem equalItems_self {items : List Value} (h : ∀ v ∈ items, equal v v = true) :
    equalItems items items = true := by
  induction items with
  | nil => rfl
  | cons v rest ih =>
    obtain ⟨hv, hrest⟩ := List.forall_mem_cons.mp h
    rw [equalItems, hv, ih hrest, Bool.and_self]

theorem exists_get?_of_equal {ms ms' : Members} (h : equal (.object ms) (.object ms') = true)
    {name : Text} {v : Value} (hv : ms.get? name = some v) :
    ∃ v', ms'.get? name = some v' ∧ equal v v' = true := by
  rw [equal, Bool.and_eq_true] at h
  exact equalMembers_iff.mp h.2 _ (Members.mem_of_get? hv)

mutual

theorem equal_self (v : Value) (hv : v.distinct = true) : equal v v = true := by
  match v with
  | .null => rfl
  | .bool b => simp [equal, amount?, equalAmounts]
  | .int n => simp [equal, amount?, equalAmounts]
  | .float x => simp [equal, amount?, equalAmounts, Decimal.equal_refl]
  | .str s => simp [equal, str?]
  | .list items =>
    rw [equal]
    exact equalItems_self (equal_self_items items (distinct_list_iff.mp hv))
  | .object ms =>
    obtain ⟨hnames, hms⟩ := distinct_object_iff.mp hv
    have hself := equal_self_members ms hms
    rw [equal, beq_self_eq_true, Bool.true_and]
    exact equalMembers_iff.mpr fun m hm => ⟨m.2, Members.get?_of_mem hnames hm, hself m hm⟩

theorem equal_self_items (items : List Value) (h : ∀ v ∈ items, v.distinct = true) :
    ∀ v ∈ items, equal v v = true := by
  match items with
  | [] => exact fun _ hv => absurd hv List.not_mem_nil
  | v :: rest =>
    obtain ⟨hv, hrest⟩ := List.forall_mem_cons.mp h
    exact List.forall_mem_cons.mpr ⟨equal_self v hv, equal_self_items rest hrest⟩

theorem equal_self_members (ms : List (Text × Value)) (h : ∀ m ∈ ms, m.2.distinct = true) :
    ∀ m ∈ ms, equal m.2 m.2 = true := by
  match ms with
  | [] => exact fun _ hm => absurd hm List.not_mem_nil
  | (name, v) :: rest =>
    obtain ⟨hv, hrest⟩ := List.forall_mem_cons.mp h
    exact List.forall_mem_cons.mpr ⟨equal_self v hv, equal_self_members rest hrest⟩

end

mutual

def depth : Value → Nat
  | .list items => depthItems items + 1
  | .object ms => depthMembers ms + 1
  | _ => 0

def depthItems : List Value → Nat
  | [] => 0
  | v :: rest => max v.depth (depthItems rest)

def depthMembers : List (Text × Value) → Nat
  | [] => 0
  | (_, v) :: rest => max v.depth (depthMembers rest)

end

theorem depth_le_depthMembers {ms : Members} {m : Text × Value} (hm : m ∈ ms) :
    m.2.depth ≤ depthMembers ms := by
  induction ms with
  | nil => exact absurd hm List.not_mem_nil
  | cons first rest ih =>
    rw [depthMembers]
    rcases List.mem_cons.mp hm with rfl | hm
    · exact le_max_left _ _
    · exact (ih hm).trans (le_max_right _ _)

theorem depth_lt_of_get? {ms : Members} {name : Text} {v : Value} (h : ms.get? name = some v) :
    v.depth < (Value.object ms).depth := by
  rw [depth.eq_def (.object ms)]
  exact Nat.lt_succ_of_le (depth_le_depthMembers (Members.mem_of_get? h))

mutual

theorem depth_le_of_equal (v w : Value) (h : equal v w = true) : v.depth ≤ w.depth := by
  match v with
  | .null | .bool _ | .int _ | .float _ | .str _ => exact Nat.zero_le _
  | .list items =>
    cases w with
    | list items' =>
      rw [equal] at h
      rw [depth, depth]
      exact Nat.succ_le_succ (depthItems_le_of_equal items items' h)
    | _ => simp [equal] at h
  | .object ms =>
    cases w with
    | object ms' =>
      rw [equal, Bool.and_eq_true] at h
      rw [depth, depth]
      exact Nat.succ_le_succ (depthMembers_le_of_equal ms ms' h.2)
    | _ => simp [equal] at h

theorem depthItems_le_of_equal (items items' : List Value) (h : equalItems items items' = true) :
    depthItems items ≤ depthItems items' := by
  match items, items' with
  | [], _ => exact Nat.zero_le _
  | _ :: _, [] => simp [equalItems] at h
  | v :: rest, v' :: rest' =>
    rw [equalItems, Bool.and_eq_true] at h
    rw [depthItems, depthItems]
    exact max_le_max (depth_le_of_equal v v' h.1) (depthItems_le_of_equal rest rest' h.2)

theorem depthMembers_le_of_equal (ms : List (Text × Value)) (ms' : Members)
    (h : equalMembers ms ms' = true) : depthMembers ms ≤ depthMembers ms' := by
  match ms with
  | [] => exact Nat.zero_le _
  | (name, v) :: rest =>
    rw [equalMembers, Bool.and_eq_true, Option.any_eq_true] at h
    obtain ⟨⟨v', hget, hv⟩, hrest⟩ := h
    have hmember : v'.depth ≤ depthMembers ms' := depth_le_depthMembers (Members.mem_of_get? hget)
    rw [depthMembers]
    exact max_le ((depth_le_of_equal v v' hv).trans hmember) (depthMembers_le_of_equal rest ms' hrest)

end

theorem not_equal_of_get? {ms : Members} {name : Text} {v : Value} (h : ms.get? name = some v) :
    ¬equal (.object ms) v = true := by
  intro heq
  exact absurd (depth_le_of_equal _ _ heq) (Nat.not_le.mpr (depth_lt_of_get? h))

end Value

end WorkflowCompiler
