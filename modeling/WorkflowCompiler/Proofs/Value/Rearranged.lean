import Mathlib
import WorkflowCompiler.Proofs.Value.Canonical
import WorkflowCompiler.Proofs.Value.Equal

/-! # Values that differ in the order of members

Two values are rearranged forms of each other when they are the same up to the order of members, at
every depth. Where no object repeats a name, that is so exactly if their canonical forms are the
same.
-/
namespace WorkflowCompiler

/-- The same value up to the order of members: objects have the same names, and what stands under a
name is the same up to the order of members. -/
inductive Value.Rearranged : Value → Value → Prop
  | null : Rearranged .null .null
  | bool (b : Bool) : Rearranged (.bool b) (.bool b)
  | int (n : Int) : Rearranged (.int n) (.int n)
  | float (x : Float) : Rearranged (.float x) (.float x)
  | str (s : Text) : Rearranged (.str s) (.str s)
  | list {items items' : List Value} (h : List.Forall₂ Rearranged items items') :
    Rearranged (.list items) (.list items')
  | object {ms ms' : Members} (h : ∀ name, Option.Rel Rearranged (ms.get? name) (ms'.get? name)) :
    Rearranged (.object ms) (.object ms')

namespace Members
variable {ms ms' : Members}

theorem mem_iff_get? (h : ms.names.Nodup) {m : Text × Value} :
    m ∈ ms ↔ ms.get? m.1 = some m.2 :=
  ⟨get?_of_mem h, fun hget => mem_of_get? hget⟩

theorem nodup_of_names (h : ms.names.Nodup) : ms.Nodup := List.Nodup.of_map _ h

/-- Members in ascending order without repeated names are told by what they give to each name. -/
theorem eq_of_get? (hsorted : ms.Pairwise fun a b => nameLe a b = true)
    (hsorted' : ms'.Pairwise fun a b => nameLe a b = true) (hnames : ms.names.Nodup)
    (hnames' : ms'.names.Nodup) (h : ∀ name, ms.get? name = ms'.get? name) : ms = ms' := by
  have hperm : ms.Perm ms' := by
    refine (List.perm_ext_iff_of_nodup (nodup_of_names hnames) (nodup_of_names hnames')).mpr ?_
    intro m
    rw [mem_iff_get? hnames, mem_iff_get? hnames', h]
  refine List.Perm.eq_of_pairwise ?_ hsorted hsorted' hperm
  intro a b ha hb hab hba
  exact List.inj_on_of_nodup_map hnames ha (hperm.mem_iff.mpr hb) (Text.le_antisymm hab hba)

theorem pairwise_canonical (ms : Members) : ms.canonical.Pairwise fun a b => nameLe a b = true :=
  List.pairwise_mergeSort nameLe_trans nameLe_total _

theorem perm_canonical (ms : Members) :
    ms.canonical.Perm (ms.map fun m => (m.1, m.2.canonical)) := by
  rw [canonical_eq]
  exact List.mergeSort_perm _ _

theorem nodup_names_canonical (h : ms.names.Nodup) : ms.canonical.names.Nodup := by
  have hnames : ms.canonical.names.Perm ms.names := by
    have hperm := (perm_canonical ms).map (·.1)
    rwa [List.map_map] at hperm
  exact hnames.nodup_iff.mpr h

theorem canonical_eq_canonical_iff (h : ms.names.Nodup) (h' : ms'.names.Nodup) :
    ms.canonical = ms'.canonical ↔
      ∀ name, (ms.get? name).map Value.canonical = (ms'.get? name).map Value.canonical := by
  constructor
  · intro heq name
    rw [← get?_canonical, heq, get?_canonical]
  · intro hget
    refine eq_of_get? (pairwise_canonical ms) (pairwise_canonical ms') (nodup_names_canonical h)
      (nodup_names_canonical h') fun name => ?_
    rw [get?_canonical, get?_canonical, hget]

end Members

theorem map_eq_map_iff_rel {α β : Type} {f : α → β} {R : α → α → Prop} {o o' : Option α}
    (h : ∀ a ∈ o, ∀ b ∈ o', f a = f b ↔ R a b) : o.map f = o'.map f ↔ Option.Rel R o o' := by
  cases o with
  | none =>
    cases o' with
    | none => exact iff_of_true rfl .none
    | some b => exact iff_of_false nofun nofun
  | some a =>
    cases o' with
    | none => exact iff_of_false nofun nofun
    | some b => simpa using h a rfl b rfl

namespace Value

mutual

/-- Values have one canonical form exactly if they differ at most in the order of members. -/
theorem canonical_eq_iff (v w : Value) (hv : v.distinct = true) (hw : w.distinct = true) :
    v.canonical = w.canonical ↔ v.Rearranged w := by
  match v with
  | .null =>
    cases w with
    | null => exact iff_of_true rfl .null
    | _ => exact iff_of_false (by simp) nofun
  | .bool b =>
    cases w with
    | bool b' =>
      rw [canonical_bool, canonical_bool]
      exact ⟨fun h => h ▸ .bool b, fun | .bool _ => rfl⟩
    | _ => exact iff_of_false (by simp) nofun
  | .int n =>
    cases w with
    | int n' =>
      rw [canonical_int, canonical_int]
      exact ⟨fun h => h ▸ .int n, fun | .int _ => rfl⟩
    | _ => exact iff_of_false (by simp) nofun
  | .float x =>
    cases w with
    | float x' =>
      rw [canonical_float, canonical_float]
      exact ⟨fun h => h ▸ .float x, fun | .float _ => rfl⟩
    | _ => exact iff_of_false (by simp) nofun
  | .str s =>
    cases w with
    | str s' =>
      rw [canonical_str, canonical_str]
      exact ⟨fun h => h ▸ .str s, fun | .str _ => rfl⟩
    | _ => exact iff_of_false (by simp) nofun
  | .list items =>
    cases w with
    | list items' =>
      have hitems := canonical_items_iff items items' (distinct_list_iff.mp hv)
        (distinct_list_iff.mp hw)
      rw [canonical_list, canonical_list, Value.list.injEq, hitems]
      exact ⟨.list, fun | .list h => h⟩
    | _ => exact iff_of_false (by simp) nofun
  | .object ms =>
    cases w with
    | object ms' =>
      obtain ⟨hnames, hms⟩ := distinct_object_iff.mp hv
      obtain ⟨hnames', hms'⟩ := distinct_object_iff.mp hw
      have hmembers := canonical_members_iff ms hms
      have hget : ∀ name, (Members.get? ms name).map canonical =
          (Members.get? ms' name).map canonical ↔
          Option.Rel Rearranged (Members.get? ms name) (Members.get? ms' name) := by
        refine fun name => map_eq_map_iff_rel fun v hv v' hv' => ?_
        exact hmembers _ (Members.mem_of_get? hv) v' (hms' _ (Members.mem_of_get? hv'))
      rw [canonical_object, canonical_object, Value.object.injEq,
        Members.canonical_eq_canonical_iff hnames hnames', forall_congr' hget]
      exact ⟨.object, fun | .object h => h⟩
    | _ => exact iff_of_false (by simp) nofun

theorem canonical_items_iff (items items' : List Value) (h : ∀ v ∈ items, v.distinct = true)
    (h' : ∀ v ∈ items', v.distinct = true) :
    items.map canonical = items'.map canonical ↔ List.Forall₂ Rearranged items items' := by
  match items, items' with
  | [], [] => exact iff_of_true rfl .nil
  | [], _ :: _ | _ :: _, [] => exact iff_of_false nofun nofun
  | v :: rest, v' :: rest' =>
    obtain ⟨hv, hrest⟩ := List.forall_mem_cons.mp h
    obtain ⟨hv', hrest'⟩ := List.forall_mem_cons.mp h'
    rw [List.map_cons, List.map_cons, List.cons_eq_cons, canonical_eq_iff v v' hv hv',
      canonical_items_iff rest rest' hrest hrest', List.forall₂_cons]

theorem canonical_members_iff (ms : List (Text × Value)) (h : ∀ m ∈ ms, m.2.distinct = true) :
    ∀ m ∈ ms, ∀ w : Value, w.distinct = true →
      (m.2.canonical = w.canonical ↔ m.2.Rearranged w) := by
  match ms with
  | [] => exact fun _ hm => absurd hm List.not_mem_nil
  | (name, v) :: rest =>
    obtain ⟨hv, hrest⟩ := List.forall_mem_cons.mp h
    exact List.forall_mem_cons.mpr
      ⟨fun w hw => canonical_eq_iff v w hv hw, canonical_members_iff rest hrest⟩

end

end Value

end WorkflowCompiler
