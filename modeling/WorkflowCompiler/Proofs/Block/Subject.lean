import Mathlib
import WorkflowCompiler.Proofs.Block.Within

/-! # What constructs are stated for

A block is stated for a node or for the outcome of a step, or it is a sequence that stands for
itself. What is to be stated for some blocks is what stands inside them outside of shared sequences,
and what belongs to those shared sequences inside them that are not done yet.
-/
namespace WorkflowCompiler

/-- What a construct is stated for: a node, or the outcome of a step. -/
inductive Subject where
  | node (node : Node)
  | outcome (node : Node)

def Subject.key : Subject → Text
  | node n => n.id
  | outcome n => n.id ++ "#outcome"

namespace Block

def subject? : Block → Option Subject
  | .absent => none
  | .leaf _ node | .parallel _ node _ _ | .switch _ node _ | .loop _ node _ _ _ => some (.node node)
  | .sequence _ _ container _ => container.map .node
  | .branch _ node _ _ _ port => some (if port.getD [] = [] then .node node else .outcome node)

/-- The subjects of a block and of what stands inside it outside of shared sequences. -/
def own (b : Block) : List Subject :=
  if b.sharedKey?.isSome then []
  else b.subject?.toList ++ b.children.attach.flatMap fun c => own c.1
termination_by sizeOf b
decreasing_by exact sizeOf_lt_of_mem_children c.2

def ownAll (blocks : List Block) : List Subject := blocks.flatMap own

theorem own_of_shared {b : Block} (h : b.sharedKey?.isSome) : b.own = [] := by
  rw [own, if_pos h]

theorem own_of_unshared {b : Block} (h : b.sharedKey? = none) :
    b.own = b.subject?.toList ++ ownAll b.children := by
  rw [own, if_neg (by simp [h]), ownAll]
  congr 1
  simp [List.flatMap]

@[simp] theorem ownAll_nil : ownAll [] = [] := rfl

@[simp] theorem ownAll_cons (b : Block) (rest : List Block) :
    ownAll (b :: rest) = b.own ++ ownAll rest := rfl

@[simp] theorem ownAll_append (xs ys : List Block) : ownAll (xs ++ ys) = ownAll xs ++ ownAll ys :=
  List.flatMap_append

theorem ownAll_perm {xs ys : List Block} (h : xs.Perm ys) : (ownAll xs).Perm (ownAll ys) :=
  h.flatMap_right _

/-- Shared sequences under their keys, one for each. -/
structure Keyed (table : List (Text × Block)) : Prop where
  nodup : (table.map (·.1)).Nodup
  shared : ∀ s ∈ table, s.2.sharedKey? = some s.1

section Work
variable {table : List (Text × Block)} {done : List Text} {bs : List Block}

open Classical in
/-- The shared sequences inside some blocks that are not done. -/
noncomputable def pending (table : List (Text × Block)) (done : List Text) (bs : List Block) :
    List (Text × Block) := table.filter fun s => s.1 ∉ done ∧ ∃ b ∈ bs, s.2.Within b

theorem mem_pending {s : Text × Block} :
    s ∈ pending table done bs ↔ s ∈ table ∧ s.1 ∉ done ∧ ∃ b ∈ bs, s.2.Within b := by
  simp [pending]

theorem Keyed.pending_nodup (ht : Keyed table) : (pending table done bs).Nodup :=
  (ht.nodup.of_map _).filter _

theorem Keyed.eq_of_key (ht : Keyed table) {s t : Text × Block} (hs : s ∈ table) (h : t ∈ table)
    (hkey : s.1 = t.1) : s = t := List.inj_on_of_nodup_map ht.nodup hs h hkey

theorem Keyed.eq_of_block (ht : Keyed table) {s t : Text × Block} (hs : s ∈ table) (h : t ∈ table)
    (hblock : s.2 = t.2) : s = t := by
  have hkey := ht.shared s hs
  rw [hblock, ht.shared t h] at hkey
  exact ht.eq_of_key hs h (Option.some.inj hkey).symm

theorem Keyed.within_iff_of_unshared (ht : Keyed table) {b : Block} (hb : b.sharedKey? = none)
    {s : Text × Block} (hs : s ∈ table) : s.2.Within b ↔ ∃ c ∈ b.children, s.2.Within c := by
  refine within_iff.trans (or_iff_right ?_)
  intro heq
  have hkey := ht.shared s hs
  rw [heq, hb] at hkey
  cases hkey

/-- What is to be stated for some blocks when some shared sequences are done. -/
noncomputable def work (table : List (Text × Block)) (done : List Text) (bs : List Block) :
    List Subject := ownAll bs ++ (pending table done bs).flatMap fun s => ownAll s.2.children

@[simp] theorem work_nil : work table done [] = [] := by simp [work, pending]

theorem work_perm {cs : List Block} (h : bs.Perm cs) :
    (work table done bs).Perm (work table done cs) := by
  have hpending : pending table done bs = pending table done cs := by
    refine List.filter_congr fun s _ => decide_eq_decide.mpr ?_
    simp only [h.mem_iff]
  rw [work, work, hpending]
  exact (ownAll_perm h).append_right _

/-- For a block that is not shared, the block itself and what its children hold. -/
theorem work_of_unshared (ht : Keyed table) {b : Block} (hb : b.sharedKey? = none) :
    (work table done [b]).Perm (b.subject?.toList ++ work table done b.children) := by
  have hpending : (pending table done [b]).Perm (pending table done b.children) := by
    refine (List.perm_ext_iff_of_nodup ht.pending_nodup ht.pending_nodup).mpr ?_
    intro s
    simp only [mem_pending, List.mem_singleton, exists_eq_left]
    exact and_congr_right fun hs => and_congr_right fun _ => ht.within_iff_of_unshared hb hs
  simp only [work, ownAll_cons, ownAll_nil, List.append_nil, own_of_unshared hb, List.append_assoc]
  exact ((hpending.flatMap_right _).append_left _).append_left _

/-- A shared sequence that is done, with those inside it, leaves nothing to be stated. -/
theorem work_of_done {b : Block} (hb : b.sharedKey?.isSome)
    (hdone : ∀ s ∈ table, s.2.Within b → s.1 ∈ done) : work table done [b] = [] := by
  have hpending : pending table done [b] = [] := by
    refine List.eq_nil_iff_forall_not_mem.mpr fun s hs => ?_
    simp only [mem_pending, List.mem_singleton, exists_eq_left] at hs
    exact hs.2.1 (hdone s hs.1 hs.2.2)
  simp [work, hpending, own_of_shared hb]

theorem work_of_shared (ht : Keyed table) {s : Text × Block} (hs : s ∈ table) (hdone : s.1 ∉ done) :
    (work table done [s.2]).Perm (work table done s.2.children) := by
  have hself : s ∉ pending table done s.2.children := by
    intro hmem
    obtain ⟨_, _, c, hc, hw⟩ := mem_pending.mp hmem
    have := hw.sizeOf_le
    have := sizeOf_lt_of_mem_children hc
    omega
  have hpending : (pending table done [s.2]).Perm (s :: pending table done s.2.children) := by
    refine (List.perm_ext_iff_of_nodup ht.pending_nodup
      (List.nodup_cons.mpr ⟨hself, ht.pending_nodup⟩)).mpr ?_
    intro x
    rw [List.mem_cons, mem_pending, mem_pending]
    simp only [List.mem_singleton, exists_eq_left]
    constructor
    · rintro ⟨hx, hnot, hw⟩
      rcases within_iff.mp hw with heq | hw
      · exact Or.inl (ht.eq_of_block hx hs heq)
      · exact Or.inr ⟨hx, hnot, hw⟩
    · rintro (rfl | ⟨hx, hnot, hw⟩)
      · exact ⟨hs, hdone, .refl _⟩
      · exact ⟨hx, hnot, within_iff.mpr (Or.inr hw)⟩
  have hshared : s.2.sharedKey?.isSome := by simp [ht.shared s hs]
  simp only [work, ownAll_cons, ownAll_nil, own_of_shared hshared, List.nil_append]
  exact hpending.flatMap_right _

/-- The keys that are done once some blocks have been stated. -/
def Done (table : List (Text × Block)) (done : List Text) (bs : List Block) (key : Text) : Prop :=
  key ∈ done ∨ ∃ s ∈ table, s.1 = key ∧ ∃ b ∈ bs, s.2.Within b

@[simp] theorem done_nil {key : Text} : Done table done [] key ↔ key ∈ done := by simp [Done]

theorem done_of_unshared (ht : Keyed table) {b : Block} (hb : b.sharedKey? = none) {key : Text} :
    Done table done [b] key ↔ Done table done b.children key := by
  refine or_congr_right (exists_congr fun s => and_congr_right fun hs => and_congr_right fun _ => ?_)
  simp only [List.mem_singleton, exists_eq_left]
  exact ht.within_iff_of_unshared hb hs

/-- With a shared sequence those inside it are done and the sequence itself. -/
theorem done_of_shared (ht : Keyed table) {s : Text × Block} (hs : s ∈ table) {key : Text} :
    Done table done [s.2] key ↔ key = s.1 ∨ Done table done s.2.children key := by
  simp only [Done, List.mem_singleton, exists_eq_left]
  constructor
  · rintro (hkey | ⟨x, hx, rfl, hw⟩)
    · exact Or.inr (Or.inl hkey)
    · rcases within_iff.mp hw with heq | hw
      · exact Or.inl (congrArg Prod.fst (ht.eq_of_block hx hs heq))
      · exact Or.inr (Or.inr ⟨x, hx, rfl, hw⟩)
  · rintro (rfl | hkey | ⟨x, hx, rfl, hw⟩)
    · exact Or.inr ⟨s, hs, rfl, .refl _⟩
    · exact Or.inl hkey
    · exact Or.inr ⟨x, hx, rfl, within_iff.mpr (Or.inr hw)⟩

theorem exists_done (table : List (Text × Block)) (done : List Text) (bs : List Block) :
    ∃ done' : List Text, ∀ key, key ∈ done' ↔ Done table done bs key := by
  refine ⟨done ++ (pending table done bs).map (·.1), fun key => ?_⟩
  simp only [List.mem_append, List.mem_map, mem_pending, Done]
  constructor
  · rintro (hkey | ⟨s, ⟨hs, _, hw⟩, rfl⟩)
    · exact Or.inl hkey
    · exact Or.inr ⟨s, hs, rfl, hw⟩
  · rintro (hkey | ⟨s, hs, rfl, hw⟩)
    · exact Or.inl hkey
    · exact or_iff_not_imp_left.mpr fun hnot => ⟨s, ⟨hs, hnot, hw⟩, rfl⟩

/-- For blocks one after the other, what is to be stated for the first ones, and for the others once
these are done. -/
theorem work_append (ht : Keyed table) {done' : List Text} {cs : List Block}
    (hdone : ∀ key, key ∈ done' ↔ Done table done bs key) :
    (work table done (bs ++ cs)).Perm (work table done bs ++ work table done' cs) := by
  have hiff : ∀ s ∈ table, s.1 ∉ done' ↔ s.1 ∉ done ∧ ¬ ∃ b ∈ bs, s.2.Within b := by
    intro s hs
    rw [hdone, Done, not_or]
    refine and_congr_right fun _ => not_congr ⟨?_, fun hw => ⟨s, hs, rfl, hw⟩⟩
    rintro ⟨t, htable, hkey, hw⟩
    rwa [ht.eq_of_key htable hs hkey] at hw
  have hpending : (pending table done (bs ++ cs)).Perm
      (pending table done bs ++ pending table done' cs) := by
    refine (List.perm_ext_iff_of_nodup ht.pending_nodup
      (ht.pending_nodup.append ht.pending_nodup ?_)).mpr ?_
    · intro s hs hs'
      obtain ⟨htable, _, hw⟩ := mem_pending.mp hs
      exact ((hiff s htable).mp (mem_pending.mp hs').2.1).2 hw
    · intro s
      simp only [List.mem_append, mem_pending, or_and_right, exists_or]
      constructor
      · rintro ⟨htable, hnot, hw⟩
        by_cases hbs : ∃ b ∈ bs, s.2.Within b
        · exact Or.inl ⟨htable, hnot, hbs⟩
        · exact Or.inr ⟨htable, (hiff s htable).mpr ⟨hnot, hbs⟩, hw.resolve_left hbs⟩
      · rintro (⟨htable, hnot, hw⟩ | ⟨htable, hnot, hw⟩)
        · exact ⟨htable, hnot, Or.inl hw⟩
        · exact ⟨htable, ((hiff s htable).mp hnot).1, Or.inr hw⟩
  have hflat := (hpending.flatMap_right fun s => ownAll s.2.children).append_left
    (ownAll bs ++ ownAll cs)
  rw [List.flatMap_append] at hflat
  simp only [work, ownAll_append]
  refine hflat.trans ?_
  simp only [List.append_assoc]
  exact (List.perm_append_comm_assoc _ _ _).append_left _

end Work

end Block

end WorkflowCompiler
