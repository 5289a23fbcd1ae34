import Mathlib
import WorkflowCompiler.Resolution.Basic

/-! # What joining keeps

Joining sibling chains keeps every block that is not shared, and of the shared sequences one for
every key unless it stands inside another one.
-/
namespace WorkflowCompiler.Resolution

/-- One step of holding back: a shared sequence is held unless its key is. -/
def holdStep (held : List (Text × Block)) (block : Block) : List (Text × Block) :=
  match block.sharedKey? with
  | none => held
  | some key => if held.any (·.1 == key) then held else held ++ [(key, block)]

theorem heldBack_eq (blocks : List Block) : heldBack blocks = blocks.foldl holdStep [] := rfl

/-- What is held under its key: shared sequences among some blocks, no two with one key. -/
structure Held (blocks : List Block) (held : List (Text × Block)) : Prop where
  nodup : (held.map (·.1)).Nodup
  shared : ∀ h ∈ held, h.2 ∈ blocks ∧ h.2.sharedKey? = some h.1
  complete : ∀ b ∈ blocks, ∀ key, b.sharedKey? = some key → key ∈ held.map (·.1)

theorem Held.step {blocks : List Block} {held : List (Text × Block)} (h : Held blocks held)
    (block : Block) : Held (blocks ++ [block]) (holdStep held block) := by
  have hweak : ∀ x ∈ held, x.2 ∈ blocks ++ [block] ∧ x.2.sharedKey? = some x.1 := fun x hx =>
    ⟨List.mem_append_left _ (h.shared x hx).1, (h.shared x hx).2⟩
  unfold holdStep
  split
  next hnone =>
    refine ⟨h.nodup, hweak, ?_⟩
    intro b hb key hkey
    rcases List.mem_append.mp hb with hb | hb
    · exact h.complete b hb key hkey
    · rw [List.mem_singleton.mp hb, hnone] at hkey
      cases hkey
  next key hkey =>
    split
    next hany =>
      refine ⟨h.nodup, hweak, ?_⟩
      intro b hb key' hkey'
      rcases List.mem_append.mp hb with hb | hb
      · exact h.complete b hb key' hkey'
      · rw [List.mem_singleton.mp hb, hkey] at hkey'
        cases hkey'
        obtain ⟨x, hx, hk⟩ := List.any_eq_true.mp hany
        exact List.mem_map.mpr ⟨x, hx, by simpa using hk⟩
    next hany =>
      refine ⟨?_, ?_, ?_⟩
      · simp only [List.map_append, List.map_cons, List.map_nil]
        refine h.nodup.append (List.nodup_singleton _) ?_
        intro k hk hk'
        rw [List.mem_singleton.mp hk'] at hk
        obtain ⟨x, hx, hxk⟩ := List.mem_map.mp hk
        exact hany (List.any_eq_true.mpr ⟨x, hx, by simpa using hxk⟩)
      · intro x hx
        rcases List.mem_append.mp hx with hx | hx
        · exact hweak x hx
        · rw [List.mem_singleton.mp hx]
          exact ⟨by simp, hkey⟩
      · intro b hb key' hkey'
        rw [List.map_append, List.mem_append]
        rcases List.mem_append.mp hb with hb | hb
        · exact Or.inl (h.complete b hb key' hkey')
        · rw [List.mem_singleton.mp hb, hkey] at hkey'
          cases hkey'
          exact Or.inr (by simp)

theorem held_heldBack (blocks : List Block) : Held blocks (heldBack blocks) := by
  rw [heldBack_eq]
  induction blocks using List.reverseRecOn with
  | nil => exact ⟨by simp, by simp, by simp⟩
  | append_singleton blocks block ih =>
    rw [List.foldl_append]
    exact ih.step block

theorem heldBack_concat (blocks : List Block) (block : Block) :
    heldBack (blocks ++ [block]) = holdStep (heldBack blocks) block := by
  rw [heldBack_eq, heldBack_eq, List.foldl_append]
  rfl

theorem heldBack_append_held {blocks : List Block} {held : List (Text × Block)}
    (hblocks : ∀ b ∈ blocks, b.sharedKey? = none) (hnodup : (held.map (·.1)).Nodup)
    (hshared : ∀ h ∈ held, h.2.sharedKey? = some h.1) :
    heldBack (blocks ++ held.map (·.2)) = held := by
  induction held using List.reverseRecOn with
  | nil =>
    rw [List.map_nil, List.append_nil]
    refine List.eq_nil_iff_forall_not_mem.mpr fun h hh => ?_
    obtain ⟨hmem, hkey⟩ := (held_heldBack blocks).shared h hh
    rw [hblocks h.2 hmem] at hkey
    cases hkey
  | append_singleton held last ih =>
    rw [List.map_append, List.nodup_append] at hnodup
    have hbefore := ih hnodup.1 fun h hh => hshared h (List.mem_append_left _ hh)
    have hkey := hshared last (List.mem_append_right _ (List.mem_singleton_self _))
    have hnew : held.any (·.1 == last.1) = false := by
      rw [List.any_eq_false]
      intro h hh
      simpa using hnodup.2.2 h.1 (List.mem_map_of_mem hh) last.1 (by simp)
    rw [List.map_append, ← List.append_assoc, List.map_singleton, heldBack_concat, hbefore, holdStep,
      hkey]
    simp only [hnew, Bool.false_eq_true, if_false]

section Map
variable {f : Block → Block} (hf : ∀ b, (f b).sharedKey? = b.sharedKey?)
include hf

theorem holdStep_map (held : List (Text × Block)) (b : Block) :
    holdStep (held.map (Prod.map id f)) (f b) = (holdStep held b).map (Prod.map id f) := by
  rw [holdStep, holdStep, hf]
  cases b.sharedKey? with
  | none => rfl
  | some key =>
    simp only [List.any_map, Function.comp_def, Prod.map_fst, id]
    split
    · rfl
    · rw [List.map_append, List.map_singleton, Prod.map_apply, id]

theorem heldBack_map (blocks : List Block) :
    heldBack (blocks.map f) = (heldBack blocks).map (Prod.map id f) := by
  induction blocks using List.reverseRecOn with
  | nil => rfl
  | append_singleton blocks b ih =>
    rw [List.map_append, List.map_singleton, heldBack_concat, heldBack_concat, ih]
    exact holdStep_map hf _ b

end Map

def droppedKeys (blocks : List Block) : List Text :=
  (heldBack blocks).flatMap fun h => nestedKeys h.2

theorem mem_splice {chains : List (List Block)} {b : Block} :
    b ∈ splice chains ↔ (b ∈ chains.flatten ∧ b.sharedKey? = none) ∨
      ∃ key, (key, b) ∈ heldBack chains.flatten ∧ key ∉ droppedKeys chains.flatten := by
  simp only [splice, List.mem_append, List.mem_filter, List.mem_map, Option.isNone_iff_eq_none,
    Bool.not_eq_true', Prod.exists, exists_eq_right, droppedKeys, List.contains_eq_mem,
    decide_eq_false_iff_not]

/-- Joining keeps the blocks that are not shared in their order, and puts shared ones behind them. -/
theorem exists_splice (chains : List (List Block)) :
    ∃ held, splice chains = chains.flatten.filter (·.sharedKey?.isNone) ++ held ∧
      ∀ b ∈ held, b.sharedKey?.isSome := by
  refine ⟨_, rfl, ?_⟩
  intro b hb
  obtain ⟨x, hx, rfl⟩ := List.mem_map.mp hb
  rw [((held_heldBack _).shared x (List.mem_filter.mp hx).1).2]
  rfl

theorem mem_flatten_of_mem_splice {chains : List (List Block)} {b : Block} (h : b ∈ splice chains) :
    b ∈ chains.flatten := by
  rcases mem_splice.mp h with h | ⟨key, h, _⟩
  · exact h.1
  · exact ((held_heldBack _).shared _ h).1

theorem splice_of_unshared {chains : List (List Block)}
    (h : ∀ b ∈ chains.flatten, b.sharedKey? = none) : splice chains = chains.flatten := by
  obtain ⟨held, hsplice, hshared⟩ := exists_splice chains
  have hheld : held = [] := by
    refine List.eq_nil_iff_forall_not_mem.mpr fun b hb => ?_
    have hmem : b ∈ splice chains := hsplice ▸ List.mem_append_right _ hb
    have hkey := hshared b hb
    rw [h b (mem_flatten_of_mem_splice hmem)] at hkey
    cases hkey
  have hkept : chains.flatten.filter (·.sharedKey?.isNone) = chains.flatten :=
    List.filter_eq_self.mpr fun b hb => by rw [h b hb]; rfl
  rw [hsplice, hheld, hkept, List.append_nil]

/-- Of the shared sequences those stay that do not stand inside another one. -/
theorem exists_shared_splice {chains : List (List Block)} {key : Text} :
    (∃ b ∈ splice chains, b.sharedKey? = some key) ↔
      (∃ b ∈ chains.flatten, b.sharedKey? = some key) ∧ key ∉ droppedKeys chains.flatten := by
  have hheld := held_heldBack chains.flatten
  constructor
  · rintro ⟨b, hb, hkey⟩
    refine ⟨⟨b, mem_flatten_of_mem_splice hb, hkey⟩, ?_⟩
    rcases mem_splice.mp hb with ⟨_, hnone⟩ | ⟨key', hb, hkept⟩
    · rw [hnone] at hkey
      cases hkey
    · rw [(hheld.shared _ hb).2] at hkey
      exact Option.some.inj hkey ▸ hkept
  · rintro ⟨⟨b, hb, hkey⟩, hkept⟩
    obtain ⟨⟨_, b'⟩, hmem, rfl⟩ := List.mem_map.mp (hheld.complete b hb key hkey)
    exact ⟨b', mem_splice.mpr (Or.inr ⟨_, hmem, hkept⟩), (hheld.shared _ hmem).2⟩

end WorkflowCompiler.Resolution
