import Mathlib
import WorkflowCompiler.Proofs.Resolution.Assembly

/-! # Shared sequences

The table of shared sequences only grows, and holds one sequence for every key. Whatever shared
sequence stands inside a block is the one of the table, so joining chains loses no block: what is
dropped stands inside another shared sequence.
-/
namespace WorkflowCompiler.Resolution
open Block

/-- The shared sequences inside some blocks are those of the table. -/
def SharedIn (p : Progress) (blocks : List Block) : Prop :=
  ∀ b ∈ blocks, ∀ x, x.Within b → ∀ key, x.sharedKey? = some key → (key, x) ∈ p.shared

/-- The table holds one sequence for every key, and what these hold. -/
structure TableSound (p : Progress) : Prop where
  nodup : (p.shared.map (·.1)).Nodup
  form : ∀ s ∈ p.shared, ∃ n items, s.2 = .sequence n items none (some s.1)
  closed : SharedIn p (p.shared.map (·.2))

/-- The table grows, and no active node gets a sequence. -/
structure Grows (active : List Text) (p q : Progress) : Prop where
  keeps : ∀ s ∈ p.shared, s ∈ q.shared
  fresh : ∀ s ∈ q.shared, s ∈ p.shared ∨ s.1 ∉ active

theorem Grows.refl (active : List Text) (p : Progress) : Grows active p p :=
  ⟨fun _ h => h, fun _ h => Or.inl h⟩

theorem Grows.trans {active : List Text} {p q r : Progress} (h : Grows active p q)
    (h' : Grows active q r) : Grows active p r where
  keeps s hs := h'.keeps s (h.keeps s hs)
  fresh s hs := by
    rcases h'.fresh s hs with hs | hs
    · exact h.fresh s hs
    · exact Or.inr hs

theorem Grows.mono {active active' : List Text} (ha : ∀ id ∈ active, id ∈ active')
    {p q : Progress} (h : Grows active' p q) : Grows active p q where
  keeps := h.keeps
  fresh s hs := (h.fresh s hs).imp_right fun hn hmem => hn (ha _ hmem)

theorem SharedIn.grow {active : List Text} {p q : Progress} {blocks : List Block}
    (h : SharedIn p blocks) (hg : Grows active p q) : SharedIn q blocks :=
  fun b hb x hx key hkey => hg.keeps _ (h b hb x hx key hkey)

theorem SharedIn.subset {p : Progress} {blocks blocks' : List Block} (h : SharedIn p blocks)
    (hs : ∀ b ∈ blocks', b ∈ blocks) : SharedIn p blocks' := fun b hb => h b (hs b hb)

/-- What a chain does to the table. -/
def Tabled (active : List Text) (c : Call) (p q : Progress) : Prop :=
  TableSound p → TableSound q ∧ Grows active p q ∧ SharedIn q c.result

theorem Logged.tabled {active : List Text} {p q : Progress} {events : List Event}
    {made : List Block} (h : Logged (fun c p _ q => Tabled active c p q) p events made q)
    (hp : TableSound p) :
    TableSound q ∧ Grows active p q ∧ ∀ c ∈ callsOf events, SharedIn q c.result := by
  induction h with
  | nil => exact ⟨hp, .refl _ _, by simp⟩
  | call hc _ ih =>
    obtain ⟨hq, hg, hc⟩ := hc hp
    obtain ⟨hr, hg', hrest⟩ := ih hq
    refine ⟨hr, hg.trans hg', ?_⟩
    intro c' hc'
    rcases List.mem_cons.mp hc' with rfl | hc'
    · exact hc.grow hg'
    · exact hrest c' hc'
  | make _ _ ih =>
    have hadvance : TableSound (Progress.advance _) := ⟨hp.nodup, hp.form, hp.closed⟩
    obtain ⟨hr, hg, hrest⟩ := ih hadvance
    exact ⟨hr, ⟨hg.keeps, hg.fresh⟩, hrest⟩

/-- The shared sequences inside the blocks of a node are those that its strands give. -/
theorem Entry.Of.sharedIn {facts : Facts} {e : Entry} {c : Call} (he : e.Of facts c) {q : Progress}
    (h : ∀ c ∈ callsOf e.events, SharedIn q c.result) : SharedIn q c.result := by
  intro b hb x hx key hkey
  rcases he.assembled.within_origin hb hx with hown | ⟨l, hl, y, hy, hw⟩
  · rw [he.assembled.unshared hown] at hkey
    cases hkey
  · obtain ⟨c', hc', hy⟩ := (he.joins l hl).mem_result hy
    exact h c' (he.calls ▸ List.mem_flatMap.mpr ⟨l, hl, hc'⟩) y hy x hw key hkey

theorem TableSound.share {p : Progress} (hp : TableSound p) {id : Text} {items : List Block}
    (hnew : ∀ s ∈ p.shared, s.1 ≠ id) (hitems : SharedIn p items) :
    TableSound (p.share id items) ∧
      SharedIn (p.share id items) [.sequence p.next items none (some id)] := by
  have hself : SharedIn (p.share id items) [.sequence p.next items none (some id)] := by
    intro b hb x hx key hkey
    rw [List.mem_singleton.mp hb] at hx
    rcases within_iff.mp hx with rfl | ⟨y, hy, hw⟩
    · simp only [sharedKey?] at hkey
      split at hkey
      · cases hkey
      · cases hkey
        exact List.mem_cons_self
    · exact List.mem_cons_of_mem _ (hitems y hy x hw key hkey)
  refine ⟨⟨?_, ?_, ?_⟩, hself⟩
  · refine List.nodup_cons.mpr ⟨?_, hp.nodup⟩
    intro hmem
    obtain ⟨s, hs, hid⟩ := List.mem_map.mp hmem
    exact hnew s hs hid
  · intro s hs
    rcases List.mem_cons.mp hs with rfl | hs
    · exact ⟨_, _, rfl⟩
    · exact hp.form s hs
  · intro b hb x hx key hkey
    rcases List.mem_cons.mp hb with rfl | hb
    · exact hself _ (List.mem_singleton_self _) x hx key hkey
    · exact List.mem_cons_of_mem _ (hp.closed b hb x hx key hkey)

theorem Logs.tabled {facts : Facts} {active : List Text} {c : Call} {p q : Progress}
    {made : List Block} (h : Logs facts active c p made q) : Tabled active c p q := by
  refine Logs.induction (motive := fun active c p _ q => Tabled active c p q) ?_ h
  intro active c p made q hs hp
  cases hs with
  | stopped _ => exact ⟨hp, .refl _ _, fun b hb => absurd hb List.not_mem_nil⟩
  | known _ _ _ hlookup =>
    refine ⟨hp, .refl _ _, hp.closed.subset ?_⟩
    intro b hb
    rw [List.mem_singleton.mp hb]
    exact List.mem_map.mpr ⟨_, mem_of_lookup hlookup, rfl⟩
  | @fresh owner stop id items _ r made e _ hactive _ _ hlookup he hl =>
    have hmeet : TableSound (p.meet id) := ⟨hp.nodup, hp.form, hp.closed⟩
    obtain ⟨hr, hg, hcs⟩ := (hl.mono fun hc => hc.2).tabled hmeet
    have hnew : ∀ s ∈ r.shared, s.1 ≠ id := by
      rintro s hs rfl
      rcases hg.fresh s hs with hs | hs
      · simpa using List.lookup_eq_none_iff.mp hlookup s hs
      · exact hs List.mem_cons_self
    obtain ⟨hshare, hself⟩ := hr.share hnew (he.sharedIn hcs)
    have hlater : Grows active r (r.share id items) := by
      refine ⟨fun s hs => List.mem_cons_of_mem _ hs, ?_⟩
      intro s hs
      rcases List.mem_cons.mp hs with rfl | hs
      · exact Or.inr hactive
      · exact Or.inl hs
    have hbefore : Grows active p r :=
      ⟨hg.keeps, (hg.mono fun x hx => List.mem_cons_of_mem _ hx).fresh⟩
    exact ⟨hshare, hbefore.trans hlater, hself⟩
  | entered e _ _ _ he hl =>
    obtain ⟨hq, hg, hcs⟩ := (hl.mono fun hc => hc.2).tabled hp
    exact ⟨hq, hg.mono fun x hx => List.mem_cons_of_mem _ hx, he.sharedIn hcs⟩

theorem TableSound.unique {p : Progress} (hp : TableSound p) {key : Text} {a b : Block}
    (ha : (key, a) ∈ p.shared) (hb : (key, b) ∈ p.shared) : a = b :=
  (Prod.mk.inj (List.inj_on_of_nodup_map hp.nodup ha hb rfl)).2

/-- A shared sequence that joining drops stands inside a shared one that is kept. -/
theorem splice_holds_shared {p : Progress} (hp : TableSound p) {chains : List (List Block)}
    (hin : SharedIn p chains.flatten) {b : Block} (hb : b ∈ chains.flatten) {key : Text}
    (hkey : b.sharedKey? = some key) :
    ∃ item ∈ splice chains, item.sharedKey?.isSome ∧ b.Within item := by
  -- a sequence around a dropped one is larger, and none is larger than all blocks together
  induction hn : sizeOf chains.flatten - sizeOf b using Nat.strong_induction_on
    generalizing b key with
  | h n ih =>
    have hheld := held_heldBack chains.flatten
    have hentry := hin b hb b (.refl b) key hkey
    by_cases hdropped : key ∈ droppedKeys chains.flatten
    · obtain ⟨outer, houter, hnested⟩ := List.mem_flatMap.mp hdropped
      obtain ⟨inner, hinner, hcond⟩ := List.mem_filterMap.mp hnested
      split at hcond
      · cases hcond
      next hserial =>
      obtain ⟨hmem, hshared⟩ := hheld.shared outer houter
      have hw := within_of_mem_walk hinner
      obtain rfl := hp.unique (hin _ hmem inner hw key hcond) hentry
      rcases hw.eq_or_sizeOf_lt with rfl | hlt
      · exact absurd rfl hserial
      · have hbound := List.sizeOf_lt_of_mem hmem
        obtain ⟨item, hitem, hkept, hw'⟩ := ih _ (by omega) hmem hshared rfl
        exact ⟨item, hitem, hkept, hw.trans hw'⟩
    · obtain ⟨⟨key', b'⟩, hmem, rfl⟩ := List.mem_map.mp (hheld.complete b hb key hkey)
      obtain ⟨hb', hkey'⟩ := hheld.shared _ hmem
      obtain rfl := hp.unique (hin _ hb' _ (.refl _) _ hkey') hentry
      exact ⟨b', mem_splice.mpr (Or.inr ⟨_, hmem, hdropped⟩), by rw [hkey]; rfl, .refl _⟩

/-- Joining loses no block: one that is not shared stays, and a shared one stands inside what stays. -/
theorem splice_holds {p : Progress} (hp : TableSound p) {chains : List (List Block)}
    (hin : SharedIn p chains.flatten) {b : Block} (hb : b ∈ chains.flatten) :
    ∃ item ∈ splice chains, b.Within item := by
  cases hkey : b.sharedKey? with
  | none => exact ⟨b, mem_splice.mpr (Or.inl ⟨hb, hkey⟩), .refl b⟩
  | some key =>
    obtain ⟨item, hitem, _, hw⟩ := splice_holds_shared hp hin hb hkey
    exact ⟨item, hitem, hw⟩

/-- What a chain of a strand gives stands inside the content of the strand. -/
theorem Laid.Joins.holds {l : Laid} (h : l.Joins) {p : Progress} (hp : TableSound p)
    (hin : ∀ c ∈ l.calls, SharedIn p c.result) {c : Call} (hc : c ∈ l.calls) {b : Block}
    (hb : b ∈ c.result) : ∃ item ∈ l.content, b.Within item := by
  have hmem : b ∈ (l.calls.map (·.result)).flatten :=
    List.mem_flatten.mpr ⟨c.result, List.mem_map_of_mem hc, hb⟩
  rcases h.content with hcontent | hcontent
  · rw [hcontent]
    refine splice_holds hp ?_ hmem
    intro x hx
    obtain ⟨_, hresult, hx⟩ := List.mem_flatten.mp hx
    obtain ⟨c', hc', rfl⟩ := List.mem_map.mp hresult
    exact hin c' hc' x hx
  · exact ⟨b, by simpa [hcontent] using hmem, .refl b⟩

end WorkflowCompiler.Resolution
