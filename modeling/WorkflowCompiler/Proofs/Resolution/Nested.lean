import Mathlib
import WorkflowCompiler.Proofs.Resolution.Account
import WorkflowCompiler.Proofs.Resolution.Context
import WorkflowCompiler.Proofs.Resolution.Level

/-! # Runs without cycles

Without cycles no chain comes back to an active node: it begins a shared sequence at a merge point
and enters any other node. The shared sequences that stand inside another one are then those of the
merge points to which its own leads.
-/
namespace WorkflowCompiler.Resolution
open Block Relation

section Context
variable {g : Graph} (ha : g.Acyclic) {active : List Text} {c : Call} (hc : Context g active c)
include ha hc

theorem Context.not_active : c.start ∉ active := fun h => ha _ (hc.leads _ h)

theorem Context.not_stopped : c.start ∉ c.stop := fun h => hc.not_active ha (hc.stops _ h)

theorem Context.not_owned : c.owner ≠ some c.start := fun h => hc.not_active ha (hc.owned _ h)

end Context

/-- What a chain keeps: a property of all shared sequences, as long as these go into a table. -/
def Keeps (table : List (Text × Block)) (P : Text → List Block → Prop) (c : Call)
    (p q : Progress) : Prop :=
  TableSound p → (∀ s ∈ q.shared, s ∈ table) → (∀ s ∈ p.shared, P s.1 [s.2]) →
    (∀ s ∈ q.shared, P s.1 [s.2]) ∧ P c.start c.result

theorem Logged.keeps {facts : Facts} {active : List Text} {table : List (Text × Block)}
    {P : Text → List Block → Prop} {p q : Progress} {events : List Event} {made : List Block}
    (h : Logged (fun c p made q => Logs facts active c p made q ∧ Keeps table P c p q)
      p events made q) (hp : TableSound p) (hq : ∀ s ∈ q.shared, s ∈ table)
    (hP : ∀ s ∈ p.shared, P s.1 [s.2]) :
    (∀ s ∈ q.shared, P s.1 [s.2]) ∧ ∀ c ∈ callsOf events, P c.start c.result := by
  induction h with
  | nil => exact ⟨hP, by simp⟩
  | call hc hrest ih =>
    obtain ⟨hq', _, _⟩ := hc.1.tabled hp
    obtain ⟨_, hgrows, _⟩ := (hrest.mono fun hc => hc.1.tabled).tabled hq'
    obtain ⟨hP', hresult⟩ := hc.2 hp (fun s hs => hq s (hgrows.keeps s hs)) hP
    obtain ⟨hlast, hcalls⟩ := ih hq' hq hP'
    exact ⟨hlast, by simpa [hresult] using hcalls⟩
  | make _ _ ih => exact ih ⟨hp.nodup, hp.form, hp.closed⟩ hq hP

/-- What holds of an entry because it holds of the chains of its strands holds of every chain and
every shared sequence. `P` is said of chains and `E` of entries. -/
theorem Logs.keeps {g : Graph} (ha : g.Acyclic) {table : List (Text × Block)}
    {P E : Text → List Block → Prop}
    (share : ∀ {n id items}, id ∈ g.merges → E id items → P id [.sequence n items none (some id)])
    (plain : ∀ {id items}, id ∉ g.merges → E id items → P id items)
    (enter : ∀ {e : Entry} {c : Call} {q : Progress}, e.Of (.ofGraph g) c → TableSound q →
      (∀ s ∈ q.shared, s ∈ table) → (∀ s ∈ q.shared, P s.1 [s.2]) →
      (∀ c' ∈ callsOf e.events, P c'.start c'.result ∧ SharedIn q c'.result) →
      E c.start c.result)
    {active : List Text} {c : Call} {p q : Progress} {made : List Block}
    (h : Logs (.ofGraph g) active c p made q) (hc : Context g active c) : Keeps table P c p q := by
  refine Logs.induction_context (motive := fun _ c p _ q => Keeps table P c p q) ?_ h hc
  intro active c p made q hc hs hp hin hP
  have hentry : ∀ {e : Entry} {owner items p made q},
      e.Of (.ofGraph g) ⟨owner, c.stop, c.start, items⟩ →
      Logged (fun c' p made q => Logs (.ofGraph g) (c.start :: active) c' p made q ∧
        Context g (c.start :: active) c' ∧ Keeps table P c' p q) p e.events made q →
      TableSound p → (∀ s ∈ q.shared, s ∈ table) → (∀ s ∈ p.shared, P s.1 [s.2]) →
      (∀ s ∈ q.shared, P s.1 [s.2]) ∧ E c.start items := by
    intro e owner items p made q he hl hp hin hP
    obtain ⟨hq, _, hshared⟩ := (hl.mono fun hc => hc.1.tabled).tabled hp
    obtain ⟨hP', hcalls⟩ := (hl.mono fun hc => ⟨hc.1, hc.2.2⟩).keeps hp hin hP
    exact ⟨hP', enter he hq hin hP' fun c' hc' => ⟨hcalls c' hc', hshared c' hc'⟩⟩
  cases hs with
  | stopped hstop => exact absurd hstop (hc.not_stopped ha)
  | known _ _ _ hlookup => exact ⟨hP, hP _ (mem_of_lookup hlookup)⟩
  | @fresh owner stop id items _ q made e _ _ hmerge _ _ he hl =>
    obtain ⟨hP', hE⟩ := hentry he hl ⟨hp.nodup, hp.form, hp.closed⟩
      (fun s hs => hin s (List.mem_cons_of_mem _ hs)) hP
    have hnew : P id [.sequence q.next items none (some id)] :=
      share (List.contains_iff_mem.mp hmerge) hE
    refine ⟨?_, hnew⟩
    intro s hs
    rcases List.mem_cons.mp hs with rfl | hs
    · exact hnew
    · exact hP' s hs
  | entered e _ _ hmerge he hl =>
    obtain ⟨hP', hE⟩ := hentry he hl hp hin hP
    exact ⟨hP', plain (fun hm => hc.not_owned ha (hmerge (List.contains_iff_mem.mpr hm))) hE⟩

/-- What every chain keeps holds of all shared sequences and of the chains from the entries. -/
theorem RootLog.keeps {g : Graph} {root : Block} {l : Laid} {made : List Block} {q : Progress}
    (h : RootLog g root l made q) {table : List (Text × Block)} {P : Text → List Block → Prop}
    (hkeeps : ∀ {c p made q}, Logs (.ofGraph g) [] c p made q → Context g [] c →
      Keeps table P c p q) (hq : ∀ s ∈ q.shared, s ∈ table) :
    (∀ s ∈ q.shared, P s.1 [s.2]) ∧ ∀ c ∈ l.calls, P c.start c.result := by
  have hlogged := h.logged_context.mono fun hc => And.intro hc.1 (hkeeps hc.1 hc.2)
  obtain ⟨hshared, hcalls⟩ := hlogged.keeps tableSound_start hq (by simp)
  exact ⟨hshared, by rwa [callsOf_calls] at hcalls⟩

/-- The shared sequence of a merge point stands inside some blocks. -/
def HoldsShared (items : List Block) (m : Text) : Prop :=
  ∃ b ∈ items, ∃ x : Block, x.Within b ∧ x.sharedKey? = some m

theorem holdsShared_sequence {n : Nat} {items : List Block} {id m : Text} :
    HoldsShared [.sequence n items none (some id)] m ↔ (m = id ∧ id ≠ []) ∨ HoldsShared items m := by
  have hkey : (Block.sequence n items none (some id)).sharedKey? = some m ↔ m = id ∧ id ≠ [] := by
    simp only [sharedKey?]
    split <;> grind
  constructor
  · rintro ⟨b, hb, x, hx, hm⟩
    rw [List.mem_singleton.mp hb] at hx
    rcases within_iff.mp hx with rfl | ⟨y, hy, hw⟩
    · exact Or.inl (hkey.mp hm)
    · exact Or.inr ⟨y, hy, x, hw, hm⟩
  · rintro (h | ⟨b, hb, x, hx, hm⟩)
    · exact ⟨_, List.mem_singleton_self _, _, .refl _, hkey.mpr h⟩
    · exact ⟨_, List.mem_singleton_self _, x, hx.trans (within_of_mem_children hb), hm⟩

/-- The shared sequences inside an entry are those inside the chains of its strands. -/
theorem Entry.Of.holdsShared_iff {facts : Facts} {e : Entry} {c : Call} (he : e.Of facts c)
    {q : Progress} (hq : TableSound q) (hin : ∀ c' ∈ callsOf e.events, SharedIn q c'.result)
    {m : Text} : HoldsShared c.result m ↔ ∃ c' ∈ callsOf e.events, HoldsShared c'.result m := by
  rw [he.calls] at hin ⊢
  constructor
  · rintro ⟨b, hb, x, hx, hm⟩
    rcases he.assembled.within_origin hb hx with hown | ⟨l, hl, y, hy, hw⟩
    · rw [he.assembled.unshared hown] at hm
      cases hm
    · obtain ⟨c', hc', hy⟩ := (he.joins l hl).mem_result hy
      exact ⟨c', List.mem_flatMap.mpr ⟨l, hl, hc'⟩, y, hy, x, hw, hm⟩
  · rintro ⟨c', hc', b, hb, x, hx, hm⟩
    obtain ⟨l, hl, hc'⟩ := List.mem_flatMap.mp hc'
    obtain ⟨y, hy, hw⟩ := (he.joins l hl).holds hq
      (fun c hc => hin c (List.mem_flatMap.mpr ⟨l, hl, hc⟩)) hc' hb
    obtain ⟨z, hz, hw'⟩ := he.assembled.holds (Or.inr ⟨l, hl, hy⟩)
    exact ⟨z, hz, x, (hx.trans hw).trans hw', hm⟩

section Graph
variable {g : Graph} (hg : g.Sound) (ha : g.Acyclic)
include hg ha

/-- A chain holds the shared sequences of the merge points to which it leads. -/
theorem Logs.holdsShared {table : List (Text × Block)} {active : List Text} {c : Call}
    {p q : Progress} {made : List Block} (h : Logs (.ofGraph g) active c p made q)
    (hc : Context g active c) : Keeps table (fun id items =>
      ∀ m, HoldsShared items m ↔ g.Shares m ∧ Graph.Reaches g.edges id m) c p q := by
  refine Logs.keeps ha (E := fun id items =>
    ∀ m, HoldsShared items m ↔ g.Shares m ∧ TransGen (Graph.Leads g.edges) id m) ?_ ?_ ?_ h hc
  · intro n id items hid hE m
    rw [holdsShared_sequence, hE m, Graph.Reaches, reflTransGen_iff_eq_or_transGen]
    constructor
    · rintro (⟨rfl, hne⟩ | ⟨hs, hpath⟩)
      · exact ⟨⟨hid, hne⟩, Or.inl rfl⟩
      · exact ⟨hs, Or.inr hpath⟩
    · rintro ⟨hs, rfl | hpath⟩
      · exact Or.inl ⟨rfl, hs.2⟩
      · exact Or.inr ⟨hs, hpath⟩
  · intro id items hid hE m
    rw [hE m]
    refine and_congr_right fun hs => ⟨TransGen.to_reflTransGen, fun hr => ?_⟩
    refine Graph.transGen_of_ne hr ?_
    rintro rfl
    exact hid hs.1
  · intro e c q he hq _ _ hcalls m
    rw [he.holdsShared_iff hq fun c' hc' => (hcalls c' hc').2]
    constructor
    · rintro ⟨c', hc', hm⟩
      obtain ⟨hs, hr⟩ := ((hcalls c' hc').1 m).mp hm
      exact ⟨hs, .head' (he.leads hc') hr⟩
    · rintro ⟨hs, hpath⟩
      obtain ⟨t, hl, hr⟩ := TransGen.head'_iff.mp hpath
      obtain ⟨c', hc', rfl, _⟩ := he.exists_call hg hl
      exact ⟨c', hc', ((hcalls c' hc').1 m).mpr ⟨hs, hr⟩⟩

/-- Inside a shared sequence stand those of the merge points to which its own leads. -/
theorem RootLog.mem_nestedKeys {root : Block} {l : Laid} {made : List Block} {q : Progress}
    (h : RootLog g root l made q) {s : Text × Block} (hs : s ∈ q.shared) {m : Text} :
    m ∈ nestedKeys s.2 ↔ g.Shares m ∧ TransGen (Graph.Leads g.edges) s.1 m := by
  obtain ⟨hq, _, _⟩ := (h.logged.mono fun hc => hc.tabled).tabled tableSound_start
  obtain ⟨hshared, _⟩ := h.keeps (fun hlog hc => hlog.holdsShared hg ha hc) (fun s hs => hs)
  have hholds := hshared s hs m
  have hco := h.coherent_of_shared hs
  have hmem : s.2 ∈ q.shared.map (·.2) := List.mem_map_of_mem hs
  simp only [nestedKeys, List.mem_filterMap]
  constructor
  · rintro ⟨x, hx, hcond⟩
    split at hcond
    · cases hcond
    next hserial =>
    have hw := within_of_mem_walk hx
    obtain ⟨hshares, hr⟩ := hholds.mp ⟨s.2, List.mem_singleton_self _, x, hw, hcond⟩
    refine ⟨hshares, Graph.transGen_of_ne hr ?_⟩
    rintro rfl
    exact hserial (congrArg serial (hq.unique (hq.closed s.2 hmem x hw _ hcond) hs))
  · rintro ⟨hshares, hpath⟩
    obtain ⟨b, hb, x, hx, hkey⟩ := hholds.mpr ⟨hshares, hpath.to_reflTransGen⟩
    rw [List.mem_singleton.mp hb] at hx
    refine ⟨x, (mem_walk hco).mpr hx, ?_⟩
    rw [if_neg, hkey]
    intro hserial
    obtain rfl := hco x s.2 hx (.refl s.2) hserial
    obtain ⟨n, items, hform⟩ := hq.form s hs
    rw [hform] at hkey
    simp only [sharedKey?] at hkey
    split at hkey
    · cases hkey
    · exact ha.ne_of_transGen hpath (Option.some.inj hkey)

end Graph

end WorkflowCompiler.Resolution
