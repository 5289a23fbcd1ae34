import Mathlib
import WorkflowCompiler.Proofs.Resolution.Guards
import WorkflowCompiler.Proofs.Resolution.Nested

/-! # What is run without a guard

Without cycles, the blocks of a chain run without a guard exactly what the graph says: the shared
sequences that joining drops are the overtaken ones. So a step that some path leads to without a
guard is run without one, unless every such path meets an overtaken merge point.
-/
namespace WorkflowCompiler.Resolution
open Block Relation

/-- The blocks of chains from some nodes end with the shared sequences with which the chains end, and
run what is run before these. -/
structure Shows (g : Graph) (starts : List Text) (items : List Block) : Prop where
  ends : ∀ m, (∃ b ∈ items, b.sharedKey? = some m) ↔ g.Ends starts m
  direct : ∀ x, (∃ b ∈ items, b.sharedKey? = none ∧ b.Occurs [] x) ↔ g.Direct starts x

/-- What a chain shows, and at a merge point all that it runs without a guard. -/
def ShowsChain (g : Graph) (id : Text) (items : List Block) : Prop :=
  Shows g [id] items ∧ (id ∈ g.merges → ∀ x, OccursIn items [] x ↔ g.Onward id x)

/-- The shared sequences of a table hold those of the merge points to which theirs lead. -/
def Nests (g : Graph) (table : List (Text × Block)) : Prop :=
  ∀ s ∈ table, ∀ m, m ∈ nestedKeys s.2 ↔
    g.Shares m ∧ TransGen (Graph.Leads g.edges) s.1 m

section Levels
variable {g : Graph} {q : Progress}

/-- With the sequences of the table, blocks that show what some chains show run all of it. -/
theorem Shows.occursIn_iff {starts : List Text} {items : List Block} (h : Shows g starts items)
    (hin : SharedIn q items) (htable : ∀ s ∈ q.shared, ShowsChain g s.1 [s.2]) {x : Text} :
    OccursIn items [] x ↔ g.Unguarded starts x := by
  have hshared : ∀ b ∈ items, ∀ m, b.sharedKey? = some m → (b.Occurs [] x ↔ g.Onward m x) := by
    intro b hb m hm
    have hmerge := ((h.ends m).mp ⟨b, hb, hm⟩).2.1.1
    simpa using (htable _ (hin b hb b (.refl b) m hm)).2 hmerge x
  rw [Graph.unguarded_iff]
  constructor
  · rintro ⟨b, hb, ho⟩
    cases hkey : b.sharedKey? with
    | none => exact Or.inl ((h.direct x).mp ⟨b, hb, hkey, ho⟩)
    | some m => exact Or.inr ⟨m, (h.ends m).mp ⟨b, hb, hkey⟩, (hshared b hb m hkey).mp ho⟩
  · rintro (hdirect | ⟨m, hends, honward⟩)
    · obtain ⟨b, hb, _, ho⟩ := (h.direct x).mpr hdirect
      exact ⟨b, hb, ho⟩
    · obtain ⟨b, hb, hkey⟩ := (h.ends m).mpr hends
      exact ⟨b, hb, (hshared b hb m hkey).mpr honward⟩

theorem mem_droppedKeys (hq : TableSound q) {blocks : List Block} (hin : SharedIn q blocks)
    {m : Text} : m ∈ droppedKeys blocks ↔
      ∃ b ∈ blocks, ∃ key, b.sharedKey? = some key ∧ m ∈ nestedKeys b := by
  have hheld := held_heldBack blocks
  constructor
  · intro hm
    obtain ⟨s, hs, hm⟩ := List.mem_flatMap.mp hm
    exact ⟨s.2, (hheld.shared s hs).1, s.1, (hheld.shared s hs).2, hm⟩
  · rintro ⟨b, hb, key, hkey, hm⟩
    obtain ⟨⟨_, b'⟩, hmem, rfl⟩ := List.mem_map.mp (hheld.complete b hb key hkey)
    obtain ⟨hb', hkey'⟩ := hheld.shared _ hmem
    obtain rfl := hq.unique (hin b hb b (.refl b) _ hkey) (hin b' hb' b' (.refl b') _ hkey')
    exact List.mem_flatMap.mpr ⟨_, hmem, hm⟩

/-- Joining chains shows what they show together. -/
theorem shows_splice (ha : g.Acyclic) (hq : TableSound q) (hnests : Nests g q.shared)
    {calls : List Call} (h : ∀ c ∈ calls, Shows g [c.start] c.result ∧ SharedIn q c.result) :
    Shows g (calls.map (·.start)) (splice (calls.map (·.result))) := by
  have hmem : ∀ {b}, b ∈ (calls.map (·.result)).flatten ↔ ∃ c ∈ calls, b ∈ c.result := by
    simp [List.mem_flatten]
  have hin : SharedIn q (calls.map (·.result)).flatten := by
    intro b hb
    obtain ⟨c, hc, hb⟩ := hmem.mp hb
    exact (h c hc).2 b hb
  have hends : ∀ m, (∃ b ∈ (calls.map (·.result)).flatten, b.sharedKey? = some m) ↔
      ∃ s ∈ calls.map (·.start), g.Ends [s] m := by
    intro m
    constructor
    · rintro ⟨b, hb, hkey⟩
      obtain ⟨c, hc, hb⟩ := hmem.mp hb
      exact ⟨c.start, List.mem_map_of_mem hc, ((h c hc).1.ends m).mp ⟨b, hb, hkey⟩⟩
    · rintro ⟨s, hs, hm⟩
      obtain ⟨c, hc, rfl⟩ := List.mem_map.mp hs
      obtain ⟨b, hb, hkey⟩ := ((h c hc).1.ends m).mpr hm
      exact ⟨b, hmem.mpr ⟨c, hc, hb⟩, hkey⟩
  constructor
  · intro m
    rw [exists_shared_splice, mem_droppedKeys hq hin, hends, ha.ends_iff]
    refine and_congr_right fun ⟨_, _, hm⟩ => not_congr ?_
    constructor
    · rintro ⟨b, hb, key, hkey, hnested⟩
      have hpath := (hnests _ (hin b hb b (.refl b) key hkey) m).mp hnested
      exact ⟨key, (hends key).mp ⟨b, hb, hkey⟩, hpath.2⟩
    · rintro ⟨m', hm', hpath⟩
      obtain ⟨b, hb, hkey⟩ := (hends m').mpr hm'
      exact ⟨b, hb, m', hkey, (hnests _ (hin b hb b (.refl b) m' hkey) m).mpr ⟨hm.2.1, hpath⟩⟩
  · intro x
    rw [Graph.direct_iff]
    constructor
    · rintro ⟨b, hb, hnone, ho⟩
      obtain ⟨c, hc, hb⟩ := hmem.mp (mem_flatten_of_mem_splice hb)
      exact ⟨c.start, List.mem_map_of_mem hc, ((h c hc).1.direct x).mp ⟨b, hb, hnone, ho⟩⟩
    · rintro ⟨s, hs, hx⟩
      obtain ⟨c, hc, rfl⟩ := List.mem_map.mp hs
      obtain ⟨b, hb, hnone, ho⟩ := ((h c hc).1.direct x).mpr hx
      exact ⟨b, mem_splice.mpr (Or.inl ⟨hmem.mpr ⟨c, hc, hb⟩, hnone⟩), hnone, ho⟩

theorem Laid.Joins.shows {l : Laid} (hl : l.Joins) (ha : g.Acyclic) (hq : TableSound q)
    (hnests : Nests g q.shared)
    (h : ∀ c ∈ l.calls, Shows g [c.start] c.result ∧ SharedIn q c.result) :
    Shows g l.strand.starts l.content := by
  rw [← hl.starts]
  rcases hl.content with hcontent | hcontent
  · rw [hcontent]
    exact shows_splice ha hq hnests h
  · obtain ⟨c, hcalls, hresult⟩ := List.map_eq_singleton_iff.mp hcontent
    rw [hcalls, ← hresult]
    exact (h c (by simp [hcalls])).1

end Levels

section Entry
variable {g : Graph} {e : Entry} {c : Call}

/-- The strands of an entry: those inside its node, and the one with which its chain goes on. -/
theorem Entry.Of.split (he : e.Of (.ofGraph g) c) : ∃ inner rest, e.laid = inner ++ [rest] ∧
    c.result = e.heads ++ rest.content ∧
    inner.map Laid.strand = limbs (.ofGraph g) c.stop e.node ∧
    rest.strand.starts = g.following c.start ∧
    ∀ x, OccursIn e.heads [] x ↔
      x = c.start ∨ ∃ l ∈ inner, l.strand.guards = [] ∧ OccursIn l.content [] x := by
  obtain ⟨inner, rest, hlaid, hitems, hresume⟩ := he.assembled.resume
  have hstrands := he.strands
  rw [hlaid, List.map_append, Resolution.strands] at hstrands
  obtain ⟨hinner, hrest⟩ := List.append_inj' hstrands rfl
  refine ⟨inner, rest, hlaid, hitems, hinner, ?_, ?_⟩
  · have hnode : g.node? c.start = some e.node := he.node
    rw [following_eq hnode, (List.cons.inj hrest).1]
    rfl
  · intro x
    -- with nothing to go on with, the blocks of the node are the whole chain
    have hempty := @Assembled.occursIn_iff [] x _ _ _ _
      (hresume ⟨⟨[], none, [], []⟩, [], [], []⟩ ⟨rfl, rfl⟩)
    simp only [List.append_nil, true_and, List.mem_append, List.mem_singleton, or_and_right,
      exists_or, exists_eq_left, occursIn_nil, and_false, exists_false, or_false,
      List.nil_eq_append_iff, he.node_id] at hempty
    rw [hempty]
    refine or_congr eq_comm (exists_congr fun l => and_congr_right fun _ => ?_)
    constructor
    · rintro ⟨_, ⟨hguards, rfl⟩, ho⟩
      exact ⟨hguards, ho⟩
    · rintro ⟨hguards, ho⟩
      exact ⟨[], ⟨hguards, rfl⟩, ho⟩

variable {q : Progress} (he : e.Of (.ofGraph g) c) (ha : g.Acyclic) (hq : TableSound q)
  (hnests : Nests g q.shared) (htable : ∀ s ∈ q.shared, ShowsChain g s.1 [s.2])
  (hcalls : ∀ c' ∈ callsOf e.events, ShowsChain g c'.start c'.result ∧ SharedIn q c'.result)
include he ha hq hnests hcalls

theorem Entry.Of.shows_strand {l : Laid} (hl : l ∈ e.laid) :
    Shows g l.strand.starts l.content ∧ SharedIn q l.content := by
  have hcall : ∀ c' ∈ l.calls, Shows g [c'.start] c'.result ∧ SharedIn q c'.result := by
    intro c' hc'
    obtain ⟨hshows, hin⟩ := hcalls c' (he.calls ▸ List.mem_flatMap.mpr ⟨l, hl, hc'⟩)
    exact ⟨hshows.1, hin⟩
  refine ⟨(he.joins l hl).shows ha hq hnests hcall, ?_⟩
  intro b hb
  obtain ⟨c', hc', hb⟩ := (he.joins l hl).mem_result hb
  exact (hcall c' hc').2 b hb

include htable

/-- An entry runs without a guard what the graph says, from its strands on. -/
theorem Entry.Of.shows : (∀ x, OccursIn c.result [] x ↔ g.Onward c.start x) ∧
    (c.start ∉ g.merges → Shows g [c.start] c.result) := by
  obtain ⟨inner, rest, hlaid, hitems, hinner, hrest, hheads⟩ := he.split
  have hnode : g.node? c.start = some e.node := he.node
  have hstrand := fun l hl => he.shows_strand ha hq hnests hcalls (l := l) hl
  have hrun : ∀ l ∈ e.laid, ∀ x, OccursIn l.content [] x ↔ g.Unguarded l.strand.starts x :=
    fun l hl x => (hstrand l hl).1.occursIn_iff (hstrand l hl).2 htable
  have hlast : rest ∈ e.laid := by simp [hlaid]
  have hinside : ∀ x, OccursIn e.heads [] x ↔ g.Inside c.start x := by
    intro x
    rw [hheads]
    refine or_congr Iff.rfl ?_
    simp only [mem_openLimbs hnode c.stop, ← hinner]
    constructor
    · rintro ⟨l, hl, hguards, ho⟩
      have hmem : l ∈ e.laid := hlaid ▸ List.mem_append_left _ hl
      exact ⟨_, ⟨l.strand, List.mem_map_of_mem hl, hguards, rfl⟩, (hrun l hmem x).mp ho⟩
    · rintro ⟨_, ⟨s, hs, hguards, rfl⟩, ho⟩
      obtain ⟨l, hl, rfl⟩ := List.mem_map.mp hs
      have hmem : l ∈ e.laid := hlaid ▸ List.mem_append_left _ hl
      exact ⟨l, hl, hguards, (hrun l hmem x).mpr ho⟩
  have hunshared : ∀ b ∈ e.heads, b.sharedKey? = none :=
    fun b hb => he.assembled.unshared (mem_ownBlocks.mpr (Or.inl hb))
  constructor
  · intro x
    rw [hitems, occursIn_append, hinside, hrun rest hlast, hrest, Graph.Onward]
  · intro hid
    rw [hitems]
    have hshows := (hstrand rest hlast).1
    rw [hrest] at hshows
    constructor
    · intro m
      rw [Graph.ends_step hid, ← hshows.ends m]
      constructor
      · rintro ⟨b, hb, hkey⟩
        rcases List.mem_append.mp hb with hb | hb
        · rw [hunshared b hb] at hkey
          cases hkey
        · exact ⟨b, hb, hkey⟩
      · rintro ⟨b, hb, hkey⟩
        exact ⟨b, List.mem_append_right _ hb, hkey⟩
    · intro x
      rw [Graph.direct_step hid, ← hinside x, ← hshows.direct x]
      constructor
      · rintro ⟨b, hb, hnone, ho⟩
        rcases List.mem_append.mp hb with hb | hb
        · exact Or.inl ⟨b, hb, ho⟩
        · exact Or.inr ⟨b, hb, hnone, ho⟩
      · rintro (⟨b, hb, ho⟩ | ⟨b, hb, hnone, ho⟩)
        · exact ⟨b, List.mem_append_left _ hb, hunshared b hb, ho⟩
        · exact ⟨b, List.mem_append_right _ hb, hnone, ho⟩

end Entry

theorem showsChain_share {g : Graph} {n : Nat} {id : Text} {items : List Block}
    (hid : id ∈ g.merges) (h : ∀ x, OccursIn items [] x ↔ g.Onward id x) :
    ShowsChain g id [.sequence n items none (some id)] := by
  have hkey : ∀ m, (Block.sequence n items none (some id)).sharedKey? = some m ↔
      m = id ∧ id ≠ [] := by
    intro m
    simp only [sharedKey?]
    split <;> grind
  have hnone : (Block.sequence n items none (some id)).sharedKey? = none ↔ id = [] := by
    simp [sharedKey?]
  refine ⟨⟨?_, ?_⟩, ?_⟩
  · intro m
    simp [Graph.ends_merge hid, hkey]
  · intro x
    simp [Graph.direct_merge hid, hnone, h]
  · intro _ x
    simpa using h x

/-- Every chain shows what the graph says, as long as the sequences of the table nest as their merge
points do. -/
theorem Logs.showsChain {g : Graph} (ha : g.Acyclic) {table : List (Text × Block)}
    (hnests : Nests g table) {active : List Text} {c : Call} {p q : Progress} {made : List Block}
    (h : Logs (.ofGraph g) active c p made q) (hc : Context g active c) :
    Keeps table (ShowsChain g) c p q := by
  refine Logs.keeps ha (E := fun id items => (∀ x, OccursIn items [] x ↔ g.Onward id x) ∧
    (id ∉ g.merges → Shows g [id] items)) ?_ ?_ ?_ h hc
  · intro n id items hid hE
    exact showsChain_share hid hE.1
  · intro id items hid hE
    exact ⟨hE.2 hid, fun hmerge => absurd hmerge hid⟩
  · intro e c q he hq hin htable hcalls
    exact he.shows ha hq (fun s hs => hnests s (hin s hs)) htable hcalls

/-- A workflow without cycles runs without a guard what the chains from its entries do. -/
theorem RootLog.occurs_iff {g : Graph} (hg : g.Sound) (ha : g.Acyclic) {root : Block} {l : Laid}
    {made : List Block} {q : Progress} (h : RootLog g root l made q) {id : Text} :
    root.Occurs [] id ↔ g.Unguarded g.entryIds id := by
  have hnests : Nests g q.shared := fun s hs m => h.mem_nestedKeys hg ha hs
  obtain ⟨hq, _, hin⟩ := (h.logged.mono fun hc => hc.tabled).tabled tableSound_start
  obtain ⟨htable, hcalls⟩ := h.keeps (fun hlog hc => hlog.showsChain ha hnests hc) fun s hs => hs
  rw [callsOf_calls] at hin
  have hshows := h.joins.shows ha hq hnests fun c hc => ⟨(hcalls c hc).1, hin c hc⟩
  have hcontent : SharedIn q l.content := by
    intro b hb
    obtain ⟨c, hc, hb⟩ := h.joins.mem_result hb
    exact hin c hc b hb
  rw [h.strand] at hshows
  rw [h.root, occurs_plain]
  exact hshows.occursIn_iff hcontent htable

theorem leadsThrough_nil_iff {g : Graph} {a b : Text} :
    g.LeadsThrough a [] b ↔ ReflTransGen g.Passes a b := by
  constructor
  · rintro ⟨path, hpath, hguards⟩
    induction path generalizing a with
    | nil => exact hpath ▸ .refl
    | cons e rest ih =>
      obtain ⟨he, rfl, hrest⟩ := hpath
      rw [List.filterMap_eq_nil_iff] at hguards
      refine .head ⟨e, he, rfl, rfl, hguards e List.mem_cons_self⟩ (ih hrest ?_)
      exact List.filterMap_eq_nil_iff.mpr fun x hx => hguards x (List.mem_cons_of_mem _ hx)
  · intro h
    induction h using ReflTransGen.head_induction_on with
    | refl => exact .refl b
    | head hpass _ ih =>
      obtain ⟨e, he, rfl, rfl, hguard⟩ := hpass
      simpa [hguard] using ih.head he

/-- Some path without guards leads from an entry to a node. -/
def LedOpenly (g : Graph) (id : Text) : Prop := ∃ entry ∈ g.entryIds, g.LeadsThrough entry [] id

/-- In a workflow without cycles, the steps that stand in no guarded arm are those that the chains
from the entries run without a guard, all but for overtaken merge points and what follows them.
Where a merge point that can be reached without a guard from the entries is reached so from every
other such merge point that leads to it, these are all the steps that can be reached without a
guard. -/
theorem occurs_unguarded_iff (v : Validated) (ha : v.graph.Acyclic) {root : Block}
    (h : (resolve v).block = .ok root) :
    (∀ id, root.Occurs [] id ↔ v.graph.Unguarded v.graph.entryIds id) ∧
    ((∀ m m', v.graph.Shares m → v.graph.Shares m' → m' ≠ m → LedOpenly v.graph m →
        LedOpenly v.graph m' → Graph.Reaches v.graph.edges m' m → v.graph.LeadsThrough m' [] m) →
      ∀ id, root.Occurs [] id ↔ LedOpenly v.graph id) := by
  obtain ⟨l, made, q, hlog⟩ := exists_rootLog h
  have hg := v.sound
  have hoccurs : ∀ id, root.Occurs [] id ↔ v.graph.Unguarded v.graph.entryIds id :=
    fun _ => hlog.occurs_iff hg ha
  refine ⟨hoccurs, fun hmeet id => ?_⟩
  have hopen : ∀ {a b}, LedOpenly v.graph a → v.graph.Passes a b → LedOpenly v.graph b := by
    rintro a b ⟨entry, hentry, hpath⟩ hpass
    refine ⟨entry, hentry, leadsThrough_nil_iff.mpr ?_⟩
    exact (leadsThrough_nil_iff.mp hpath).tail hpass
  have hentry : ∀ s ∈ v.graph.entryIds, LedOpenly v.graph s := fun s hs => ⟨s, hs, .refl s⟩
  have hmeet' : ∀ m m', v.graph.Shares m → v.graph.Shares m' → m' ≠ m → LedOpenly v.graph m →
      LedOpenly v.graph m' → Graph.Reaches v.graph.edges m' m →
      ReflTransGen v.graph.Passes m' m := fun m m' hm hm' hne ho ho' hr =>
    leadsThrough_nil_iff.mp (hmeet m m' hm hm' hne ho ho' hr)
  have hchain : ∀ x, v.graph.InChain v.graph.entryIds x → LedOpenly v.graph x := by
    intro x hx
    obtain ⟨s, hs, hpath⟩ := hx.passes
    exact ⟨s, hs, leadsThrough_nil_iff.mpr hpath⟩
  have hruns : v.graph.RunsAll v.graph.entryIds :=
    Graph.runsAll_of_levels hg ha hopen hmeet' hentry fun x hx inner hinner =>
      Graph.runsAll_levels hg ha hopen hmeet' (hchain x hx) hinner
  rw [hoccurs]
  constructor
  · intro hrun
    obtain ⟨s, hs, hpath⟩ := hrun.passes
    exact ⟨s, hs, leadsThrough_nil_iff.mpr hpath⟩
  · rintro ⟨s, hs, hpath⟩
    exact hruns s hs id (leadsThrough_nil_iff.mp hpath)

/-- A step that an entry leads to directly, and a conditional merge point as well. -/
def overtaking : Graph where
  nodes := [⟨"i", .input, [], none⟩, ⟨"x", .debug, [], none⟩, ⟨"y", .debug, [], none⟩,
    ⟨"c", .conditional, [("condition", .str "k")], none⟩, ⟨"m", .debug, [], none⟩,
    ⟨"n", .debug, [], none⟩]
  edges := [⟨"e1", "i", "x", none, none⟩, ⟨"e2", "i", "y", none, none⟩,
    ⟨"e3", "i", "m", none, none⟩, ⟨"e4", "x", "c", none, none⟩, ⟨"e5", "y", "c", none, none⟩,
    ⟨"e6", "c", "m", some "true", none⟩, ⟨"e7", "c", "n", some "false", none⟩]

theorem validate_overtaking : validate overtaking = .ok [] :=
  Validation.validate_eq_nil rfl rfl rfl (by cbv) (by cbv) rfl

theorem acyclic_overtaking : overtaking.Acyclic :=
  Graph.acyclic_of_rank ((["i", "x", "y", "c", "m", "n"] : List Text).idxOf ·) (by decide)

/-- The shared sequence of the conditional, which holds the other one in an arm. -/
def overtakingEnd : Block :=
  .sequence 8 [.branch 7 ⟨"c", .conditional, [("condition", .str "k")], none⟩ (.str "k")
    (.sequence 4 [.leaf 3 ⟨"m", .debug, [], none⟩] none (some "m"))
    (.sequence 6 [.leaf 5 ⟨"n", .debug, [], none⟩] none none) none] none (some "c")

def overtakingBlock : Block :=
  .sequence 10 [.leaf 1 ⟨"i", .input, [], none⟩, .leaf 2 ⟨"x", .debug, [], none⟩,
    .leaf 9 ⟨"y", .debug, [], none⟩, overtakingEnd] none none

/-- The step is led to without a guard, but it is run in the arm of the conditional only. -/
theorem not_unguarded_overtaking :
    (resolve ⟨overtaking, [], validate_overtaking, rfl⟩).block = .ok overtakingBlock ∧
    LedOpenly overtaking "m" ∧ ¬ overtakingBlock.Occurs [] "m" ∧
    ¬ overtaking.Unguarded overtaking.entryIds "m" := by
  have hresolve : (resolve ⟨overtaking, [], validate_overtaking, rfl⟩).block =
      .ok overtakingBlock := by
    cbv
  have hentries : overtaking.entryIds = ["i"] := by cbv
  have hopen : LedOpenly overtaking "m" := by
    refine ⟨"i", by simp [hentries], [⟨"e3", "i", "m", none, none⟩], ?_, by decide⟩
    simp [Graph.IsPath, overtaking]
  have hoccurs : ¬ overtakingBlock.Occurs [] "m" := by
    have hne : ∀ id ∈ (["i", "x", "y", "c"] : List Text), id ≠ "m" := by decide
    simpa [overtakingBlock, overtakingEnd, occurs_branch] using hne
  exact ⟨hresolve, hopen, hoccurs,
    fun hrun => hoccurs (((occurs_unguarded_iff _ acyclic_overtaking hresolve).1 "m").mpr hrun)⟩

end WorkflowCompiler.Resolution
