import Mathlib
import WorkflowCompiler.Proofs.Block.Subject
import WorkflowCompiler.Proofs.Resolution.Nested

/-! # Join-point normal form

Where chains come together, what belongs to one of them only stands in front of the shared sequences,
and no shared sequence is listed twice or beside one that holds it. Every joining of sibling chains
brings this about, and going on with a chain keeps it, so it holds of every sequence of a workflow.
The shared sequence of a merge point is one and the same everywhere, and begins with the block of
the merge point.
-/
namespace WorkflowCompiler.Resolution
open Block

/-- Blocks that are not shared, and shared sequences to stand behind them: these have different keys,
and none of them stands inside another one. -/
structure Parted (plain held : List Block) : Prop where
  unshared : ∀ b ∈ plain, b.sharedKey? = none
  shared : ∀ b ∈ held, b.sharedKey?.isSome
  keys : (held.map sharedKey?).Nodup
  apart : ∀ a ∈ held, ∀ b ∈ held, a.Within b → a = b

/-- Blocks one after the other of which only the last ones are shared. -/
def JoinForm (items : List Block) : Prop := ∃ plain held, items = plain ++ held ∧ Parted plain held

theorem joinForm_nil : JoinForm [] := ⟨[], [], rfl, by simp, by simp, by simp, by simp⟩

theorem joinForm_singleton (b : Block) : JoinForm [b] := by
  cases hkey : b.sharedKey? with
  | none => exact ⟨[b], [], rfl, by simpa using hkey, by simp, by simp, by simp⟩
  | some key => exact ⟨[], [b], rfl, by simp, by simp [hkey], by simp, by simp⟩

theorem JoinForm.append {heads items : List Block} (hheads : ∀ b ∈ heads, b.sharedKey? = none)
    (h : JoinForm items) : JoinForm (heads ++ items) := by
  obtain ⟨plain, held, rfl, hp⟩ := h
  refine ⟨heads ++ plain, held, (List.append_assoc ..).symm, ?_, hp.shared, hp.keys, hp.apart⟩
  intro b hb
  rcases List.mem_append.mp hb with hb | hb
  · exact hheads b hb
  · exact hp.unshared b hb

theorem mem_droppedKeys_of_within {blocks : List Block} {a b : Text × Block}
    (hb : b ∈ heldBack blocks) (hco : Coherent (·.Within b.2)) (ha : a.2.sharedKey? = some a.1)
    (hw : a.2.Within b.2) (hne : a.2 ≠ b.2) : a.1 ∈ droppedKeys blocks := by
  refine List.mem_flatMap.mpr ⟨b, hb, List.mem_filterMap.mpr ⟨a.2, (mem_walk hco).mpr hw, ?_⟩⟩
  rw [if_neg fun hserial => hne (hco a.2 b.2 hw (.refl b.2) hserial), ha]

theorem joinForm_splice {chains : List (List Block)}
    (hco : ∀ b ∈ chains.flatten, b.sharedKey?.isSome → Coherent (·.Within b)) :
    JoinForm (splice chains) := by
  have hheld := held_heldBack chains.flatten
  let kept := (heldBack chains.flatten).filter fun h => !(droppedKeys chains.flatten).contains h.1
  have hsub : ∀ h ∈ kept, h ∈ heldBack chains.flatten ∧ h.1 ∉ droppedKeys chains.flatten := by
    intro h hh
    simpa [kept] using hh
  have hkeys : (kept.map (·.2)).map sharedKey? = (kept.map (·.1)).map some := by
    simp only [List.map_map]
    exact List.map_congr_left fun h hh => (hheld.shared h (hsub h hh).1).2
  refine ⟨_, kept.map (·.2), rfl, by simp, ?_, ?_, ?_⟩
  · intro b hb
    obtain ⟨h, hh, rfl⟩ := List.mem_map.mp hb
    rw [(hheld.shared h (hsub h hh).1).2]
    rfl
  · rw [hkeys]
    exact (hheld.nodup.sublist (List.filter_sublist.map _)).map (Option.some_injective _)
  · rintro _ hx _ hy hw
    obtain ⟨a, ha, rfl⟩ := List.mem_map.mp hx
    obtain ⟨b, hb, rfl⟩ := List.mem_map.mp hy
    obtain ⟨hbmem, hbkey⟩ := hheld.shared b (hsub b hb).1
    by_contra hne
    exact (hsub a ha).2 (mem_droppedKeys_of_within (hsub b hb).1
      (hco b.2 hbmem (by rw [hbkey]; rfl)) (hheld.shared a (hsub a ha).1).2 hw hne)

/-- Blocks that begin with the block of the node with an id. -/
def Headed (g : Graph) (id : Text) (items : List Block) : Prop :=
  ∃ node first rest, g.node? id = some node ∧ items = first :: rest ∧
    first.subject? = some (.node node)

/-- A sequence is in normal form: its items are, and one with a key is that of a table and begins with
the block of the node to which the key belongs. -/
structure NormalSequence (g : Graph) (table : List (Text × Block)) (items : List Block)
    (key : Option Text) (b : Block) : Prop where
  joined : JoinForm items
  tabled : ∀ id, key = some id → (id, b) ∈ table
  headed : ∀ id, key = some id → Headed g id items

/-- All sequences inside a block are in normal form. -/
def Normal (g : Graph) (table : List (Text × Block)) (b : Block) : Prop :=
  ∀ n items container key, (Block.sequence n items container key).Within b →
    NormalSequence g table items key (.sequence n items container key)

/-- Blocks one after the other are in normal form, and so is all that stands inside them. -/
def NormalItems (g : Graph) (table : List (Text × Block)) (items : List Block) : Prop :=
  JoinForm items ∧ ∀ b ∈ items, Normal g table b

section Assembled
variable {node : Node} {heads items : List Block} {laid : List Laid}

theorem Assembled.joinForm (h : Assembled node heads laid items)
    (hl : ∀ l ∈ laid, JoinForm l.content) : JoinForm items := by
  obtain ⟨inner, rest, slots, hs⟩ := h.shape
  rw [hs.items]
  exact (hl rest (by simp [hs.laid])).append hs.unshared

/-- A sequence that is made for a node lists the content of a strand, and has no key. -/
theorem Assembled.sequence_own (h : Assembled node heads laid items) {n : Nat} {xs : List Block}
    {container : Option Node} {key : Option Text}
    (hb : .sequence n xs container key ∈ ownBlocks heads laid) :
    key = none ∧ ∃ l ∈ laid, xs = l.content := by
  rcases mem_ownBlocks.mp hb with hhead | ⟨l, hl, hmade⟩
  · cases h with
    | sequential _ _ _ =>
      cases List.mem_singleton.mp hhead
      exact ⟨rfl, _, List.mem_cons_self, rfl⟩
    | step _ _ | parallel _ _ _ _ _ | conditional _ _ _ _ _ _ _ | outcome _ _ _ _ _ _
    | switch _ _ _ _ | loop _ _ _ _ _ _ => simp at hhead
  · obtain ⟨m, hm⟩ := h.made_plain hl hmade
    cases hm
    exact ⟨rfl, l, hl, rfl⟩

theorem Assembled.exists_first (h : Assembled node heads laid items) :
    ∃ first rest, items = first :: rest ∧ first.subject? = some (.node node) := by
  cases h with
  | step _ _ | sequential _ _ _ | parallel _ _ _ _ _ | conditional _ _ _ _ _ _ _
  | outcome _ _ _ _ _ _ | switch _ _ _ _ | loop _ _ _ _ _ _ => exact ⟨_, _, rfl, rfl⟩

end Assembled

section Table
variable {g : Graph} {table : List (Text × Block)}

theorem Assembled.normal {node : Node} {heads items : List Block} {laid : List Laid}
    (h : Assembled node heads laid items) (hl : ∀ l ∈ laid, NormalItems g table l.content) :
    NormalItems g table items := by
  refine ⟨h.joinForm fun l hmem => (hl l hmem).1, ?_⟩
  intro b hb n xs container key hw
  rcases h.within_origin hb hw with hown | ⟨l, hmem, y, hy, hw⟩
  · obtain ⟨rfl, l, hmem, rfl⟩ := h.sequence_own hown
    exact ⟨(hl l hmem).1, by simp, by simp⟩
  · exact (hl l hmem).2 y hy n xs container key hw

variable (hco : ∀ s ∈ table, Coherent (·.Within s.2))
include hco

theorem Laid.Joins.normal {l : Laid} (h : l.Joins)
    (hc : ∀ c ∈ l.calls, NormalItems g table c.result)
    (hin : ∀ c ∈ l.calls, ∀ b ∈ c.result, ∀ key, b.sharedKey? = some key → (key, b) ∈ table) :
    NormalItems g table l.content := by
  refine ⟨?_, ?_⟩
  · rcases h.content with hcontent | hcontent
    · rw [hcontent]
      refine joinForm_splice fun b hb hs => ?_
      obtain ⟨_, hresult, hb⟩ := List.mem_flatten.mp hb
      obtain ⟨c, hmem, rfl⟩ := List.mem_map.mp hresult
      obtain ⟨key, hkey⟩ := Option.isSome_iff_exists.mp hs
      exact hco _ (hin c hmem b hb key hkey)
    · have hmem : l.content ∈ l.calls.map (·.result) := by simp [hcontent]
      obtain ⟨c, hmem, hresult⟩ := List.mem_map.mp hmem
      exact hresult ▸ (hc c hmem).1
  · intro b hb
    obtain ⟨c, hmem, hb⟩ := h.mem_result hb
    exact (hc c hmem).2 b hb

/-- A chain gives blocks in normal form. Normal form speaks of the last table, into which all that
the chain finds or makes goes. -/
theorem Logs.normal {active : List Text} {c : Call} {p q : Progress} {made : List Block}
    (h : Logs (.ofGraph g) active c p made q) :
    Keeps table (fun _ => NormalItems g table) c p q := by
  refine Logs.induction (motive := fun _ c p _ q =>
    Keeps table (fun _ => NormalItems g table) c p q) ?_ h
  intro active c p made q hs hp hin hP
  have hentry : ∀ {e : Entry} {owner items p made q},
      e.Of (.ofGraph g) ⟨owner, c.stop, c.start, items⟩ →
      Logged (fun c' p made q => Logs (.ofGraph g) (c.start :: active) c' p made q ∧
        Keeps table (fun _ => NormalItems g table) c' p q) p e.events made q →
      TableSound p → (∀ s ∈ q.shared, s ∈ table) →
      (∀ s ∈ p.shared, NormalItems g table [s.2]) →
      (∀ s ∈ q.shared, NormalItems g table [s.2]) ∧ NormalItems g table items := by
    intro e owner items p made q he hl hp hin hP
    obtain ⟨_, _, hshared⟩ := (hl.mono fun hc => hc.1.tabled).tabled hp
    obtain ⟨hP', hcalls⟩ := hl.keeps hp hin hP
    refine ⟨hP', he.assembled.normal fun l hmem => ?_⟩
    have hcall : ∀ c' ∈ l.calls, c' ∈ callsOf e.events := fun c' hc' =>
      he.calls ▸ List.mem_flatMap.mpr ⟨l, hmem, hc'⟩
    exact (he.joins l hmem).normal hco (fun c' hc' => hcalls c' (hcall c' hc'))
      fun c' hc' b hb key hkey => hin _ (hshared c' (hcall c' hc') b hb b (.refl b) key hkey)
  cases hs with
  | stopped _ => exact ⟨hP, joinForm_nil, by simp⟩
  | known _ _ _ hlookup => exact ⟨hP, hP _ (mem_of_lookup hlookup)⟩
  | @fresh owner stop id items _ q made e _ _ _ _ _ he hl =>
    obtain ⟨hP', hitems⟩ := hentry he hl ⟨hp.nodup, hp.form, hp.closed⟩
      (fun s hs => hin s (List.mem_cons_of_mem _ hs)) hP
    have hnew : NormalItems g table [.sequence q.next items none (some id)] := by
      refine ⟨joinForm_singleton _, List.forall_mem_singleton.mpr ?_⟩
      intro n xs container key hw
      rcases within_iff.mp hw with heq | ⟨b, hb, hw⟩
      · cases heq
        obtain ⟨first, rest, hfirst, hsubject⟩ := he.assembled.exists_first
        refine ⟨hitems.1, ?_, ?_⟩
        · rintro _ ⟨⟩
          exact hin _ List.mem_cons_self
        · rintro _ ⟨⟩
          exact ⟨e.node, first, rest, he.node, hfirst, hsubject⟩
      · exact hitems.2 b hb n xs container key hw
    refine ⟨?_, hnew⟩
    intro s hs
    rcases List.mem_cons.mp hs with rfl | hs
    · exact hnew
    · exact hP' s hs
  | entered e _ _ _ he hl => exact hentry he hl hp hin hP

end Table

section Root
variable {g : Graph} {root : Block} {l : Laid} {made : List Block} {q : Progress}

theorem RootLog.normal (h : RootLog g root l made q) : Normal g q.shared root := by
  have hco : ∀ s ∈ q.shared, Coherent (·.Within s.2) := fun s hs => h.coherent_of_shared hs
  have hcalls := (h.logged.mono fun hc => ⟨hc, hc.normal hco⟩).keeps tableSound_start
    (fun s hs => hs) (by simp)
  obtain ⟨_, _, hin⟩ := (h.logged.mono fun hc => hc.tabled).tabled tableSound_start
  rw [callsOf_calls] at hcalls hin
  have hcontent : NormalItems g q.shared l.content :=
    h.joins.normal hco hcalls.2 fun c hc b hb key hkey => hin c hc b hb b (.refl b) key hkey
  intro n items container key hw
  rw [h.root] at hw
  rcases Block.within_iff.mp hw with heq | ⟨b, hb, hw⟩
  · cases heq
    exact ⟨hcontent.1, by simp, by simp⟩
  · exact hcontent.2 b hb n items container key hw

end Root

/-- Every sequence of a workflow lists its blocks in join-point normal form. One key stands for one
sequence, wherever it stands, and this begins with the block of the node to which the key belongs.
Unless the id of a node is empty, the sequences with keys are those that are shared. -/
theorem joinForm_resolve (v : Validated) {root : Block} (h : (resolve v).block = .ok root) :
    (∀ b, b ∈ root.walk ↔ b.Within root) ∧
    (∀ n items container key, .sequence n items container key ∈ root.walk → JoinForm items) ∧
    (∀ id m xs c n ys d, .sequence m xs c (some id) ∈ root.walk →
      .sequence n ys d (some id) ∈ root.walk →
      Block.sequence m xs c (some id) = .sequence n ys d (some id)) ∧
    (∀ id n items container, .sequence n items container (some id) ∈ root.walk →
      Headed v.graph id items) ∧
    ((∀ node ∈ v.graph.nodes, node.id ≠ []) → ∀ n items container key,
      .sequence n items container key ∈ root.walk →
      (Block.sequence n items container key).sharedKey? = key) := by
  obtain ⟨l, made, q, hlog⟩ := exists_rootLog h
  obtain ⟨htable, _, _⟩ := (hlog.logged.mono fun hc => hc.tabled).tabled tableSound_start
  have hnormal : ∀ {n items container key}, .sequence n items container key ∈ root.walk →
      NormalSequence v.graph q.shared items key (.sequence n items container key) :=
    fun hb => hlog.normal _ _ _ _ (within_of_mem_walk hb)
  refine ⟨fun b => mem_walk hlog.coherent, ?_, ?_, ?_, ?_⟩
  · exact fun n items container key hb => (hnormal hb).joined
  · intro id m xs c n ys d ha hb
    exact htable.unique ((hnormal ha).tabled id rfl) ((hnormal hb).tabled id rfl)
  · exact fun id n items container hb => (hnormal hb).headed id rfl
  · intro hids n items container key hb
    cases key with
    | none => rfl
    | some id =>
      obtain ⟨node, _, _, hnode, _⟩ := (hnormal hb).headed id rfl
      obtain ⟨hmem, rfl⟩ := Graph.node?_eq_some hnode
      simp only [sharedKey?, if_neg (hids node hmem)]

/-- Three steps side by side, two merge points in a row behind them. -/
def tiered : Graph where
  nodes := [⟨"i", .input, [], none⟩, ⟨"a", .debug, [], none⟩, ⟨"b", .debug, [], none⟩,
    ⟨"c", .debug, [], none⟩, ⟨"m", .debug, [], none⟩, ⟨"k", .debug, [], none⟩]
  edges := [⟨"e1", "i", "a", none, none⟩, ⟨"e2", "i", "b", none, none⟩,
    ⟨"e3", "i", "c", none, none⟩, ⟨"e4", "a", "m", none, none⟩, ⟨"e5", "b", "m", none, none⟩,
    ⟨"e6", "c", "k", none, none⟩, ⟨"e7", "m", "k", none, none⟩]

theorem validate_tiered : validate tiered = .ok [] :=
  Validation.validate_eq_nil rfl rfl rfl (by cbv) (by cbv) rfl

/-- The shared sequence of the first merge point, with that of the second one inside. -/
def tieredEnd : Block :=
  .sequence 6 [.leaf 3 ⟨"m", .debug, [], none⟩,
    .sequence 5 [.leaf 4 ⟨"k", .debug, [], none⟩] none (some "k")] none (some "m")

/-- What the workflow lists. The third step leads to the second merge point, which is not listed
again. -/
def tieredItems : List Block :=
  [.leaf 1 ⟨"i", .input, [], none⟩, .leaf 2 ⟨"a", .debug, [], none⟩,
    .leaf 7 ⟨"b", .debug, [], none⟩, .leaf 8 ⟨"c", .debug, [], none⟩, tieredEnd]

theorem joinForm_tiered :
    (resolve ⟨tiered, [], validate_tiered, rfl⟩).block =
      .ok (.sequence 9 tieredItems none none) ∧
    JoinForm tieredItems ∧ Headed tiered "m" tieredEnd.children := by
  have hresolve : (resolve ⟨tiered, [], validate_tiered, rfl⟩).block =
      .ok (.sequence 9 tieredItems none none) := by
    cbv
  obtain ⟨hwalk, hform, _, hheaded, _⟩ := joinForm_resolve _ hresolve
  have hend : tieredEnd.Within (.sequence 9 tieredItems none none) :=
    within_of_mem_children (by simp [Block.children, tieredItems])
  exact ⟨hresolve, hform _ _ _ _ ((hwalk _).mpr (.refl _)), hheaded _ _ _ _ ((hwalk _).mpr hend)⟩

end WorkflowCompiler.Resolution
