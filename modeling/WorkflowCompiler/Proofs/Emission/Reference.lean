import Mathlib
import WorkflowCompiler.Proofs.Emission.Emits

/-! # Emission of blocks

A block that is well formed is emitted: by induction over its form, what is to be stated for it is
stated, every construct once. The members of a parallel container are taken in an order of their own.
-/
namespace WorkflowCompiler.Emission
open Block

section Chain
variable {profile : Profile} {n : Nat} {items : List Block} {key : Option Text}
  {predecessor : Option Text}

theorem reference_plain (hkey : (Block.sequence n items none key).sharedKey? = none) :
    reference profile (.sequence n items none key) predecessor = (do
      let label ← headLabel (.sequence n items none none) "branch"
      namedSequence profile label (references profile items none)) := by
  conv_lhs => unfold reference
  simp only [hkey]

theorem reference_singleton {item : Block} {k : Text}
    (hkey : (Block.sequence n [item] none key).sharedKey? = some k) :
    reference profile (.sequence n [item] none key) predecessor =
      once k (reference profile item none) := by
  conv_lhs => unfold reference
  simp only [hkey]

theorem reference_shared {k : Text} (hkey : (Block.sequence n items none key).sharedKey? = some k)
    (hitems : ∀ item, items ≠ [item]) :
    reference profile (.sequence n items none key) predecessor = once k (do
      let label ← headLabel (.sequence n items none (some k)) "chain"
      namedSequence profile label (references profile items none)) := by
  conv_lhs => unfold reference
  simp only [hkey]

theorem reference_sequential {node : Node} :
    reference profile (.sequence n items (some node) none) predecessor = (do
      let ident ← claim node.id node.name
      let refs ← references profile items none
      let parts := { children := some (.names refs) }
      stateNode profile node.kind.template node ident node.name parts predecessor
      return ident) := by
  conv_lhs => unfold reference
  rfl

end Chain

/-- The shared sequences inside a block are those of a table. -/
def Listed (table : List (Text × Block)) (b : Block) : Prop :=
  ∀ x, x.Within b → ∀ key, x.sharedKey? = some key → (key, x) ∈ table

theorem Listed.child {table : List (Text × Block)} {b c : Block} (h : Listed table b)
    (hc : c ∈ b.children) : Listed table c :=
  fun x hx => h x (hx.trans (within_of_mem_children hc))

/-- A block is emitted wherever it can be, as a whole, and a plain sequence also item by item. -/
structure Emitted (profile : Profile) (excuse : Prop) (table : List (Text × Block)) (b : Block) :
    Prop where
  whole : ∀ p predecessor, Admits excuse table p [b] →
    Does excuse (reference profile b predecessor) p fun _ q => Emits profile table p [b] q
  items : b.IsChain → b.sharedKey? = none → ∀ p, Admits excuse table p [b] →
    Does excuse (itemReferences profile b) p fun _ q => Emits profile table p [b] q

section References
variable {profile : Profile} {excuse : Prop} {table : List (Text × Block)} (ht : Keyed table)
include ht

theorem does_references {bs : List Block} (hf : ∀ b ∈ bs, b.Formed)
    (h : ∀ b ∈ bs, Emitted profile excuse table b) {p : Progress} {previous : Option Text}
    (hp : Admits excuse table p bs) :
    Does excuse (references profile bs previous) p fun _ q => Emits profile table p bs q := by
  induction bs generalizing p previous with
  | nil =>
    rw [references]
    exact does_pure .nil
  | cons b rest ih =>
    rw [references]
    refine ((h b List.mem_cons_self).whole p previous (hp.head ht)).bind fun ident q hq => ?_
    have hrest := hp.tail ht (hf b List.mem_cons_self) hq
    refine (ih (fun c hc => hf c (List.mem_cons_of_mem _ hc))
      (fun c hc => h c (List.mem_cons_of_mem _ hc)) hrest).bind fun refs r hr => ?_
    exact does_pure (hq.cons ht hr)

omit ht in
theorem does_arm {b : Block} (hc : b.IsChain) (h : Emitted profile excuse table b) {p : Progress}
    (hp : Admits excuse table p [b]) (label ident exit : Text) :
    Does excuse (arm profile b (reference profile b none) (itemReferences profile b) label ident
      exit) p fun _ q => Emits profile table p [b] q := by
  obtain ⟨n, items, key, rfl⟩ := hc.exists_eq
  rw [arm]
  split
  next hshared => exact (h.whole p none hp).bind fun _ _ hq => does_pure hq
  next hshared => exact (h.items hc (by simpa using hshared) p hp).bind fun _ _ hq => does_pure hq

theorem does_routeReferences {routes : List (Exit × Block)} (hf : ∀ r ∈ routes, r.2.Formed)
    (hc : ∀ r ∈ routes, r.2.IsChain) (h : ∀ r ∈ routes, Emitted profile excuse table r.2)
    {p : Progress} (hp : Admits excuse table p (routes.map (·.2))) (label ident : Text) :
    Does excuse (routeReferences profile routes label ident) p fun _ q =>
      Emits profile table p (routes.map (·.2)) q := by
  induction routes generalizing p with
  | nil =>
    rw [routeReferences]
    exact does_pure .nil
  | cons r rest ih =>
    obtain ⟨exit, b⟩ := r
    have hself : (exit, b) ∈ (exit, b) :: rest := List.mem_cons_self
    rw [routeReferences]
    refine (does_arm (hc _ hself) (h _ hself) (hp.head ht) label ident exit.port).bind
      fun inner q hq => ?_
    have hrest := hp.tail ht (hf _ hself) hq
    refine (ih (fun c hc => hf c (List.mem_cons_of_mem _ hc))
      (fun c hm => hc c (List.mem_cons_of_mem _ hm))
      (fun c hc => h c (List.mem_cons_of_mem _ hc)) hrest).bind fun refs r hr => ?_
    exact does_pure (hq.cons ht hr)

end References

section Members
variable {profile : Profile}

theorem memberReferences_eq (members : List Block) :
    memberReferences profile members = members.map fun b => reference profile b none := by
  induction members with
  | nil => rw [memberReferences, List.map_nil]
  | cons b rest ih => rw [memberReferences, List.map_cons, ih]

theorem sortMembers_zip_map {α β : Type} (f : α → β) (keys : List Text) (xs : List α) :
    sortMembers (keys.zip (xs.map f)) = (sortMembers (keys.zip xs)).map (Prod.map id f) := by
  rw [List.zip_map_right]
  exact (List.map_mergeSort (f := Prod.map id f) fun _ _ _ _ => rfl).symm

theorem exists_sorted (profile : Profile) {keys : List Text} {members : List Block}
    (hlength : keys.length = members.length) : ∃ sorted : List (Text × Block),
      (sorted.map (·.2)).Perm members ∧
      sortMembers (keys.zip (memberReferences profile members)) =
        sorted.map fun x => (x.1, reference profile x.2 none) := by
  refine ⟨sortMembers (keys.zip members), ?_, ?_⟩
  · have hperm : (sortMembers (keys.zip members)).Perm (keys.zip members) :=
      List.mergeSort_perm _ _
    have hsnd := hperm.map (·.2)
    rwa [List.map_snd_zip (by omega)] at hsnd
  · rw [memberReferences_eq]
    exact sortMembers_zip_map _ keys members

theorem does_members {excuse : Prop} {table : List (Text × Block)} (ht : Keyed table)
    {members : List (Text × Block)} (hf : ∀ x ∈ members, x.2.Formed)
    (h : ∀ x ∈ members, Emitted profile excuse table x.2) {p : Progress}
    (hp : Admits excuse table p (members.map (·.2))) :
    Does excuse ((members.map fun x => (x.1, reference profile x.2 none)).mapM (·.2)) p
      fun _ q => Emits profile table p (members.map (·.2)) q := by
  induction members generalizing p with
  | nil => exact does_pure .nil
  | cons x rest ih =>
    rw [List.map_cons, List.mapM_cons]
    refine ((h x List.mem_cons_self).whole p none (hp.head ht)).bind fun ident q hq => ?_
    have hrest := hp.tail ht (hf x List.mem_cons_self) hq
    refine (ih (fun c hc => hf c (List.mem_cons_of_mem _ hc))
      (fun c hc => h c (List.mem_cons_of_mem _ hc)) hrest).bind fun refs r hr => ?_
    exact does_pure (hq.cons ht hr)

end Members

section Constructs
variable {profile : Profile} {excuse : Prop} {table : List (Text × Block)} (ht : Keyed table)
  {p q r : Progress} {b : Block} {subject : Subject}
include ht

/-- The construct of a block: its key is claimed, and then the rest is done. -/
theorem does_construct (hb : b.sharedKey? = none) (hs : b.subject? = some subject)
    (hl : Led [] b.children) (hp : Admits excuse table p [b]) {key label : Text}
    (hkey : key = subject.key) {f : Text → Emitting Text} {P : Text → Progress → Prop}
    (hf : ∀ ident q, Claims p subject.key ident q → Admits excuse table q b.children →
      Does excuse (f ident) q P) : Does excuse (claim key label >>= f) p P := by
  subst hkey
  have hfree := hp.key_free ht hb hs
  refine Does.bind (does_claim (P := fun ident q => Claims p subject.key ident q) hfree
    fun _ _ => ⟨hfree, rfl, rfl, rfl⟩) fun ident q hq => ?_
  exact hf ident q hq (hp.construct ht hb hs hl hq)

theorem does_stated {ident label : Text} (hb : b.sharedKey? = none)
    (hs : b.subject? = some subject) (hc : Claims p subject.key ident q)
    (he : Emits profile table q b.children r) {template : Template} {node : Node} {parts : Parts}
    {predecessor : Option Text}
    (hok : (∃ s, template.statement profile node ident label parts predecessor = .ok s) ∨ excuse)
    (hr : ∀ s, template.statement profile node ident label parts predecessor = .ok s →
      Renders profile r.bound (some subject) s) :
    Does excuse (do
      stateNode profile template node ident label parts predecessor
      return ident) r fun _ t => Emits profile table p [b] t :=
  (does_stateNode (P := fun _ t => Emits profile table p [b] t) hok
    fun s hstatement => he.construct ht hb hs hc (hr s hstatement)).bind fun _ _ ht => does_pure ht

theorem does_statedNode {node : Node} {ident : Text} (hb : b.sharedKey? = none)
    (hs : b.subject? = some (.node node)) (hc : Claims p node.id ident q)
    (he : Emits profile table q b.children r) {parts : Parts} {predecessor : Option Text}
    (hok : (∃ s, node.kind.template.statement profile node ident node.name parts predecessor =
      .ok s) ∨ excuse) :
    Does excuse (do
      stateNode profile node.kind.template node ident node.name parts predecessor
      return ident) r fun _ t => Emits profile table p [b] t := by
  refine does_stated ht hb hs hc he hok fun s hstatement => ?_
  have hident := Template.statement_ident hstatement
  exact .node (hident ▸ he.adds.keeps _ _ hc.bound_self) (hident ▸ hstatement)

end Constructs

section Emitted
variable {profile : Profile} {excuse : Prop} {table : List (Text × Block)} (ht : Keyed table)
include ht

theorem emitted_leaf {n : Nat} {node : Node} (hk : node.kind.isContainer = false) :
    Emitted profile excuse table (.leaf n node) := by
  refine ⟨fun p predecessor hp => ?_, fun hc => hc.elim⟩
  rw [reference]
  refine does_construct ht (b := .leaf n node) rfl rfl trivial hp rfl fun ident q hc _ => ?_
  refine does_statedNode ht (b := .leaf n node) rfl rfl hc .nil ?_
  exact (hp.fits node (subject_mem_work rfl rfl)).imp_left (Template.exists_statement_step hk).mpr

theorem does_sequence {n : Nat} {items : List Block} {key : Option Text}
    (hf : ∀ b ∈ items, b.Formed) (hled : Led [] items)
    (h : ∀ b ∈ items, Emitted profile excuse table b) {p : Progress}
    (hp : Admits excuse table p items) (what : Text) :
    Does excuse (do
      let label ← headLabel (.sequence n items none key) what
      namedSequence profile label (references profile items none)) p
      fun _ q => Emits profile table p items q := by
  have hformed : (Block.sequence n items none key).Formed := .chain hf hled
  obtain ⟨first, hfirst⟩ := hformed.exists_head
  refine Does.bind (does_lift (P := fun _ q => p = q) (Or.inl ?_) fun _ _ => rfl) ?_
  · exact ⟨_, by rw [headLabel, hfirst]; rfl⟩
  rintro label _ rfl
  refine does_namedSequence fun ident allocator => ?_
  have hp' : Admits excuse table { p with allocator } items := ⟨hp.free, hp.closed, hp.led, hp.fits⟩
  refine (does_references ht hf h hp').mono fun refs q hq => ?_
  have hadds := hq.adds.chain (Renders.chain label ident refs)
  exact ⟨⟨hadds.claims, hadds.keeps, hadds.states⟩, hq.done⟩

theorem emitted_chain {n : Nat} {items : List Block} {key : Option Text}
    (hl : Listed table (.sequence n items none key)) (hf : ∀ b ∈ items, b.Formed)
    (hled : Led [] items) (h : ∀ b ∈ items, Emitted profile excuse table b) :
    Emitted profile excuse table (.sequence n items none key) := by
  refine ⟨fun p predecessor hp => ?_, fun _ hkey p hp => ?_⟩
  · cases hkey : (Block.sequence n items none key).sharedKey? with
    | none =>
      rw [reference_plain hkey]
      exact (does_sequence ht hf hled h (hp.chain ht hkey rfl hled) _).mono
        fun _ _ hq => hq.chain ht hkey rfl
    | some k =>
      have hs : (k, Block.sequence n items none key) ∈ table := hl _ (.refl _) k hkey
      -- a single item is emitted in place of the sequence
      have hstated : ∃ stated : Emitting Text,
          reference profile (.sequence n items none key) predecessor = once k stated ∧
          ∀ p, Admits excuse table p items →
            Does excuse stated p fun _ q => Emits profile table p items q := by
        by_cases hsingle : ∃ item, items = [item]
        · obtain ⟨item, rfl⟩ := hsingle
          exact ⟨_, reference_singleton hkey, fun p hp => (h item (by simp)).whole p none hp⟩
        · exact ⟨_, reference_shared hkey fun item hitem => hsingle ⟨item, hitem⟩,
            fun p hp => does_sequence ht hf hled h hp _⟩
      obtain ⟨stated, href, hstated⟩ := hstated
      rw [href]
      cases hlookup : p.shared.lookup k with
      | some ident =>
        exact does_once_known hlookup (Emits.known ht hs (mem_keys_iff.mpr ⟨ident, hlookup⟩) hp)
      | none =>
        have hnew : k ∉ p.done := lookup_eq_none.mp hlookup
        refine does_once_new hlookup ((hstated p (hp.share ht hs hnew hled)).mono ?_)
        exact fun ident q hq => hq.share ht hs hnew ident
  · rw [itemReferences]
    exact (does_references ht hf h (hp.chain ht hkey rfl hled)).mono
      fun _ _ hq => hq.chain ht hkey rfl

theorem emitted_sequential {n : Nat} {node : Node} {items : List Block}
    (hk : node.kind = .sequential) (hf : ∀ b ∈ items, b.Formed) (hled : Led [] items)
    (h : ∀ b ∈ items, Emitted profile excuse table b) :
    Emitted profile excuse table (.sequence n items (some node) none) := by
  refine ⟨fun p predecessor hp => ?_, fun hc => hc.elim⟩
  unfold reference
  refine does_construct ht (b := .sequence n items (some node) none) rfl rfl hled hp rfl
    fun ident q hc hq => ?_
  refine (does_references ht hf h hq).bind fun refs r hr => ?_
  refine does_statedNode ht (b := .sequence n items (some node) none) rfl rfl hc hr (Or.inl ?_)
  exact Template.exists_statement_plain (Or.inl hk)

omit ht in
theorem does_heads {members : List Block}
    (h : ∀ b ∈ members, (∃ head, b.head = .ok head) ∨ excuse) (p : Progress) :
    Does excuse (members.mapM fun member => (liftM member.head : Emitting (Text × Text))) p
      fun heads q => heads.length = members.length ∧ p = q := by
  induction members with
  | nil => exact does_pure ⟨rfl, rfl⟩
  | cons b rest ih =>
    rw [List.mapM_cons]
    refine Does.bind (does_lift (P := fun _ q => p = q) (h b List.mem_cons_self)
      fun _ _ => rfl) ?_
    rintro head _ rfl
    refine (ih fun c hc => h c (List.mem_cons_of_mem _ hc)).bind ?_
    rintro heads _ ⟨hlength, rfl⟩
    exact does_pure ⟨by simp [hlength], rfl⟩

omit ht in
theorem led_of_forall {bs : List Block} (h : ∀ b ∈ bs, Led [] [b]) : Led [] bs := by
  induction bs with
  | nil => trivial
  | cons b rest ih =>
    have hrest := ih fun c hc => h c (List.mem_cons_of_mem _ hc)
    exact (h b List.mem_cons_self).append hrest

/-- The members of a parallel container are emitted in the order of the ids they begin with. -/
theorem emitted_parallel {n : Nat} {node : Node} {members : List Block} {join : JoinStrategy}
    (hk : node.kind = .parallel) (hf : ∀ b ∈ members, b.Formed) (hled : ∀ b ∈ members, Led [] [b])
    (h : ∀ b ∈ members, Emitted profile excuse table b) :
    Emitted profile excuse table (.parallel n node members join) := by
  refine ⟨fun p predecessor hp => ?_, fun hc => hc.elim⟩
  unfold reference
  refine does_construct ht (b := .parallel n node members join) rfl rfl (led_of_forall hled) hp rfl
    fun ident q hc hq => ?_
  refine (does_heads (fun b hb => Or.inl (hf b hb).exists_head) q).bind ?_
  rintro heads _ ⟨hlength, rfl⟩
  have hkeys : (heads.map (·.1)).length = members.length := by simpa using hlength
  obtain ⟨sorted, hperm, hsorted⟩ := exists_sorted profile hkeys
  rw [hsorted]
  have hmem : ∀ x ∈ sorted, x.2 ∈ members :=
    fun x hx => hperm.mem_iff.mp (List.mem_map_of_mem hx)
  have hadmits : Admits excuse table q (sorted.map (·.2)) := by
    refine hq.congr (work_perm hperm.symm) ((led_of_forall fun b hb => ?_).mono (by simp))
    exact hled b (hperm.mem_iff.mp hb)
  refine (does_members ht (fun x hx => hf _ (hmem x hx)) (fun x hx => h _ (hmem x hx))
    hadmits).bind fun refs r hr => ?_
  refine does_statedNode ht (b := .parallel n node members join) rfl rfl hc (hr.perm hperm)
    (Or.inl ?_)
  exact Template.exists_statement_plain (Or.inr (Or.inr ⟨hk, join.name, rfl⟩))

theorem does_arms {onTrue onFalse : Block} (hc : onTrue.IsChain) (hc' : onFalse.IsChain)
    (hf : onTrue.Formed) (h : Emitted profile excuse table onTrue)
    (h' : Emitted profile excuse table onFalse) {p : Progress}
    (hp : Admits excuse table p [onTrue, onFalse]) {label ident exit exit' : Text}
    {f : Expression → Expression → Emitting Text} {P : Text → Progress → Prop}
    (hP : ∀ ifTrue ifFalse q, Emits profile table p [onTrue, onFalse] q →
      Does excuse (f ifTrue ifFalse) q P) :
    Does excuse (do
      let ifTrue ← arm profile onTrue (reference profile onTrue none)
        (itemReferences profile onTrue) label ident exit
      let ifFalse ← arm profile onFalse (reference profile onFalse none)
        (itemReferences profile onFalse) label ident exit'
      f ifTrue ifFalse) p P := by
  refine (does_arm hc h (hp.head ht) label ident exit).bind fun ifTrue q hq => ?_
  refine (does_arm hc' h' (hp.tail ht hf hq) label ident exit').bind fun ifFalse r hr => ?_
  exact hP ifTrue ifFalse r (hq.cons ht hr)

omit ht in
theorem led_chain {b : Block} (h : b.IsChain) : Led [] [b] := by
  obtain ⟨n, items, key, rfl⟩ := h.exists_eq
  exact led_singleton fun node => by simp [subject?]

theorem emitted_conditional {n : Nat} {node : Node} {condition : Value} {onTrue onFalse : Block}
    (hk : node.kind = .conditional)
    (hcondition : condition = (node.settings.get? "condition").getD (.str ""))
    (hf : onTrue.Formed) (hc : onTrue.IsChain) (hc' : onFalse.IsChain) (h : Emitted profile excuse table onTrue)
    (h' : Emitted profile excuse table onFalse) :
    Emitted profile excuse table (.branch n node condition onTrue onFalse none) := by
  refine ⟨fun p predecessor hp => ?_, fun hc => hc.elim⟩
  unfold reference
  refine does_construct ht (b := .branch n node condition onTrue onFalse none) rfl rfl
    ((led_chain hc).append (led_chain hc')) hp rfl fun ident q hclaim hq => ?_
  refine does_arms ht hc hc' hf h h' hq fun ifTrue ifFalse r hr => ?_
  refine does_statedNode ht (b := .branch n node condition onTrue onFalse none) rfl rfl hclaim hr
    ((hp.fits node (subject_mem_work rfl rfl)).imp_left fun hfits => ?_)
  refine Template.exists_statement_conditional hk ?_
  rw [hcondition, Value.isWritable_getD]
  exact hfits.2.fields _ (by simp [Node.shownFields, hk])

theorem emitted_outcome {n : Nat} {node : Node} {condition : Value} {onTrue onFalse : Block}
    {success failure : Text} (hports : node.kind.outcomePorts? = some (success, failure))
    (hf : onTrue.Formed) (hc : onTrue.IsChain) (hc' : onFalse.IsChain)
    (h : Emitted profile excuse table onTrue) (h' : Emitted profile excuse table onFalse) :
    Emitted profile excuse table (.branch n node condition onTrue onFalse (some success)) := by
  refine ⟨fun p predecessor hp => ?_, fun hc => hc.elim⟩
  have hne : success ≠ [] := outcomePorts_ne_nil hports
  have hs : (Block.branch n node condition onTrue onFalse (some success)).subject? =
      some (.outcome node) := by simp [subject?, hne]
  have hkey : branchKey node (some success) = (Subject.outcome node).key := by
    simp [branchKey, hne, Subject.key]
  obtain ⟨step, hstep⟩ : ∃ step, p.bound node.id = some step :=
    mem_keys_iff.mp (hp.led.1 node hs)
  unfold reference
  simp only [Option.getD_some, hne, if_false, hports]
  refine Does.bind (does_get (P := fun a q => p = a ∧ p = q) ⟨rfl, rfl⟩) ?_
  rintro _ _ ⟨rfl, rfl⟩
  rw [show p.claimed.lookup node.id = some step from hstep, Option.getD_some]
  refine does_construct ht rfl hs ((led_chain hc).append (led_chain hc')) hp hkey
    fun ident q hclaim hq => ?_
  refine does_arms ht hc hc' hf h h' hq fun ifTrue ifFalse r hr => ?_
  refine does_stated ht rfl hs hclaim hr (Or.inl (Template.exists_statement_outcome hports))
    fun s hstatement => ?_
  have hbound : r.bound node.id = some step := hr.adds.keeps _ _ (hclaim.bound_of hstep)
  exact .outcome hports hbound rfl (Template.statement_ident hstatement ▸ hstatement)

theorem emitted_switch {n : Nat} {node : Node} {routes : List (Exit × Block)}
    (hk : node.kind = .router) (hf : ∀ r ∈ routes, r.2.Formed) (hc : ∀ r ∈ routes, r.2.IsChain)
    (h : ∀ r ∈ routes, Emitted profile excuse table r.2) :
    Emitted profile excuse table (.switch n node routes) := by
  refine ⟨fun p predecessor hp => ?_, fun hc => hc.elim⟩
  unfold reference
  have hled : Led [] (Block.switch n node routes).children := by
    refine led_of_forall fun b hb => ?_
    obtain ⟨r, hr, rfl⟩ := List.mem_map.mp hb
    exact led_chain (hc r hr)
  refine does_construct ht (b := .switch n node routes) rfl rfl hled hp rfl
    fun ident q hclaim hq => ?_
  refine (does_routeReferences ht hf hc h hq node.name ident).bind fun arms r hr => ?_
  refine does_statedNode ht (b := .switch n node routes) rfl rfl hclaim hr (Or.inl ?_)
  exact Template.exists_statement_plain (Or.inr (Or.inl hk))

theorem emitted_loop {n : Nat} {node : Node} {body : Block} {kind : LoopKind} {params : Members}
    (hk : node.kind = .loop) (hkind : LoopKind.ofValue (node.settings.get "loopType") = .ok kind)
    (hc : body.IsChain) (h : Emitted profile excuse table body) :
    Emitted profile excuse table (.loop n node body kind params) := by
  refine ⟨fun p predecessor hp => ?_, fun hc => hc.elim⟩
  unfold reference
  refine does_construct ht (b := .loop n node body kind params) rfl rfl (led_chain hc) hp rfl
    fun ident q hclaim hq => ?_
  refine (does_arm hc h hq node.name ident "body").bind fun inner r hr => ?_
  obtain ⟨field, slot, hchoose⟩ := LoopKind.exists_parameter hkind
  refine does_statedNode ht (b := .loop n node body kind params) rfl rfl hclaim hr
    ((hp.fits node (subject_mem_work rfl rfl)).imp_left fun hfits => ?_)
  exact (Template.exists_statement_loop hk hchoose rfl).mpr hfits.2

theorem emitted_of_formed {b : Block} (h : b.Formed) (hl : Listed table b) :
    Emitted profile excuse table b := by
  induction h with
  | leaf hk => exact emitted_leaf ht hk
  | chain hf hled ih => exact emitted_chain ht hl hf hled fun b hb => ih b hb (hl.child hb)
  | sequential hk hf hled ih =>
    exact emitted_sequential ht hk hf hled fun b hb => ih b hb (hl.child hb)
  | parallel hk hf hled ih =>
    exact emitted_parallel ht hk hf hled fun b hb => ih b hb (hl.child hb)
  | conditional hk hcondition hf _ hc hc' ih ih' =>
    exact emitted_conditional ht hk hcondition hf hc hc' (ih (hl.child (by simp [children])))
      (ih' (hl.child (by simp [children])))
  | outcome hports hf _ hc hc' ih ih' =>
    exact emitted_outcome ht hports hf hc hc' (ih (hl.child (by simp [children])))
      (ih' (hl.child (by simp [children])))
  | switch hk hf hc ih =>
    exact emitted_switch ht hk hf hc fun r hr => ih r hr (hl.child (List.mem_map_of_mem hr))
  | loop hk hkind _ hc ih =>
    exact emitted_loop ht hk hkind hc (ih (hl.child (by simp [children])))

end Emitted

end WorkflowCompiler.Emission
