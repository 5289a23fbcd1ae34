import Mathlib
import WorkflowCompiler.Proofs.Block.Form
import WorkflowCompiler.Proofs.Block.Placement
import WorkflowCompiler.Proofs.Emission.Run
import WorkflowCompiler.Proofs.Identifier.Fresh
import WorkflowCompiler.Proofs.Resolution.Assembly

/-! # Predecessors

The construct of a node is stated with what its block follows as its predecessor. Since the block of
a node may stand inside a shared sequence, this is said of one of its places.
-/
namespace WorkflowCompiler.Emission
open Block

/-- Keys go with different identifiers, all of which are valid and taken. -/
structure Apart (p : Progress) : Prop where
  distinct : (p.claimed.map (·.2)).Nodup
  valid : ∀ x ∈ p.claimed, Identifier.isValid x.2 = true
  taken : ∀ x ∈ p.claimed, x.2 ∈ p.allocator.taken

structure Extends (p q : Progress) : Prop where
  statements : p.statements ⊆ q.statements
  bound : ∀ key ident, p.bound key = some ident → q.bound key = some ident
  taken : p.allocator.taken ⊆ q.allocator.taken
  apart : Apart p → Apart q

section Extends
variable {p q r : Progress}

theorem mem_claimed_of_bound {key ident : Text} (h : p.bound key = some ident) :
    (key, ident) ∈ p.claimed :=
  mem_of_lookup h

theorem Apart.eq_of_bound (hp : Apart p) {a b ident : Text} (ha : p.bound a = some ident)
    (hb : p.bound b = some ident) : a = b :=
  congrArg Prod.fst (List.inj_on_of_nodup_map hp.distinct (mem_claimed_of_bound ha)
    (mem_claimed_of_bound hb) rfl)

theorem Apart.ne_nil_of_bound (hp : Apart p) {key ident : Text} (h : p.bound key = some ident) :
    ident ≠ [] := by
  rintro rfl
  have hvalid : Identifier.isValid [] = true := hp.valid _ (mem_claimed_of_bound h)
  exact absurd hvalid (by decide)

theorem Extends.refl (p : Progress) : Extends p p :=
  ⟨List.Subset.refl _, fun _ _ h => h, List.Subset.refl _, id⟩

theorem Extends.trans (h : Extends p q) (h' : Extends q r) : Extends p r :=
  ⟨List.Subset.trans h.statements h'.statements,
    fun key ident hb => h'.bound key ident (h.bound key ident hb),
    List.Subset.trans h.taken h'.taken, fun ha => h'.apart (h.apart ha)⟩

theorem extends_opened (p : Progress) (label : Text) : Extends p (p.opened label) where
  statements := List.Subset.refl _
  bound _ _ h := h
  taken := List.subset_cons_self _ _
  apart h := ⟨h.distinct, h.valid, fun x hx => List.mem_cons_of_mem _ (h.taken x hx)⟩

theorem extends_owned {key : Text} (hfree : key ∉ p.known) (label : Text) :
    Extends p (p.owned key label) where
  statements := List.Subset.refl _
  bound key' ident h := by
    have hne : key' ≠ key := by
      rintro rfl
      exact hfree (mem_keys_iff.mpr ⟨ident, h⟩)
    rw [Progress.bound, Progress.owned, List.lookup_cons, beq_eq_false_iff_ne.mpr hne]
    exact h
  taken := List.subset_cons_self _ _
  apart h := by
    refine ⟨List.nodup_cons.mpr ⟨fun hmem => ?_, h.distinct⟩,
      List.forall_mem_cons.mpr ⟨p.isValid_fresh label, h.valid⟩, List.forall_mem_cons.mpr
      ⟨List.mem_cons_self, fun x hx => List.mem_cons_of_mem _ (h.taken x hx)⟩⟩
    obtain ⟨x, hx, heq⟩ := List.mem_map.mp hmem
    exact Identifier.Allocator.choose_not_mem _ _ (heq ▸ h.taken x hx)

theorem extends_stating (p : Progress) (s : Statement) : Extends p (p.stating s) :=
  ⟨List.subset_append_left _ _, fun _ _ h => h, List.Subset.refl _,
    fun h => ⟨h.distinct, h.valid, h.taken⟩⟩

theorem extends_sharing (p : Progress) (key ident : Text) : Extends p (p.sharing key ident) :=
  ⟨List.Subset.refl _, fun _ _ h => h, List.Subset.refl _,
    fun h => ⟨h.distinct, h.valid, h.taken⟩⟩

theorem bound_owned (p : Progress) (key label : Text) :
    (p.owned key label).bound key = some (p.fresh label) := by
  simp [Progress.bound, Progress.owned]

end Extends

/-- What is given as the predecessor is the identifier of the block that is followed, and nothing
where none is. -/
def Heeds (p : Progress) (previous : Option Block) (predecessor : Option Text) : Prop :=
  match previous with
  | none => predecessor = none
  | some b => ∀ id, b.mainId? = some id → ∃ ident, p.bound id = some ident ∧
    predecessor = some ident

theorem Heeds.mono {p q : Progress} (h : Extends p q) {previous : Option Block}
    {predecessor : Option Text} (hp : Heeds p previous predecessor) :
    Heeds q previous predecessor := by
  cases previous with
  | none => exact hp
  | some b =>
    intro id hid
    obtain ⟨ident, hbound, heq⟩ := hp id hid
    exact ⟨ident, h.bound id ident hbound, heq⟩

/-- The construct of a node is stated, and refers to what its block follows at one of its places. -/
def Stated (profile : Profile) (root : Block) (p : Progress) (id : Text) : Prop :=
  ∃ previous b node s parts predecessor, Placed root previous b ∧ b.mainId? = some id ∧
    b.node? = some node ∧ s ∈ p.statements ∧ p.bound id = some s.ident ∧
    node.kind.template.statement profile node s.ident node.name parts predecessor = .ok s ∧
    Heeds p previous predecessor

theorem Stated.mono {profile : Profile} {root : Block} {p q : Progress} (h : Extends p q)
    {id : Text} (hs : Stated profile root p id) : Stated profile root q id := by
  obtain ⟨previous, b, node, s, parts, predecessor, hplaced, hid, hnode, hmem, hbound, hstatement,
    hheeds⟩ := hs
  exact ⟨previous, b, node, s, parts, predecessor, hplaced, hid, hnode, h.statements hmem,
    h.bound _ _ hbound, hstatement, hheeds.mono h⟩

/-- The nodes inside some blocks are stated. -/
def AllStated (profile : Profile) (root : Block) (p : Progress) (blocks : List Block) : Prop :=
  ∀ b ∈ blocks, ∀ x : Block, x.Within b → ∀ id, x.mainId? = some id → Stated profile root p id

/-- A shared sequence that is done is stated with everything inside it. -/
def Completed (profile : Profile) (root : Block) (p : Progress) : Prop :=
  ∀ x : Block, x.Within root → ∀ key ∈ p.done, x.sharedKey? = some key →
    AllStated profile root p [x]

/-- What an emission of some blocks reports. -/
structure Reports (profile : Profile) (root : Block) (p : Progress) (blocks : List Block)
    (q : Progress) : Prop where
  grows : Extends p q
  completed : Completed profile root q
  stated : AllStated profile root q blocks

/-- A task about blocks at their places, with the predecessor that belongs there. -/
def Task.Lies (root : Block) (p : Progress) : Task → Prop
  | .whole b predecessor => ∃ previous, Placed root previous b ∧ Heeds p previous predecessor
  | .items bs predecessor => ∃ previous, (∀ x ∈ successive previous bs, Placed root x.1 x.2) ∧
    Heeds p previous predecessor
  | .arm b _ _ _ => Placed root none b ∧ b.IsChain
  | .routes arms _ _ => ∀ r ∈ arms, Placed root none r.2 ∧ r.2.IsChain
  | .members bs => ∀ b ∈ bs, Placed root none b

def Task.blocks : Task → List Block
  | .whole b _ | .arm b _ _ _ => [b]
  | .items bs _ | .members bs => bs
  | .routes arms _ _ => arms.map (·.2)

/-- A block that stands for a node is referred to by the identifier of that node. -/
def Task.Answers (q : Progress) (es : List Expression) : Task → Prop
  | .whole b _ => ∀ id, b.mainId? = some id → ∀ ident, es = [.name ident] → q.bound id = some ident
  | _ => True

section Reports
variable {profile : Profile} {root : Block} {p q r : Progress} {b : Block} {bs cs : List Block}

theorem AllStated.mono (h : Extends p q) (hs : AllStated profile root p bs) :
    AllStated profile root q bs := fun b hb x hx id hid => (hs b hb x hx id hid).mono h

theorem allStated_nil : AllStated profile root p [] := fun _ h => absurd h List.not_mem_nil

theorem AllStated.append (h : AllStated profile root p bs) (h' : AllStated profile root p cs) :
    AllStated profile root p (bs ++ cs) := List.forall_mem_append.mpr ⟨h, h'⟩

/-- A block is stated as soon as its children are, and it itself if it stands for a node. -/
theorem AllStated.of_children (h : AllStated profile root p b.children)
    (hb : ∀ id, b.mainId? = some id → Stated profile root p id) :
    AllStated profile root p [b] := by
  refine List.forall_mem_singleton.mpr fun x hx id hid => ?_
  rcases within_iff.mp hx with rfl | ⟨c, hc, hx⟩
  · exact hb id hid
  · exact h c hc x hx id hid

theorem Completed.mono (hp : Completed profile root p) (h : Extends p q) (hdone : q.done = p.done) :
    Completed profile root q := by
  intro x hx key hkey hshared
  rw [hdone] at hkey
  exact (hp x hx key hkey hshared).mono h

theorem Completed.opened (hp : Completed profile root p) (label : Text) :
    Completed profile root (p.opened label) := hp.mono (extends_opened p label) rfl

theorem Completed.owned (hp : Completed profile root p) {key : Text} (hfree : key ∉ p.known)
    (label : Text) : Completed profile root (p.owned key label) :=
  hp.mono (extends_owned hfree label) rfl

theorem Reports.nil (hp : Completed profile root p) : Reports profile root p [] p :=
  ⟨.refl p, hp, allStated_nil⟩

theorem Reports.append (h : Reports profile root p bs q) (h' : Reports profile root q cs r) :
    Reports profile root p (bs ++ cs) r :=
  ⟨h.grows.trans h'.grows, h'.completed, (h.stated.mono h'.grows).append h'.stated⟩

theorem Reports.before (h : Extends p q) (h' : Reports profile root q bs r) :
    Reports profile root p bs r := ⟨h.trans h'.grows, h'.completed, h'.stated⟩

theorem Reports.stating (h : Reports profile root p bs q) (s : Statement) :
    Reports profile root p bs (q.stating s) :=
  ⟨h.grows.trans (extends_stating q s), h.completed.mono (extends_stating q s) rfl,
    h.stated.mono (extends_stating q s)⟩

theorem Reports.of_children (hb : b.mainId? = none) (h : Reports profile root p b.children q) :
    Reports profile root p [b] q := by
  refine ⟨h.grows, h.completed, h.stated.of_children fun id hid => ?_⟩
  rw [hb] at hid
  cases hid

theorem Reports.sequence (hb : b.mainId? = none) {label : Text}
    (h : Reports profile root (p.opened label) b.children q) (s : Statement) :
    Reports profile root p [b] (q.stating s) :=
  ((of_children hb h).before (extends_opened p label)).stating s

theorem answers_of_none (hb : b.mainId? = none) {es : List Expression}
    {predecessor : Option Text} : Task.Answers q es (.whole b predecessor) := by
  intro id hid
  rw [hb] at hid
  cases hid

theorem Reports.construct {previous : Option Block} {predecessor : Option Text} {key label : Text}
    {s : Statement} (hplaced : Placed root previous b) (hheeds : Heeds p previous predecessor)
    (hfree : key ∉ p.known) (h : Reports profile root (p.owned key label) b.children r)
    (hident : s.ident = p.fresh label)
    (hmain : ∀ id, b.mainId? = some id → id = key ∧ ∃ node parts, b.node? = some node ∧
      node.kind.template.statement profile node (p.fresh label) node.name parts predecessor =
        .ok s) :
    Reports profile root p [b] (r.stating s) ∧
      Task.Answers (r.stating s) [.name (p.fresh label)] (.whole b predecessor) := by
  have hgrows := extends_owned hfree label
  have hstating := h.stating s
  have hbound : ∀ id, b.mainId? = some id → (r.stating s).bound id = some (p.fresh label) := by
    intro id hid
    rw [(hmain id hid).1]
    exact hstating.grows.bound _ _ (bound_owned p key label)
  refine ⟨⟨hgrows.trans hstating.grows, hstating.completed, hstating.stated.of_children ?_⟩, ?_⟩
  · intro id hid
    obtain ⟨rfl, node, parts, hnode, hstatement⟩ := hmain id hid
    refine ⟨previous, b, node, s, parts, predecessor, hplaced, hid, hnode, ?_, ?_, ?_, ?_⟩
    · exact List.mem_append_right _ (List.mem_singleton.mpr rfl)
    · rw [hbound id hid, hident]
    · rw [hident]
      exact hstatement
    · exact hheeds.mono (hgrows.trans hstating.grows)
  · rintro id hid _ ⟨⟩
    exact hbound id hid

theorem Reports.sharing (h : Reports profile root p [b] q) {key : Text}
    (hkey : b.sharedKey? = some key)
    (hunique : ∀ x : Block, x.Within root → x.sharedKey? = some key → x = b) (ident : Text) :
    Reports profile root p [b] (q.sharing key ident) := by
  have hgrows := extends_sharing q key ident
  refine ⟨h.grows.trans hgrows, ?_, h.stated.mono hgrows⟩
  intro x hx k hk hshared
  rcases List.mem_cons.mp hk with rfl | hk
  · rw [hunique x hx hshared]
    exact h.stated.mono hgrows
  · exact (h.completed x hx k hk hshared).mono hgrows

end Reports

/-! ## The induction -/

/-- What can be read off the places of blocks: they are formed, and a key belongs to one shared
sequence. -/
structure Legible (root : Block) : Prop where
  formed : ∀ x : Block, x.Within root → x.Formed
  unique : ∀ x y : Block, x.Within root → y.Within root → ∀ key, x.sharedKey? = some key →
    y.sharedKey? = some key → x = y

section Makes
variable {profile : Profile} {root : Block} {p q : Progress} {es : List Expression}

theorem mainId?_of_isChain {b : Block} (h : b.IsChain) : b.mainId? = none := by
  obtain ⟨n, items, key, rfl⟩ := h.exists_eq
  rfl

theorem mainId?_of_shared {b : Block} (h : b.Formed) (hs : b.sharedKey?.isSome) :
    b.mainId? = none :=
  mainId?_of_isChain (h.isChain_of_shared hs)

theorem lies_items {n : Nat} {items : List Block} {container : Option Node} {key : Option Text}
    (h : (Block.sequence n items container key).Within root) (p : Progress) :
    Task.Lies root p (.items items none) :=
  ⟨none, fun _ hx => ⟨_, h, hx⟩, rfl⟩

theorem placed_of_mem_children {b c : Block} (hb : b.Within root)
    (hplacements : b.placements = b.children.map fun c => (none, c)) (hc : c ∈ b.children) :
    Placed root none c := by
  refine ⟨b, hb, ?_⟩
  rw [hplacements]
  exact List.mem_map_of_mem hc

theorem lies_arms (hroot : Legible root) {n : Nat} {node : Node} {condition : Value}
    {onTrue onFalse : Block} {port : Option Text}
    (h : (Block.branch n node condition onTrue onFalse port).Within root) :
    (Placed root none onTrue ∧ onTrue.IsChain) ∧ Placed root none onFalse ∧ onFalse.IsChain := by
  have htrue := placed_of_mem_children h rfl List.mem_cons_self
  have hfalse := placed_of_mem_children h rfl (List.mem_cons_of_mem _ List.mem_cons_self)
  cases hroot.formed _ h with
  | conditional _ _ _ _ hc hc' | outcome _ _ _ hc hc' => exact ⟨⟨htrue, hc⟩, hfalse, hc'⟩

theorem lies_routes (hroot : Legible root) {n : Nat} {node : Node} {routes : List (Exit × Block)}
    (h : (Block.switch n node routes).Within root) :
    ∀ r ∈ routes, Placed root none r.2 ∧ r.2.IsChain := by
  intro r hr
  refine ⟨placed_of_mem_children h rfl (List.mem_map_of_mem hr), ?_⟩
  cases hroot.formed _ h with
  | switch _ _ hc => exact hc r hr

theorem lies_body (hroot : Legible root) {n : Nat} {node : Node} {body : Block} {kind : LoopKind}
    {params : Members} (h : (Block.loop n node body kind params).Within root) :
    Placed root none body ∧ body.IsChain := by
  refine ⟨placed_of_mem_children h rfl List.mem_cons_self, ?_⟩
  cases hroot.formed _ h with
  | loop _ _ _ hc => exact hc

/-- The statement of the node of a block, behind what stands inside the block. -/
theorem Reports.node {b : Block} {previous : Option Block} {predecessor : Option Text} {node : Node}
    {parts : Parts} {s : Statement} (hplaced : Placed root previous b)
    (hheeds : Heeds p previous predecessor) (hb : b.node? = some node) (hfree : node.id ∉ p.known)
    (h : Reports profile root (p.owned node.id node.name) b.children q)
    (hs : node.kind.template.statement profile node (p.fresh node.name) node.name parts
      predecessor = .ok s) :
    Reports profile root p [b] (q.stating s) ∧
      Task.Answers (q.stating s) [.name (p.fresh node.name)] (.whole b predecessor) := by
  refine Reports.construct hplaced hheeds hfree h (Template.statement_ident hs) fun id hid => ?_
  refine ⟨?_, node, parts, hb, hs⟩
  unfold mainId? at hid
  split at hid
  · cases hid
  · rw [hb] at hid
    exact (Option.some.inj hid).symm

/-- Whatever is emitted is stated with the predecessor that belongs to its place. The induction is
on the rules; what is done is stated with everything inside it, so nothing is lost where a shared
sequence is not stated again. -/
theorem Makes.reports {task : Task} (hroot : Legible root) (h : Makes profile task p es q)
    (htask : task.Lies root p) (hp : Completed profile root p) :
    Reports profile root p task.blocks q ∧ task.Answers q es := by
  induction h with
  | leaf hfree hs =>
    obtain ⟨previous, hplaced, hheeds⟩ := htask
    exact Reports.node hplaced hheeds rfl hfree (.nil (hp.owned hfree _)) hs
  | known hkey hknown =>
    obtain ⟨previous, hplaced, _⟩ := htask
    have hnone := mainId?_of_shared (hroot.formed _ hplaced.within) (by rw [hkey]; rfl)
    have hdone := mem_keys_iff.mpr ⟨_, hknown⟩
    exact ⟨⟨.refl _, hp, hp _ hplaced.within _ hdone hkey⟩, answers_of_none hnone⟩
  | single hkey _ _ ih =>
    obtain ⟨previous, hplaced, _⟩ := htask
    have hnone := mainId?_of_shared (hroot.formed _ hplaced.within) (by rw [hkey]; rfl)
    obtain ⟨hinner, _⟩ := ih ⟨none, ⟨_, hplaced.within, List.mem_cons_self⟩, rfl⟩ hp
    have hunique := fun x hx hxk => hroot.unique x _ hx hplaced.within _ hxk hkey
    exact ⟨(Reports.of_children hnone hinner).sharing hkey hunique _, answers_of_none hnone⟩
  | shared hkey _ _ _ ih =>
    obtain ⟨previous, hplaced, _⟩ := htask
    have hnone := mainId?_of_shared (hroot.formed _ hplaced.within) (by rw [hkey]; rfl)
    obtain ⟨hinner, _⟩ := ih (lies_items hplaced.within _) (hp.opened _)
    have hunique := fun x hx hxk => hroot.unique x _ hx hplaced.within _ hxk hkey
    exact ⟨(Reports.sequence hnone hinner _).sharing hkey hunique _, answers_of_none hnone⟩
  | @plain n items key _ _ _ _ _ _ _ ih =>
    obtain ⟨previous, hplaced, _⟩ := htask
    have hnone : (Block.sequence n items none key).mainId? = none := rfl
    obtain ⟨hinner, _⟩ := ih (lies_items hplaced.within _) (hp.opened _)
    exact ⟨Reports.sequence hnone hinner _, answers_of_none hnone⟩
  | container _ hfree _ hs ih =>
    obtain ⟨previous, hplaced, hheeds⟩ := htask
    obtain ⟨hinner, _⟩ := ih (lies_items hplaced.within _) (hp.owned hfree _)
    exact Reports.node hplaced hheeds rfl hfree hinner hs
  | parallel hfree hsorted _ hs ih =>
    obtain ⟨previous, hplaced, hheeds⟩ := htask
    obtain ⟨hinner, _⟩ := ih (fun b hb => placed_of_mem_children hplaced.within rfl
      (hsorted.mem_iff.mp hb)) (hp.owned hfree _)
    refine Reports.node hplaced hheeds rfl hfree ?_ hs
    exact ⟨hinner.grows, hinner.completed, fun b hb => hinner.stated b (hsorted.mem_iff.mpr hb)⟩
  | conditional _ hfree _ _ hs ihtrue ihfalse =>
    obtain ⟨previous, hplaced, hheeds⟩ := htask
    obtain ⟨htrue, hfalse⟩ := lies_arms hroot hplaced.within
    obtain ⟨hq, _⟩ := ihtrue htrue (hp.owned hfree _)
    obtain ⟨hr, _⟩ := ihfalse hfalse hq.completed
    exact Reports.node hplaced hheeds rfl hfree (hq.append hr) hs
  | @outcome n node condition outcome onTrue onFalse port _ _ _ _ _ _ _ _ _ hport _ hfree _ _ hs
      ihtrue ihfalse =>
    obtain ⟨previous, hplaced, hheeds⟩ := htask
    obtain ⟨htrue, hfalse⟩ := lies_arms hroot hplaced.within
    obtain ⟨hq, _⟩ := ihtrue htrue (hp.owned hfree _)
    obtain ⟨hr, _⟩ := ihfalse hfalse hq.completed
    -- the identifier of the node belongs to its step, so the split stands for no node
    have hnone : (Block.branch n node condition onTrue onFalse port).mainId? = none := by
      cases port with
      | none => exact absurd rfl hport
      | some _ => rfl
    refine Reports.construct hplaced hheeds hfree (hq.append hr) (Template.statement_ident hs) ?_
    intro id hid
    rw [hnone] at hid
    cases hid
  | switch hfree _ hs ih =>
    obtain ⟨previous, hplaced, hheeds⟩ := htask
    obtain ⟨hinner, _⟩ := ih (lies_routes hroot hplaced.within) (hp.owned hfree _)
    exact Reports.node hplaced hheeds rfl hfree hinner hs
  | loop hfree _ hs ih =>
    obtain ⟨previous, hplaced, hheeds⟩ := htask
    obtain ⟨hinner, _⟩ := ih (lies_body hroot hplaced.within) (hp.owned hfree _)
    exact Reports.node hplaced hheeds rfl hfree hinner hs
  | itemsNil | routesNil | membersNil => exact ⟨.nil hp, trivial⟩
  | @itemsCons b rest previous ident es p q r _ _ ih ihrest =>
    obtain ⟨before, hplaced, hheeds⟩ := htask
    obtain ⟨hb, hrest⟩ := List.forall_mem_cons.mp hplaced
    obtain ⟨hq, hbound⟩ := ih ⟨before, hb, hheeds⟩ hp
    obtain ⟨hr, _⟩ := ihrest ⟨_, hrest, by
      split
      · exact rfl
      · exact fun id hid => ⟨ident, hbound id hid ident rfl, rfl⟩⟩ hq.completed
    exact ⟨hq.append hr, trivial⟩
  | armShared _ _ ih =>
    obtain ⟨hq, _⟩ := ih ⟨none, htask.1, rfl⟩ hp
    exact ⟨hq, trivial⟩
  | armPlain _ _ ih =>
    obtain ⟨hinner, _⟩ := ih (lies_items htask.1.within _) hp
    exact ⟨.of_children (mainId?_of_isChain htask.2) hinner, trivial⟩
  | routesCons _ _ ih ihrest =>
    obtain ⟨hb, hrest⟩ := List.forall_mem_cons.mp htask
    obtain ⟨hq, _⟩ := ih hb hp
    obtain ⟨hr, _⟩ := ihrest hrest hq.completed
    exact ⟨hq.append hr, trivial⟩
  | membersCons _ _ ih ihrest =>
    obtain ⟨hb, hrest⟩ := List.forall_mem_cons.mp htask
    obtain ⟨hq, _⟩ := ih ⟨none, hb, rfl⟩ hp
    obtain ⟨hr, _⟩ := ihrest hrest hq.completed
    exact ⟨hq.append hr, trivial⟩

end Makes

end WorkflowCompiler.Emission
