import Mathlib
import WorkflowCompiler.Proofs.Block.Occurrence
import WorkflowCompiler.Proofs.Emission.Reference
import WorkflowCompiler.Proofs.Fault
import WorkflowCompiler.Proofs.Identifier.Valid

/-! # Runs of an emission

What an emission does, as a relation: for every task, from which progress it leads to which, and
what it gives. There is one rule for every way in which a block is referred to. Whatever an emission
brings about is derived by these rules, so that a property of all emissions is proved once, by
induction over the rules.
-/
namespace WorkflowCompiler.Emission

namespace Progress

def fresh (p : Progress) (label : Text) : Text :=
  Identifier.Allocator.choose p.allocator.taken (Identifier.ofName label Identifier.nodeFallback)

theorem isValid_fresh (p : Progress) (label : Text) : Identifier.isValid (p.fresh label) = true :=
  Identifier.Allocator.isValid_choose
    (Identifier.isValid_ofName Identifier.led_nodeFallback label) _

def opened (p : Progress) (label : Text) : Progress :=
  { p with allocator := ⟨p.fresh label :: p.allocator.taken⟩ }

def owned (p : Progress) (key label : Text) : Progress :=
  { p.opened label with claimed := (key, p.fresh label) :: p.claimed }

def stating (p : Progress) (s : Statement) : Progress :=
  { p with statements := p.statements ++ [s] }

def sharing (p : Progress) (key ident : Text) : Progress :=
  { p with shared := (key, ident) :: p.shared }

end Progress

inductive Task where
  | whole (block : Block) (predecessor : Option Text)
  /-- Items one after the other, the first one behind `previous`. -/
  | items (blocks : List Block) (previous : Option Text)
  | arm (block : Block) (label ident exit : Text)
  | routes (routes : List (Exit × Block)) (label ident : Text)
  /-- Blocks that stand side by side. -/
  | members (blocks : List Block)

/-- A task leads from one progress to another and gives some expressions. -/
inductive Makes (profile : Profile) : Task → Progress → List Expression → Progress → Prop
  | leaf {n : Nat} {node : Node} {predecessor : Option Text} {p : Progress} {s : Statement}
    (hfree : node.id ∉ p.known)
    (hs : node.kind.template.statement profile node (p.fresh node.name) node.name {} predecessor =
      .ok s) :
    Makes profile (.whole (.leaf n node) predecessor) p [.name (p.fresh node.name)]
      ((p.owned node.id node.name).stating s)
  /-- A shared sequence that has been stated before. -/
  | known {b : Block} {key ident : Text} {predecessor : Option Text} {p : Progress}
    (hkey : b.sharedKey? = some key) (hknown : p.shared.lookup key = some ident) :
    Makes profile (.whole b predecessor) p [.name ident] p
  /-- A shared sequence of one item is referred to by that item. -/
  | single {n : Nat} {item : Block} {container : Option Node} {key : Option Text} {k ident : Text}
    {predecessor : Option Text} {p q : Progress}
    (hkey : (Block.sequence n [item] container key).sharedKey? = some k)
    (hnew : p.shared.lookup k = none) (h : Makes profile (.whole item none) p [.name ident] q) :
    Makes profile (.whole (.sequence n [item] container key) predecessor) p [.name ident]
      (q.sharing k ident)
  | shared {n : Nat} {items : List Block} {container : Option Node} {key : Option Text}
    {k label : Text} {refs : List Text} {predecessor : Option Text} {p q : Progress}
    (hkey : (Block.sequence n items container key).sharedKey? = some k)
    (hnew : p.shared.lookup k = none) (hitems : ∀ item, items ≠ [item])
    (h : Makes profile (.items items none) (p.opened label) (refs.map .name) q) :
    Makes profile (.whole (.sequence n items container key) predecessor) p [.name (p.fresh label)]
      ((q.stating (sequenceStatement profile label (p.fresh label) refs)).sharing k (p.fresh label))
  | plain {n : Nat} {items : List Block} {key : Option Text} {label : Text} {refs : List Text}
    {predecessor : Option Text} {p q : Progress}
    (hkey : (Block.sequence n items none key).sharedKey? = none)
    (h : Makes profile (.items items none) (p.opened label) (refs.map .name) q) :
    Makes profile (.whole (.sequence n items none key) predecessor) p [.name (p.fresh label)]
      (q.stating (sequenceStatement profile label (p.fresh label) refs))
  | container {n : Nat} {items : List Block} {node : Node} {key : Option Text} {refs : List Text}
    {predecessor : Option Text} {p q : Progress} {s : Statement}
    (hkey : (Block.sequence n items (some node) key).sharedKey? = none) (hfree : node.id ∉ p.known)
    (h : Makes profile (.items items none) (p.owned node.id node.name) (refs.map .name) q)
    (hs : node.kind.template.statement profile node (p.fresh node.name) node.name
      { children := some (.names refs) } predecessor = .ok s) :
    Makes profile (.whole (.sequence n items (some node) key) predecessor) p
      [.name (p.fresh node.name)] (q.stating s)
  | parallel {n : Nat} {node : Node} {members sorted : List Block} {join : JoinStrategy}
    {refs : List Text} {predecessor : Option Text} {p q : Progress} {s : Statement}
    (hfree : node.id ∉ p.known) (hsorted : sorted.Perm members)
    (h : Makes profile (.members sorted) (p.owned node.id node.name) (refs.map .name) q)
    (hs : node.kind.template.statement profile node (p.fresh node.name) node.name
      { members := some (.names refs), join := some (.str join.name) } predecessor = .ok s) :
    Makes profile (.whole (.parallel n node members join) predecessor) p
      [.name (p.fresh node.name)] (q.stating s)
  | conditional {n : Nat} {node : Node} {condition : Value} {onTrue onFalse : Block}
    {outcomePort : Option Text} {ifTrue ifFalse : Expression} {predecessor : Option Text}
    {p q r : Progress} {s : Statement} (hport : outcomePort.getD [] = [])
    (hfree : node.id ∉ p.known)
    (htrue : Makes profile (.arm onTrue node.name (p.fresh node.name) "true")
      (p.owned node.id node.name) [ifTrue] q)
    (hfalse : Makes profile (.arm onFalse node.name (p.fresh node.name) "false") q [ifFalse] r)
    (hs : node.kind.template.statement profile node (p.fresh node.name) node.name
      { condition := some condition, ifTrue := some ifTrue, ifFalse := some ifFalse }
      predecessor = .ok s) :
    Makes profile (.whole (.branch n node condition onTrue onFalse outcomePort) predecessor) p
      [.name (p.fresh node.name)] (r.stating s)
  /-- A split by the outcome of a step, under a key of its own. -/
  | outcome {n : Nat} {node : Node} {condition outcome : Value} {onTrue onFalse : Block}
    {outcomePort : Option Text} {success failure : Text} {ifTrue ifFalse : Expression}
    {predecessor : Option Text} {p q r : Progress} {s : Statement}
    (hport : outcomePort.getD [] ≠ []) (hports : node.kind.outcomePorts? = some (success, failure))
    (hfree : Block.branchKey node outcomePort ∉ p.known)
    (htrue : Makes profile (.arm onTrue node.name (p.fresh (node.name ++ " outcome")) success)
      (p.owned (Block.branchKey node outcomePort) (node.name ++ " outcome")) [ifTrue] q)
    (hfalse : Makes profile (.arm onFalse node.name (p.fresh (node.name ++ " outcome")) failure) q
      [ifFalse] r)
    (hs : Template.statement .outcomeSplit profile node (p.fresh (node.name ++ " outcome"))
      (node.name ++ " outcome")
      { condition := some outcome, ifTrue := some ifTrue, ifFalse := some ifFalse }
      predecessor = .ok s) :
    Makes profile (.whole (.branch n node condition onTrue onFalse outcomePort) predecessor) p
      [.name (p.fresh (node.name ++ " outcome"))] (r.stating s)
  | switch {n : Nat} {node : Node} {routes : List (Exit × Block)} {arms : List Expression}
    {predecessor : Option Text} {p q : Progress} {s : Statement} (hfree : node.id ∉ p.known)
    (h : Makes profile (.routes routes node.name (p.fresh node.name)) (p.owned node.id node.name)
      arms q)
    (hs : node.kind.template.statement profile node (p.fresh node.name) node.name
      { routes := some (.list arms) } predecessor = .ok s) :
    Makes profile (.whole (.switch n node routes) predecessor) p [.name (p.fresh node.name)]
      (q.stating s)
  | loop {n : Nat} {node : Node} {body : Block} {kind : LoopKind} {params : Members}
    {inner : Expression} {predecessor : Option Text} {p q : Progress} {s : Statement}
    (hfree : node.id ∉ p.known)
    (h : Makes profile (.arm body node.name (p.fresh node.name) "body") (p.owned node.id node.name)
      [inner] q)
    (hs : node.kind.template.statement profile node (p.fresh node.name) node.name
      { body := some (if profile.bodyAsList then .list [inner] else inner) } predecessor = .ok s) :
    Makes profile (.whole (.loop n node body kind params) predecessor) p
      [.name (p.fresh node.name)] (q.stating s)
  | itemsNil {previous : Option Text} {p : Progress} : Makes profile (.items [] previous) p [] p
  | itemsCons {b : Block} {rest : List Block} {previous : Option Text} {ident : Text}
    {es : List Expression} {p q r : Progress}
    (h : Makes profile (.whole b previous) p [.name ident] q)
    (hrest : Makes profile
      (.items rest (if b.sharedKey?.isSome then none else some ident)) q es r) :
    Makes profile (.items (b :: rest) previous) p (.name ident :: es) r
  | armShared {b : Block} {label ident exit : Text} {e : Expression} {p q : Progress}
    (hkey : b.sharedKey?.isSome) (h : Makes profile (.whole b none) p [e] q) :
    Makes profile (.arm b label ident exit) p [e] q
  | armPlain {n : Nat} {items : List Block} {container : Option Node} {key : Option Text}
    {label ident exit : Text} {refs : List Text} {p q : Progress}
    (hkey : (Block.sequence n items container key).sharedKey? = none)
    (h : Makes profile (.items items none) p (refs.map .name) q) :
    Makes profile (.arm (.sequence n items container key) label ident exit) p
      [.call (profile.construct .sequence)
        (sequenceArguments profile (label ++ " " ++ exit) (ident ++ "_" ++ exit) refs)] q
  | routesNil {label ident : Text} {p : Progress} : Makes profile (.routes [] label ident) p [] p
  | routesCons {exit : Exit} {b : Block} {rest : List (Exit × Block)} {label ident : Text}
    {inner : Expression} {es : List Expression} {p q r : Progress}
    (h : Makes profile (.arm b label ident exit.port) p [inner] q)
    (hrest : Makes profile (.routes rest label ident) q es r) :
    Makes profile (.routes ((exit, b) :: rest) label ident) p (.pair exit.label inner :: es) r
  | membersNil {p : Progress} : Makes profile (.members []) p [] p
  | membersCons {b : Block} {rest : List Block} {ident : Text} {es : List Expression}
    {p q r : Progress} (h : Makes profile (.whole b none) p [.name ident] q)
    (hrest : Makes profile (.members rest) q es r) :
    Makes profile (.members (b :: rest)) p (.name ident :: es) r

/-! ## Every emission is derived -/

/-- A block, and the items of a sequence, are emitted by the rules. -/
structure Derived (profile : Profile) (b : Block) : Prop where
  whole : ∀ p predecessor, Does True (reference profile b predecessor) p
    fun ident q => Makes profile (.whole b predecessor) p [.name ident] q
  items : ∀ n items container key, b = .sequence n items container key → ∀ p,
    Does True (itemReferences profile b) p
      fun refs q => Makes profile (.items items none) p (refs.map .name) q

section Actions
variable {p : Progress}

theorem does_allocate_fresh (label : Text) : Does True (allocate label) p
    fun ident q => ident = p.fresh label ∧ q = p.opened label := ⟨rfl, rfl⟩

theorem does_claim_owned (key label : Text) : Does True (claim key label) p
    fun ident q => key ∉ p.known ∧ ident = p.fresh label ∧ q = p.owned key label := by
  refine Does.bind (does_get (P := fun a q => a = p ∧ q = p) ⟨rfl, rfl⟩) ?_
  rintro _ _ ⟨rfl, rfl⟩
  split
  · trivial
  next hfree =>
    refine (does_allocate_fresh label).bind ?_
    rintro _ _ ⟨rfl, rfl⟩
    exact ⟨lookup_eq_none.mp (Option.not_isSome_iff_eq_none.mp hfree), rfl, rfl⟩

theorem does_stated_node {profile : Profile} {template : Template} {node : Node}
    {ident label : Text} {parts : Parts} {predecessor : Option Text} :
    Does True (do
      stateNode profile template node ident label parts predecessor
      return ident) p fun result q => result = ident ∧ ∃ s,
        template.statement profile node ident label parts predecessor = .ok s ∧ q = p.stating s := by
  refine Does.bind (does_stateNode (P := fun _ q => ∃ s,
    template.statement profile node ident label parts predecessor = .ok s ∧ q = p.stating s)
    (Or.inr trivial) fun s hs => ⟨s, hs, rfl⟩) fun _ q hq => ?_
  exact does_pure ⟨rfl, hq⟩

end Actions

section Derived
variable {profile : Profile}

theorem does_items {bs : List Block} (h : ∀ b ∈ bs, Derived profile b) (p : Progress)
    (previous : Option Text) : Does True (references profile bs previous) p
      fun refs q => Makes profile (.items bs previous) p (refs.map .name) q := by
  induction bs generalizing p previous with
  | nil =>
    rw [references]
    exact does_pure .itemsNil
  | cons b rest ih =>
    obtain ⟨hb, hrest⟩ := List.forall_mem_cons.mp h
    rw [references]
    refine (hb.whole p previous).bind fun ident q hq => ?_
    refine (ih hrest q _).bind fun refs r hr => ?_
    exact does_pure (.itemsCons hq hr)

theorem does_arm_made {b : Block} (h : Derived profile b) (p : Progress)
    (label ident exit : Text) :
    Does True (arm profile b (reference profile b none) (itemReferences profile b) label ident exit)
      p fun e q => Makes profile (.arm b label ident exit) p [e] q := by
  cases b with
  | sequence n items container key =>
    rw [arm]
    split
    next hkey => exact (h.whole p none).bind fun whole q hq => does_pure (.armShared hkey hq)
    next hkey =>
      refine (h.items _ _ _ _ rfl p).bind fun refs q hq => does_pure (.armPlain ?_ hq)
      simpa using hkey
  | absent | leaf _ _ | parallel _ _ _ _ | branch _ _ _ _ _ _ | switch _ _ _ | loop _ _ _ _ _ =>
    trivial

theorem does_routes {routes : List (Exit × Block)} (h : ∀ r ∈ routes, Derived profile r.2)
    (p : Progress) (label ident : Text) :
    Does True (routeReferences profile routes label ident) p
      fun es q => Makes profile (.routes routes label ident) p es q := by
  induction routes generalizing p with
  | nil =>
    rw [routeReferences]
    exact does_pure .routesNil
  | cons r rest ih =>
    obtain ⟨exit, b⟩ := r
    obtain ⟨hb, hrest⟩ := List.forall_mem_cons.mp h
    rw [routeReferences]
    refine (does_arm_made hb p label ident exit.port).bind fun inner q hq => ?_
    refine (ih hrest q).bind fun es r hr => ?_
    exact does_pure (.routesCons hq hr)

theorem does_sorted {members : List (Text × Block)} (h : ∀ x ∈ members, Derived profile x.2)
    (p : Progress) :
    Does True ((members.map fun x => (x.1, reference profile x.2 none)).mapM (·.2)) p
      fun refs q => Makes profile (.members (members.map (·.2))) p (refs.map .name) q := by
  induction members generalizing p with
  | nil => exact does_pure .membersNil
  | cons x rest ih =>
    obtain ⟨hx, hrest⟩ := List.forall_mem_cons.mp h
    rw [List.map_cons, List.mapM_cons]
    refine (hx.whole p none).bind fun ident q hq => ?_
    refine (ih hrest q).bind fun refs r hr => ?_
    exact does_pure (.membersCons hq hr)

theorem derived_of_whole {b : Block} (hitems : ∀ n items container key,
      b ≠ .sequence n items container key)
    (h : ∀ p predecessor, Does True (reference profile b predecessor) p
      fun ident q => Makes profile (.whole b predecessor) p [.name ident] q) : Derived profile b :=
  ⟨h, fun n items container key heq => absurd heq (hitems n items container key)⟩

theorem derived_leaf (n : Nat) (node : Node) : Derived profile (.leaf n node) := by
  refine derived_of_whole (by simp) fun p predecessor => ?_
  rw [reference]
  refine (does_claim_owned _ _).bind ?_
  rintro _ _ ⟨hfree, rfl, rfl⟩
  refine does_stated_node.mono ?_
  rintro _ _ ⟨rfl, s, hs, rfl⟩
  exact .leaf hfree hs

theorem does_named {bs : List Block} (h : ∀ b ∈ bs, Derived profile b) (p : Progress)
    (label : Text) : Does True (namedSequence profile label (references profile bs none)) p
      fun ident q => ∃ refs r, ident = p.fresh label ∧
        Makes profile (.items bs none) (p.opened label) (refs.map .name) r ∧
        q = r.stating (sequenceStatement profile label ident refs) := by
  refine (does_allocate_fresh label).bind ?_
  rintro _ _ ⟨rfl, rfl⟩
  refine (does_items h (p.opened label) none).bind fun refs r hr => ?_
  exact ⟨refs, r, rfl, hr, rfl⟩

theorem does_once {key : Text} {stated : Emitting Text} {p : Progress}
    {P : Text → Progress → Prop} (hknown : ∀ ident, p.shared.lookup key = some ident → P ident p)
    (hnew : p.shared.lookup key = none →
      Does True stated p fun ident q => P ident (q.sharing key ident)) :
    Does True (once key stated) p P := by
  cases hkey : p.shared.lookup key with
  | some ident => exact does_once_known hkey (hknown ident hkey)
  | none => exact does_once_new hkey (hnew hkey)

theorem derived_sequence {n : Nat} {items : List Block} {container : Option Node}
    {key : Option Text} (h : ∀ b ∈ items, Derived profile b) :
    Derived profile (.sequence n items container key) := by
  refine ⟨fun p predecessor => ?_, ?_⟩
  · unfold reference
    cases hkey : (Block.sequence n items container key).sharedKey? with
    | some k =>
      refine does_once (fun ident hknown => .known hkey hknown) fun hnew => ?_
      split
      next item =>
        exact ((h item (by simp)).whole p none).mono fun ident q hq => .single hkey hnew hq
      next hitems =>
        refine Does.bind (does_lift (P := fun _ q => p = q) (Or.inr trivial) fun _ _ => rfl) ?_
        rintro label _ rfl
        refine (does_named h p label).mono ?_
        rintro _ _ ⟨refs, r, rfl, hr, rfl⟩
        exact .shared hkey hnew hitems hr
    | none =>
      cases container with
      | none =>
        refine Does.bind (does_lift (P := fun _ q => p = q) (Or.inr trivial) fun _ _ => rfl) ?_
        rintro label _ rfl
        refine (does_named h p label).mono ?_
        rintro _ _ ⟨refs, r, rfl, hr, rfl⟩
        exact .plain hkey hr
      | some node =>
        refine (does_claim_owned _ _).bind ?_
        rintro _ _ ⟨hfree, rfl, rfl⟩
        refine (does_items h _ none).bind fun refs r hr => ?_
        refine does_stated_node.mono ?_
        rintro _ _ ⟨rfl, s, hs, rfl⟩
        exact .container hkey hfree hr hs
  · rintro _ _ _ _ ⟨⟩ p
    rw [itemReferences]
    exact does_items h p none

theorem derived_parallel {n : Nat} {node : Node} {members : List Block} {join : JoinStrategy}
    (h : ∀ b ∈ members, Derived profile b) : Derived profile (.parallel n node members join) := by
  refine derived_of_whole (by simp) fun p predecessor => ?_
  unfold reference
  refine (does_claim_owned _ _).bind ?_
  rintro _ _ ⟨hfree, rfl, rfl⟩
  refine (does_heads (fun _ _ => Or.inr trivial) _).bind ?_
  rintro heads _ ⟨hlength, rfl⟩
  have hkeys : (heads.map (·.1)).length = members.length := by simpa using hlength
  obtain ⟨sorted, hperm, hsorted⟩ := exists_sorted profile hkeys
  rw [hsorted]
  have hmembers : ∀ x ∈ sorted, Derived profile x.2 :=
    fun x hx => h x.2 (hperm.mem_iff.mp (List.mem_map_of_mem hx))
  refine (does_sorted hmembers _).bind fun refs r hr => ?_
  refine does_stated_node.mono ?_
  rintro _ _ ⟨rfl, s, hs, rfl⟩
  exact .parallel hfree hperm hr hs

theorem derived_branch {n : Nat} {node : Node} {condition : Value} {onTrue onFalse : Block}
    {outcomePort : Option Text} (h : Derived profile onTrue) (h' : Derived profile onFalse) :
    Derived profile (.branch n node condition onTrue onFalse outcomePort) := by
  refine derived_of_whole (by simp) fun p predecessor => ?_
  unfold reference
  by_cases hport : outcomePort.getD [] = []
  · have hkey : Block.branchKey node outcomePort = node.id := by rw [Block.branchKey, if_pos hport]
    simp only [hport, if_true, hkey]
    refine (does_claim_owned _ _).bind ?_
    rintro _ _ ⟨hfree, rfl, rfl⟩
    refine (does_arm_made h _ _ _ _).bind fun ifTrue q hq => ?_
    refine (does_arm_made h' _ _ _ _).bind fun ifFalse r hr => ?_
    refine does_stated_node.mono ?_
    rintro _ _ ⟨rfl, s, hs, rfl⟩
    exact .conditional hport hfree hq hr hs
  · simp only [hport, if_false]
    refine Does.bind (does_get (P := fun a q => p = q) rfl) ?_
    rintro _ _ rfl
    refine (does_claim_owned _ _).bind ?_
    rintro _ _ ⟨hfree, rfl, rfl⟩
    split
    · trivial
    next success failure hports =>
      refine (does_arm_made h _ _ _ _).bind fun ifTrue q hq => ?_
      refine (does_arm_made h' _ _ _ _).bind fun ifFalse r hr => ?_
      refine does_stated_node.mono ?_
      rintro _ _ ⟨rfl, s, hs, rfl⟩
      exact .outcome hport hports hfree hq hr hs

theorem derived_switch {n : Nat} {node : Node} {routes : List (Exit × Block)}
    (h : ∀ r ∈ routes, Derived profile r.2) : Derived profile (.switch n node routes) := by
  refine derived_of_whole (by simp) fun p predecessor => ?_
  unfold reference
  refine (does_claim_owned _ _).bind ?_
  rintro _ _ ⟨hfree, rfl, rfl⟩
  refine (does_routes h _ _ _).bind fun arms q hq => ?_
  refine does_stated_node.mono ?_
  rintro _ _ ⟨rfl, s, hs, rfl⟩
  exact .switch hfree hq hs

theorem derived_loop {n : Nat} {node : Node} {body : Block} {kind : LoopKind} {params : Members}
    (h : Derived profile body) : Derived profile (.loop n node body kind params) := by
  refine derived_of_whole (by simp) fun p predecessor => ?_
  unfold reference
  refine (does_claim_owned _ _).bind ?_
  rintro _ _ ⟨hfree, rfl, rfl⟩
  refine (does_arm_made h _ _ _ _).bind fun inner q hq => ?_
  refine does_stated_node.mono ?_
  rintro _ _ ⟨rfl, s, hs, rfl⟩
  exact .loop hfree hq hs

theorem derived (b : Block) : Derived profile b := by
  induction b using Block.children_induction with
  | step b ih =>
    cases b with
    | absent => exact derived_of_whole (by simp) fun _ _ => trivial
    | leaf n node => exact derived_leaf n node
    | sequence n items container key => exact derived_sequence ih
    | parallel n node members join => exact derived_parallel ih
    | branch n node condition onTrue onFalse port =>
      exact derived_branch (ih onTrue (by simp [Block.children]))
        (ih onFalse (by simp [Block.children]))
    | switch n node routes =>
      exact derived_switch fun r hr => ih r.2 (List.mem_map_of_mem hr)
    | loop n node body kind params => exact derived_loop (ih body (by simp [Block.children]))

end Derived

def topBlocks (block : Block) : List Block :=
  match block with
  | .sequence _ items none _ => if block.sharedKey?.isNone then items else [block]
  | _ => [block]

theorem makes_of_ofBlock {profile : Profile} {name : Text} {block : Block} {program : Program}
    (h : Program.ofBlock profile name block = .ok program) :
    ∃ refs q, Makes profile (.items (topBlocks block) none) (.start profile) (refs.map .name) q ∧
      program = ⟨q.statements, rootStatement profile name refs⟩ := by
  obtain ⟨⟨refs, q⟩, hrun, hmade⟩ := exists_of_bind_eq_ok h
  have hwhole : Does True (do return [← reference profile block none]) (.start profile)
      fun refs q => Makes profile (.items [block] none) (.start profile) (refs.map .name) q :=
    ((derived block).whole _ none).bind fun ident q hq => does_pure (.itemsCons hq .itemsNil)
  have hdoes : Does True (topReferences profile block) (.start profile)
      fun refs q => Makes profile (.items (topBlocks block) none) (.start profile)
        (refs.map .name) q := by
    cases block with
    | sequence n items container key =>
      cases container with
      | none =>
        by_cases hkey : (Block.sequence n items none key).sharedKey?.isNone = true
        · simp only [topReferences, topBlocks, hkey, if_true]
          exact (derived _).items _ _ _ _ rfl _
        · simp only [topReferences, topBlocks, hkey]
          exact hwhole
      | some node => exact hwhole
    | absent | leaf _ _ | parallel _ _ _ _ | branch _ _ _ _ _ _ | switch _ _ _ | loop _ _ _ _ _ =>
      exact hwhole
  rw [Does, hrun] at hdoes
  cases hmade
  exact ⟨refs, q, hdoes, rfl⟩

end WorkflowCompiler.Emission
