import Mathlib
import WorkflowCompiler.Proofs.Block.Occurrence
import WorkflowCompiler.Proofs.Validation.Sound
import WorkflowCompiler.Resolution.Basic

/-! # Runs of the resolution

What a resolution does that ends well. Every node leads to strands of chains: those inside it, and
the one with which its own chain goes on. The resolution of a node is a sequence of events, each of
which resolves a chain of a strand or makes a block, and the blocks of the node are assembled from
what the strands give.
-/
namespace WorkflowCompiler.Resolution

/-- An action ends well: it leads from one state of progress to another one and gives a result. -/
def Runs {α : Type} (x : Resolving α) (p : Progress) (a : α) (q : Progress) : Prop :=
  x.run p = .ok a q

def Progress.advance (p : Progress) : Progress := { p with next := p.next + 1 }

section Actions
variable {α β : Type} {p q : Progress}

@[simp] theorem runs_pure {a b : α} : Runs (pure a) p b q ↔ b = a ∧ q = p := by
  constructor
  · intro h
    cases h
    exact ⟨rfl, rfl⟩
  · rintro ⟨rfl, rfl⟩
    rfl

theorem runs_bind {x : Resolving α} {f : α → Resolving β} {b : β} :
    Runs (x >>= f) p b q ↔ ∃ a r, Runs x p a r ∧ Runs (f a) r b q := by
  simp only [Runs, EStateM.run_bind]
  cases hx : x.run p with
  | ok a r => simp
  | error fault r => simp

@[simp] theorem not_runs_throw {fault : Fault} {a : α} :
    ¬ Runs (throw fault : Resolving α) p a q := by
  intro h
  cases h

@[simp] theorem runs_get {a : Progress} : Runs get p a q ↔ a = p ∧ q = p := by
  constructor
  · intro h
    cases h
    exact ⟨rfl, rfl⟩
  · rintro ⟨rfl, rfl⟩
    rfl

@[simp] theorem runs_modify {f : Progress → Progress} {a : PUnit} :
    Runs (modify f) p a q ↔ q = f p := by
  constructor
  · intro h
    cases h
    rfl
  · rintro rfl
    rfl

@[simp] theorem runs_freshSerial {n : Nat} :
    Runs freshSerial p n q ↔ n = p.next ∧ q = p.advance := by
  constructor
  · intro h
    cases h
    exact ⟨rfl, rfl⟩
  · rintro ⟨rfl, rfl⟩
    rfl

@[simp] theorem runs_ofExcept {e : Except Fault α} {a : α} :
    Runs (MonadExcept.ofExcept e) p a q ↔ e = .ok a ∧ q = p := by
  cases e with
  | error fault => simp [MonadExcept.ofExcept]
  | ok b => simp [MonadExcept.ofExcept, eq_comm]

@[simp] theorem runs_newLeaf {node : Node} {b : Block} :
    Runs (newLeaf node) p b q ↔ b = .leaf p.next node ∧ q = p.advance := by
  simp only [newLeaf, runs_bind, runs_freshSerial, runs_pure]
  constructor
  · rintro ⟨_, _, ⟨rfl, rfl⟩, h⟩
    exact h
  · exact fun h => ⟨_, _, ⟨rfl, rfl⟩, h⟩

@[simp] theorem runs_newSequence {items : List Block} {container : Option Node}
    {key : Option Text} {b : Block} : Runs (newSequence items container key) p b q ↔
      b = .sequence p.next items container key ∧ q = p.advance := by
  simp only [newSequence, runs_bind, runs_freshSerial, runs_pure]
  constructor
  · rintro ⟨_, _, ⟨rfl, rfl⟩, h⟩
    exact h
  · exact fun h => ⟨_, _, ⟨rfl, rfl⟩, h⟩

end Actions

structure Call where
  owner : Option Text
  stop : List Text
  start : Text
  result : List Block

inductive Event where
  | call (call : Call)
  | make (block : Block)

def callsOf (events : List Event) : List Call :=
  events.filterMap fun | .call c => some c | .make _ => none

def makesOf (events : List Event) : List Block :=
  events.filterMap fun | .call _ => none | .make b => some b

/-- Events lead from one state of progress to another one, given how a chain does. -/
inductive Traces (resolves : Call → Progress → Progress → Prop) :
    Progress → List Event → Progress → Prop
  | nil {p : Progress} : Traces resolves p [] p
  | call {p q r : Progress} {c : Call} {events : List Event} :
    resolves c p q → Traces resolves q events r → Traces resolves p (.call c :: events) r
  | make {p r : Progress} {b : Block} {events : List Event} :
    b.serial = p.next → Traces resolves p.advance events r →
      Traces resolves p (.make b :: events) r

theorem Traces.append {resolves : Call → Progress → Progress → Prop} {p q r : Progress}
    {xs ys : List Event} (hx : Traces resolves p xs q) (hy : Traces resolves q ys r) :
    Traces resolves p (xs ++ ys) r := by
  induction hx with
  | nil => exact hy
  | call hc _ ih => exact .call hc (ih hy)
  | make hb _ ih => exact .make hb (ih hy)

theorem Traces.mono {resolves resolves' : Call → Progress → Progress → Prop}
    (h : ∀ c p q, resolves c p q → resolves' c p q) {p q : Progress} {events : List Event}
    (ht : Traces resolves p events q) : Traces resolves' p events q := by
  induction ht with
  | nil => exact .nil
  | call hc _ ih => exact .call (h _ _ _ hc) ih
  | make hb _ ih => exact .make hb ih

/-- Chains that begin side by side, inside the same guarded arm if there is one. -/
structure Strand where
  guards : List Guard
  owner : Option Text
  stop : List Text
  starts : List Text

/-- The strands inside a node: its arms, its body, its members. -/
def limbs (facts : Facts) (stop : List Text) (node : Node) : List Strand :=
  let targets := facts.targets node.id
  let arm : Text → Strand := fun port => ⟨[(node.id, port)], none, stop, targets port⟩
  match node.kind with
  | .sequential => [⟨[], none, stop, targets defaultPort⟩]
  | .parallel => (facts.allTargets node.id).map fun start => ⟨[], none, stop, [start]⟩
  | .conditional => [arm "true", arm "false"]
  | .router => (routeLabels node.config).map fun route => arm route.1
  | .loop => [⟨[(node.id, "loop")], none, node.id :: stop, targets "loop"⟩]
  | kind =>
    match kind.outcomePorts? with
    | none => []
    | some (success, failure) =>
      if (targets failure).isEmpty then [] else [arm success, arm failure]

def nexts (facts : Facts) (node : Node) : List Text :=
  let targets := facts.targets node.id
  match node.kind with
  | .sequential | .parallel | .conditional | .router => []
  | .loop => targets "exit"
  | kind =>
    match kind.outcomePorts? with
    | none => targets defaultPort
    | some (success, failure) => if (targets failure).isEmpty then targets success else []

/-- The arms of a step are those of its outcome, if the failure of it is provided for. -/
theorem limbs_step (facts : Facts) (stop : List Text) {node : Node}
    (h : node.kind.isContainer = false) : limbs facts stop node =
      match node.kind.outcomePorts? with
      | none => []
      | some (success, failure) =>
        if (facts.targets node.id failure).isEmpty then []
        else [⟨[(node.id, success)], none, stop, facts.targets node.id success⟩,
          ⟨[(node.id, failure)], none, stop, facts.targets node.id failure⟩] := by
  unfold limbs
  cases hk : node.kind <;> first | rfl | simp [NodeKind.isContainer, hk] at h

theorem nexts_step (facts : Facts) {node : Node} (h : node.kind.isContainer = false) :
    nexts facts node =
      match node.kind.outcomePorts? with
      | none => facts.targets node.id defaultPort
      | some (success, failure) =>
        if (facts.targets node.id failure).isEmpty then facts.targets node.id success else [] := by
  unfold nexts
  cases hk : node.kind <;> first | rfl | simp [NodeKind.isContainer, hk] at h

/-- The strand with which the chain of a node goes on. A single successor stays in the chain of
the merge point to which the chain belongs. -/
def continuation (facts : Facts) (owner : Option Text) (stop : List Text) (node : Node) : Strand :=
  ⟨[], if (nexts facts node).length = 1 then owner else none, stop, nexts facts node⟩

section Continuation
variable {facts : Facts} {owner : Option Text} {stop : List Text} {node : Node}

theorem continuation_of_single {next : Text} (h : nexts facts node = [next]) :
    continuation facts owner stop node = ⟨[], owner, stop, [next]⟩ := by
  simp [continuation, h]

theorem continuation_of_several (h : ∀ next, nexts facts node ≠ [next]) :
    continuation facts owner stop node = ⟨[], none, stop, nexts facts node⟩ := by
  have hlength : (nexts facts node).length ≠ 1 := by
    intro hone
    obtain ⟨next, hnext⟩ := List.length_eq_one_iff.mp hone
    exact h next hnext
  simp [continuation, hlength]

end Continuation

def strands (facts : Facts) (owner : Option Text) (stop : List Text) (node : Node) : List Strand :=
  limbs facts stop node ++ [continuation facts owner stop node]

/-- A strand with the chains that were resolved for it, the blocks that they give together, and
the sequence that was made around these if there was one. -/
structure Laid where
  strand : Strand
  calls : List Call
  content : List Block
  made : List Block

/-- The chains of a strand are resolved one after the other and joined; one alone may be taken as
it is. -/
structure Laid.Joins (l : Laid) : Prop where
  starts : l.calls.map (·.start) = l.strand.starts
  context : ∀ c ∈ l.calls, c.owner = l.strand.owner ∧ c.stop = l.strand.stop
  content : l.content = splice (l.calls.map (·.result)) ∨ l.calls.map (·.result) = [l.content]

/-- A block stands for the content of a strand: it is all of it, or a plain sequence around it. -/
def Laid.Wraps (l : Laid) (b : Block) : Prop :=
  (l.content = [b] ∧ l.made = []) ∨ ∃ n, b = .sequence n l.content none none ∧ l.made = [b]

/-- A sequence that stands for the content of a strand in an arm: it is shared and all of it, or else
a plain sequence around it. -/
def Laid.WrapsArm (l : Laid) (b : Block) : Prop :=
  (l.content = [b] ∧ l.made = [] ∧ b.sharedKey?.isSome) ∨
    (∀ item, l.content = [item] → item.sharedKey? = none) ∧
      ∃ n, b = .sequence n l.content none none ∧ l.made = [b]

theorem Laid.WrapsArm.wraps {l : Laid} {b : Block} (h : l.WrapsArm b) : l.Wraps b :=
  h.imp (fun h => ⟨h.1, h.2.1⟩) fun h => h.2

/-- A member of a parallel container that stands for the content of a strand: a single block is taken
as it is, and several get a plain sequence around them. -/
def Laid.WrapsMember (l : Laid) (b : Block) : Prop :=
  (l.content = [b] ∧ l.made = []) ∨
    2 ≤ l.content.length ∧ ∃ n, b = .sequence n l.content none none ∧ l.made = [b]

theorem Laid.WrapsMember.wraps {l : Laid} {b : Block} (h : l.WrapsMember b) : l.Wraps b :=
  h.imp_right fun h => h.2

/-- A strand that lies in no guarded arm, and around which no sequence was made. -/
structure Laid.Plain (l : Laid) : Prop where
  made : l.made = []
  guards : l.strand.guards = []

/-- The members of a parallel container stand for the contents of its strands that have any. -/
inductive MemberBlocks : List Laid → List Block → Prop
  | nil : MemberBlocks [] []
  | skip {l : Laid} {rest : List Laid} {members : List Block} :
    l.content = [] → l.made = [] → MemberBlocks rest members → MemberBlocks (l :: rest) members
  | cons {l : Laid} {rest : List Laid} {b : Block} {members : List Block} :
    l.WrapsMember b → MemberBlocks rest members → MemberBlocks (l :: rest) (b :: members)

/-- The blocks of a chain that begins with a node, assembled from the strands of the node. `heads`
are the blocks made for the node itself. -/
inductive Assembled (node : Node) : (heads : List Block) → List Laid → List Block → Prop
  | step {n : Nat} {rest : Laid} : node.kind.isContainer = false → rest.Plain →
    Assembled node [.leaf n node] [rest] (.leaf n node :: rest.content)
  | sequential {n : Nat} {inner rest : Laid} : node.kind = .sequential → inner.Plain →
    rest.Plain →
    Assembled node [.sequence n inner.content (some node) none] [inner, rest]
      (.sequence n inner.content (some node) none :: rest.content)
  | parallel {n : Nat} {inner : List Laid} {members : List Block} {join : JoinStrategy}
    {rest : Laid} : node.kind = .parallel →
    JoinStrategy.ofValue (node.settings.get "joinStrategy") = .ok join →
    MemberBlocks inner members → (∀ l ∈ inner, l.strand.guards = []) → rest.Plain →
    Assembled node [.parallel n node members join] (inner ++ [rest])
      (.parallel n node members join :: rest.content)
  | conditional {n : Nat} {condition : Value} {onTrue onFalse : Block} {a b rest : Laid} :
    node.kind = .conditional → condition = (node.settings.get? "condition").getD (.str "") →
    a.WrapsArm onTrue → b.WrapsArm onFalse →
    a.strand.guards = [(node.id, ("true" : Text))] →
    b.strand.guards = [(node.id, ("false" : Text))] →
    rest.Plain →
    Assembled node [.branch n node condition onTrue onFalse none] [a, b, rest]
      (.branch n node condition onTrue onFalse none :: rest.content)
  | outcome {m n : Nat} {success failure : Text} {onTrue onFalse : Block} {a b rest : Laid} :
    node.kind.outcomePorts? = some (success, failure) → a.WrapsArm onTrue → b.WrapsArm onFalse →
    a.strand.guards = [(node.id, success)] → b.strand.guards = [(node.id, failure)] →
    rest.Plain →
    Assembled node
      [.leaf m node, .branch n node (.str success) onTrue onFalse (some success)] [a, b, rest]
      (.leaf m node :: .branch n node (.str success) onTrue onFalse (some success) ::
        rest.content)
  | switch {n : Nat} {inner : List Laid} {routes : List (Exit × Block)} {rest : Laid} :
    node.kind = .router →
    routes.map (·.1) = (routeLabels node.config).map (fun label => ⟨label.2, label.1⟩) →
    List.Forall₂ (fun l r => l.WrapsArm r.2 ∧ l.strand.guards = [(node.id, r.1.port)])
      inner routes → rest.Plain →
    Assembled node [.switch n node routes] (inner ++ [rest])
      (.switch n node routes :: rest.content)
  | loop {n : Nat} {body : Block} {kind : LoopKind} {params : Members} {inner rest : Laid} :
    node.kind = .loop → LoopKind.ofValue (node.settings.get "loopType") = .ok kind →
    params = loopParams kind node.settings → inner.WrapsArm body →
    inner.strand.guards = [(node.id, ("loop" : Text))] → rest.Plain →
    Assembled node [.loop n node body kind params] [inner, rest]
      (.loop n node body kind params :: rest.content)

section Inversion
variable {facts : Facts} {chain : Option Text → List Text → Text → Resolving (List Block)}
  {stop : List Text} {p q : Progress}

/-- What a call of a chain does to the progress. -/
def Resolves (chain : Option Text → List Text → Text → Resolving (List Block)) (c : Call)
    (p q : Progress) : Prop := Runs (chain c.owner c.stop c.start) p c.result q

@[simp] theorem callsOf_nil : callsOf [] = [] := rfl

@[simp] theorem makesOf_nil : makesOf [] = [] := rfl

@[simp] theorem callsOf_cons_call (c : Call) (events : List Event) :
    callsOf (.call c :: events) = c :: callsOf events := rfl

@[simp] theorem callsOf_cons_make (b : Block) (events : List Event) :
    callsOf (.make b :: events) = callsOf events := rfl

@[simp] theorem makesOf_cons_call (c : Call) (events : List Event) :
    makesOf (.call c :: events) = makesOf events := rfl

@[simp] theorem makesOf_cons_make (b : Block) (events : List Event) :
    makesOf (.make b :: events) = b :: makesOf events := rfl

@[simp] theorem callsOf_append (xs ys : List Event) :
    callsOf (xs ++ ys) = callsOf xs ++ callsOf ys := List.filterMap_append

@[simp] theorem makesOf_append (xs ys : List Event) :
    makesOf (xs ++ ys) = makesOf xs ++ makesOf ys := List.filterMap_append

theorem callsOf_calls (cs : List Call) : callsOf (cs.map .call) = cs := by
  simp [callsOf, List.filterMap_map]

theorem makesOf_calls (cs : List Call) : makesOf (cs.map .call) = [] := by
  simp [makesOf, List.filterMap_map]

theorem callsOf_makes (bs : List Block) : callsOf (bs.map .make) = [] := by
  simp [callsOf, List.filterMap_map]

theorem makesOf_makes (bs : List Block) : makesOf (bs.map .make) = bs := by
  simp [makesOf, List.filterMap_map]

theorem traces_of_mapM {owner : Option Text} {starts : List Text} {chains : List (List Block)}
    (h : Runs (starts.mapM (chain owner stop)) p chains q) :
    ∃ cs : List Call, Traces (Resolves chain) p (cs.map .call) q ∧ cs.map (·.start) = starts ∧
      cs.map (·.result) = chains ∧ ∀ c ∈ cs, c.owner = owner ∧ c.stop = stop := by
  induction starts generalizing p chains with
  | nil =>
    simp only [List.mapM_nil, runs_pure] at h
    obtain ⟨rfl, rfl⟩ := h
    exact ⟨[], .nil, rfl, rfl, by simp⟩
  | cons start rest ih =>
    simp only [List.mapM_cons, runs_bind, runs_pure] at h
    obtain ⟨result, r, hr, results, r', hrest, rfl, rfl⟩ := h
    obtain ⟨cs, ht, hstarts, hresults, hctx⟩ := ih hrest
    refine ⟨⟨owner, stop, start, result⟩ :: cs, .call hr ht, by simp [hstarts],
      by simp [hresults], ?_⟩
    intro c hc
    rcases List.mem_cons.mp hc with rfl | hc
    · exact ⟨rfl, rfl⟩
    · exact hctx c hc

/-- The events of a strand: first its chains, then the sequence around them. -/
def Laid.events (l : Laid) : List Event := l.calls.map .call ++ l.made.map .make

@[simp] theorem callsOf_events (l : Laid) : callsOf l.events = l.calls := by
  simp [Laid.events, callsOf_calls, callsOf_makes]

@[simp] theorem makesOf_events (l : Laid) : makesOf l.events = l.made := by
  simp [Laid.events, makesOf_calls, makesOf_makes]

theorem joined_runs (guards : List Guard) {owner : Option Text} {starts : List Text}
    {items : List Block} (h : Runs (joined (chain owner stop) starts) p items q) :
    ∃ l : Laid, l.strand = ⟨guards, owner, stop, starts⟩ ∧ l.Joins ∧ l.content = items ∧
      l.made = [] ∧ Traces (Resolves chain) p l.events q := by
  simp only [joined, runs_bind, runs_pure] at h
  obtain ⟨chains, r, hr, rfl, rfl⟩ := h
  obtain ⟨cs, ht, hstarts, hresults, hctx⟩ := traces_of_mapM hr
  refine ⟨⟨⟨guards, owner, stop, starts⟩, cs, splice chains, []⟩, rfl,
    ⟨hstarts, hctx, Or.inl (by simp [hresults])⟩, rfl, rfl, ?_⟩
  simpa [Laid.events] using ht

theorem single_runs (guards : List Guard) {owner : Option Text} {start : Text}
    {items : List Block} (h : Runs (chain owner stop start) p items q) :
    ∃ l : Laid, l.strand = ⟨guards, owner, stop, [start]⟩ ∧ l.Joins ∧ l.content = items ∧
      l.made = [] ∧ Traces (Resolves chain) p l.events q :=
  ⟨⟨⟨guards, owner, stop, [start]⟩, [⟨owner, stop, start, items⟩], items, []⟩, rfl,
    ⟨rfl, by simp, Or.inr rfl⟩, rfl, rfl, .call h .nil⟩

theorem wrap_runs {l : Laid} {n : Nat} {r : Progress} (hj : l.Joins) (hmade : l.made = [])
    (ht : Traces (Resolves chain) p l.events r) (hn : n = r.next) :
    ∃ l' : Laid, l'.strand = l.strand ∧ l'.Joins ∧ l'.content = l.content ∧
      l'.made = [.sequence n l.content none none] ∧
      Traces (Resolves chain) p l'.events r.advance := by
  refine ⟨{ l with made := [.sequence n l.content none none] }, rfl,
    ⟨hj.starts, hj.context, hj.content⟩, rfl, rfl, ?_⟩
  simp only [Laid.events, hmade, List.map_nil, List.append_nil] at ht
  exact ht.append (.make hn .nil)

theorem arm_runs (guards : List Guard) {owner : Option Text} {starts : List Text} {b : Block}
    (h : Runs (arm (chain owner stop) starts) p b q) :
    ∃ l : Laid, l.strand = ⟨guards, owner, stop, starts⟩ ∧ l.Joins ∧ l.WrapsArm b ∧
      Traces (Resolves chain) p l.events q := by
  simp only [arm, runs_bind] at h
  obtain ⟨items, r, hr, h⟩ := h
  obtain ⟨l, hs, hj, rfl, hmade, ht⟩ := joined_runs guards hr
  have hwrap : (∀ item, l.content = [item] → item.sharedKey? = none) →
      b = .sequence r.next l.content none none → q = r.advance →
      ∃ l' : Laid, l'.strand = ⟨guards, owner, stop, starts⟩ ∧ l'.Joins ∧ l'.WrapsArm b ∧
        Traces (Resolves chain) p l'.events q := by
    rintro hplain rfl rfl
    obtain ⟨l', hs', hj', hc, hw, ht'⟩ := wrap_runs hj hmade ht rfl
    exact ⟨l', hs'.trans hs, hj', Or.inr ⟨hc ▸ hplain, _, by rw [hc], hw⟩, ht'⟩
  split at h
  next item hc =>
    split at h
    next hshared =>
      simp only [runs_pure] at h
      obtain ⟨rfl, rfl⟩ := h
      exact ⟨l, hs, hj, Or.inl ⟨hc, hmade, hshared⟩, ht⟩
    next hplain =>
      simp only [runs_newSequence, ← hc] at h
      refine hwrap (fun x hx => ?_) h.1 h.2
      obtain rfl := List.singleton_inj.mp (hc.symm.trans hx)
      simpa using hplain
  next hseveral =>
    simp only [runs_newSequence] at h
    exact hwrap (fun x hx => absurd hx (hseveral x)) h.1 h.2

theorem arms_runs (id port port' : Text) {starts starts' : List Text} {b b' : Block} {r : Progress}
    (h : Runs (arm (chain none stop) starts) p b r)
    (h' : Runs (arm (chain none stop) starts') r b' q) :
    ∃ l l' : Laid, l.strand = ⟨[(id, port)], none, stop, starts⟩ ∧
      l'.strand = ⟨[(id, port')], none, stop, starts'⟩ ∧ (∀ x ∈ [l, l'], x.Joins) ∧
      l.WrapsArm b ∧ l'.WrapsArm b' ∧
      Traces (Resolves chain) p ([l, l'].flatMap Laid.events) q := by
  obtain ⟨l, hs, hj, hw, ht⟩ := arm_runs [(id, port)] h
  obtain ⟨l', hs', hj', hw', ht'⟩ := arm_runs [(id, port')] h'
  exact ⟨l, l', hs, hs', by simp [hj, hj'], hw, hw', by simpa using ht.append ht'⟩

theorem members_runs {starts : List Text} {bs : List Block}
    (h : Runs (members (chain none stop) starts) p bs q) :
    ∃ ls : List Laid, ls.map (·.strand) = starts.map (⟨[], none, stop, [·]⟩) ∧
      (∀ l ∈ ls, l.Joins) ∧ MemberBlocks ls bs ∧
      Traces (Resolves chain) p (ls.flatMap Laid.events) q := by
  induction starts generalizing p bs with
  | nil =>
    simp only [members, runs_pure] at h
    obtain ⟨rfl, rfl⟩ := h
    exact ⟨[], rfl, by simp, .nil, .nil⟩
  | cons start rest ih =>
    simp only [members, runs_bind] at h
    obtain ⟨items, r, hr, h⟩ := h
    obtain ⟨l, hs, hj, rfl, hmade, ht⟩ := single_runs [] hr
    split at h
    next hc =>
      obtain ⟨ls, hss, hjs, hm, hts⟩ := ih h
      exact ⟨l :: ls, by simp [hs, hss], by simpa [hj] using hjs, .skip hc hmade hm,
        by simpa using ht.append hts⟩
    next b hc =>
      simp only [runs_bind, runs_pure] at h
      obtain ⟨bs, _, h, rfl, rfl⟩ := h
      obtain ⟨ls, hss, hjs, hm, hts⟩ := ih h
      exact ⟨l :: ls, by simp [hs, hss], by simpa [hj] using hjs, .cons (Or.inl ⟨hc, hmade⟩) hm,
        by simpa using ht.append hts⟩
    next hempty hsingle =>
      simp only [runs_bind, runs_pure, runs_newSequence] at h
      obtain ⟨_, _, ⟨rfl, rfl⟩, bs, _, h, rfl, rfl⟩ := h
      have hlength : 2 ≤ l.content.length := by
        match hc : l.content with
        | [] => exact absurd hc hempty
        | [b] => exact absurd hc (hsingle b)
        | _ :: _ :: _ => simp
      obtain ⟨l', hs', hj', hc, hw, ht'⟩ := wrap_runs hj hmade ht rfl
      have hmember : l'.WrapsMember (.sequence r.next l.content none none) := by
        rw [Laid.WrapsMember, hc]
        exact Or.inr ⟨hlength, _, rfl, hw⟩
      obtain ⟨ls, hss, hjs, hm, hts⟩ := ih h
      exact ⟨l' :: ls, by simp [hs', hs, hss], by simpa [hj'] using hjs, .cons hmember hm,
        by simpa using ht'.append hts⟩

theorem routes_runs (node : Node) {targets : Text → List Text} {labels : List (Text × Text)}
    {rs : List (Exit × Block)} (h : Runs (routes (chain none stop) targets labels) p rs q) :
    ∃ ls : List Laid,
      ls.map (·.strand) = labels.map (fun x => ⟨[(node.id, x.1)], none, stop, targets x.1⟩) ∧
      (∀ l ∈ ls, l.Joins) ∧ rs.map (·.1) = labels.map (fun x => ⟨x.2, x.1⟩) ∧
      List.Forall₂ (fun l r => l.WrapsArm r.2 ∧ l.strand.guards = [(node.id, r.1.port)]) ls rs ∧
      Traces (Resolves chain) p (ls.flatMap Laid.events) q := by
  induction labels generalizing p rs with
  | nil =>
    simp only [routes, runs_pure] at h
    obtain ⟨rfl, rfl⟩ := h
    exact ⟨[], rfl, by simp, rfl, .nil, .nil⟩
  | cons label rest ih =>
    obtain ⟨port, label⟩ := label
    simp only [routes, runs_bind, runs_pure] at h
    obtain ⟨b, r, hr, rs, _, h, rfl, rfl⟩ := h
    obtain ⟨l, hs, hj, hw, ht⟩ := arm_runs [(node.id, port)] hr
    obtain ⟨ls, hss, hjs, hexits, hf, hts⟩ := ih h
    exact ⟨l :: ls, by simp [hs, hss], by simpa [hj] using hjs, by simp [hexits],
      .cons ⟨hw, by simp [hs]⟩ hf, by simpa using ht.append hts⟩

/-- How the chain that begins with a node was resolved: the events of all its strands, what the
strands give, and the blocks made for the node itself. -/
structure Entry where
  node : Node
  events : List Event
  laid : List Laid
  heads : List Block

/-- An entry resolves the chain of a call: its events lay the strands of the node, and the blocks of
the chain are assembled from them. -/
structure Entry.Of (e : Entry) (facts : Facts) (c : Call) : Prop where
  node : facts.graph.node? c.start = some e.node
  strands : e.laid.map Laid.strand = strands facts c.owner c.stop e.node
  joins : ∀ l ∈ e.laid, l.Joins
  calls : callsOf e.events = e.laid.flatMap Laid.calls
  makes : (makesOf e.events).Perm (e.heads ++ e.laid.flatMap Laid.made)
  assembled : Assembled e.node e.heads e.laid c.result

theorem callsOf_flatMap_events (ls : List Laid) :
    callsOf (ls.flatMap Laid.events) = ls.flatMap Laid.calls := by
  induction ls with
  | nil => rfl
  | cons l rest ih => simp [ih]

theorem makesOf_flatMap_events (ls : List Laid) :
    makesOf (ls.flatMap Laid.events) = ls.flatMap Laid.made := by
  induction ls with
  | nil => rfl
  | cons l rest ih => simp [ih]

/-- The part of an entry that belongs to the node itself; only the continuation is open. -/
def Resolved (resolves : Call → Progress → Progress → Prop) (facts : Facts) (stop : List Text)
    (node : Node) (p : Progress) (blocks : List Block) (q : Progress) : Prop :=
  ∃ events inner heads, Traces resolves p events q ∧
    inner.map Laid.strand = limbs facts stop node ∧ (∀ l ∈ inner, l.Joins) ∧
    callsOf events = inner.flatMap Laid.calls ∧
    (makesOf events).Perm (heads ++ inner.flatMap Laid.made) ∧
    ∀ rest : Laid, rest.Plain → Assembled node heads (inner ++ [rest]) (blocks ++ rest.content)

theorem resolved_of_inner {resolves : Call → Progress → Progress → Prop} {node : Node}
    {blocks : List Block} (inner : List Laid) (b : Block)
    (ht : Traces resolves p (inner.flatMap Laid.events) q)
    (hs : inner.map Laid.strand = limbs facts stop node) (hj : ∀ l ∈ inner, l.Joins)
    (hb : b.serial = q.next)
    (ha : ∀ rest : Laid, rest.Plain →
      Assembled node [b] (inner ++ [rest]) (blocks ++ rest.content)) :
    Resolved resolves facts stop node p blocks q.advance := by
  refine ⟨inner.flatMap Laid.events ++ [.make b], inner, [b], ht.append (.make hb .nil), hs, hj,
    ?_, ?_, ha⟩
  · rw [callsOf_append, callsOf_flatMap_events]
    exact List.append_nil _
  · rw [makesOf_append, makesOf_flatMap_events]
    exact List.perm_append_comm

/-- The leaf of a step is made before the arms of its outcome, and their split behind them. -/
theorem resolved_of_outcome {resolves : Call → Progress → Progress → Prop} {node : Node}
    {success failure : Text} (hports : node.kind.outcomePorts? = some (success, failure))
    {a b : Laid} {onTrue onFalse : Block} (hs : [a, b].map Laid.strand = limbs facts stop node)
    (hj : ∀ l ∈ [a, b], l.Joins) (ht : Traces resolves p.advance ([a, b].flatMap Laid.events) q)
    (ha : a.WrapsArm onTrue) (hb : b.WrapsArm onFalse)
    (hsuccess : a.strand.guards = [(node.id, success)])
    (hfailure : b.strand.guards = [(node.id, failure)]) :
    Resolved resolves facts stop node p
      [.leaf p.next node, .branch q.next node (.str success) onTrue onFalse (some success)]
      q.advance := by
  refine ⟨.make (.leaf p.next node) :: ([a, b].flatMap Laid.events ++
    [.make (.branch q.next node (.str success) onTrue onFalse (some success))]), [a, b], _,
    .make rfl (ht.append (.make rfl .nil)), hs, hj, ?_, ?_,
    fun rest hrest => .outcome hports ha hb hsuccess hfailure hrest⟩
  · rw [callsOf_cons_make, callsOf_append, callsOf_flatMap_events]
    exact List.append_nil _
  · rw [makesOf_cons_make, makesOf_append, makesOf_flatMap_events]
    exact List.perm_append_comm.cons _

/-- The resolution of a node lays its limbs and makes its blocks. -/
theorem resolveNode_runs {node : Node} {blocks : List Block} {following : List Text}
    (h : Runs (resolveNode facts (chain none) stop node) p (blocks, following) q) :
    following = nexts facts node ∧ Resolved (Resolves chain) facts stop node p blocks q := by
  unfold resolveNode at h
  dsimp only at h
  split at h
  next hk =>
    simp only [runs_bind, runs_pure, runs_newSequence, Prod.mk.injEq] at h
    obtain ⟨items, r, hr, _, _, ⟨rfl, rfl⟩, ⟨rfl, rfl⟩, rfl⟩ := h
    obtain ⟨l, hs, hj, rfl, hmade, ht⟩ := joined_runs [] hr
    refine ⟨by simp [nexts, hk], resolved_of_inner [l]
      (.sequence r.next l.content (some node) none) (by simpa using ht) (by simp [hs, limbs, hk])
      (by simpa using hj) rfl ?_⟩
    intro rest hrest
    exact .sequential hk ⟨hmade, by simp [hs]⟩ hrest
  next hk =>
    simp only [runs_bind, runs_pure, runs_ofExcept, runs_freshSerial, Prod.mk.injEq] at h
    obtain ⟨bs, r, hr, join, _, ⟨hjoin, rfl⟩, n, _, ⟨rfl, rfl⟩, ⟨rfl, rfl⟩, rfl⟩ := h
    obtain ⟨ls, hs, hj, hm, ht⟩ := members_runs hr
    refine ⟨by simp [nexts, hk], resolved_of_inner ls (.parallel _ node bs join) ht
      (by simp [hs, limbs, hk]) hj rfl ?_⟩
    intro rest hrest
    refine .parallel hk hjoin hm ?_ hrest
    intro l hl
    have hmem : l.strand ∈ ls.map (·.strand) := List.mem_map_of_mem hl
    rw [hs] at hmem
    obtain ⟨_, _, he⟩ := List.mem_map.mp hmem
    rw [← he]
  next hk =>
    simp only [runs_bind, runs_pure, runs_freshSerial, Prod.mk.injEq] at h
    obtain ⟨onTrue, r, hr, onFalse, r', hr', n, _, ⟨rfl, rfl⟩, ⟨rfl, rfl⟩, rfl⟩ := h
    obtain ⟨a, b, hsa, hsb, hj, hwa, hwb, ht⟩ := arms_runs node.id "true" "false" hr hr'
    refine ⟨by simp [nexts, hk], resolved_of_inner [a, b]
      (.branch _ node ((node.settings.get? "condition").getD (.str "")) onTrue onFalse none) ht
      (by simp [hsa, hsb, limbs, hk]) hj rfl ?_⟩
    intro rest hrest
    exact .conditional hk rfl hwa hwb (by simp [hsa]) (by simp [hsb]) hrest
  next hk =>
    simp only [runs_bind, runs_pure, runs_freshSerial, Prod.mk.injEq] at h
    obtain ⟨rs, r, hr, n, _, ⟨rfl, rfl⟩, ⟨rfl, rfl⟩, rfl⟩ := h
    obtain ⟨ls, hs, hj, hexits, hf, ht⟩ := routes_runs node hr
    refine ⟨by simp [nexts, hk], resolved_of_inner ls (.switch _ node rs) ht
      (by simp [hs, limbs, hk]) hj rfl ?_⟩
    intro rest hrest
    exact .switch hk hexits hf hrest
  next hk =>
    simp only [runs_bind, runs_pure, runs_ofExcept, runs_freshSerial, Prod.mk.injEq] at h
    obtain ⟨body, r, hr, kind, _, ⟨hkind, rfl⟩, n, _, ⟨rfl, rfl⟩, ⟨rfl, rfl⟩, rfl⟩ := h
    obtain ⟨l, hs, hj, hw, ht⟩ := arm_runs [(node.id, ("loop" : Text))] hr
    refine ⟨by simp [nexts, hk], resolved_of_inner [l]
      (.loop _ node body kind (loopParams kind node.settings)) (by simpa using ht)
      (by simp [hs, limbs, hk]) (by simpa using hj) rfl ?_⟩
    intro rest hrest
    exact .loop hk hkind rfl hw (by simp [hs]) hrest
  next h1 h2 h3 h4 h5 =>
    -- what is left are the steps, with or without a wired failure port
    simp only [runs_bind, runs_newLeaf] at h
    obtain ⟨_, _, ⟨rfl, rfl⟩, h⟩ := h
    have hstep : node.kind.isContainer = false := by
      unfold NodeKind.isContainer
      split <;> first | contradiction | rfl
    have hlimbs := limbs_step facts stop hstep
    have hnexts := nexts_step facts hstep
    have hleaf : limbs facts stop node = [] → blocks = [.leaf p.next node] → q = p.advance →
        Resolved (Resolves chain) facts stop node p blocks q := by
      rintro hl rfl rfl
      exact resolved_of_inner [] (.leaf p.next node) .nil hl.symm (by simp) rfl
        fun rest hrest => .step hstep hrest
    split at h
    next hout =>
      simp only [hout] at hlimbs hnexts
      simp only [runs_pure, Prod.mk.injEq] at h
      obtain ⟨⟨rfl, rfl⟩, rfl⟩ := h
      exact ⟨hnexts.symm, hleaf hlimbs rfl rfl⟩
    next success failure hout =>
      simp only [hout] at hlimbs hnexts
      split at h
      next hempty =>
        simp only [hempty, if_true] at hlimbs hnexts
        simp only [runs_pure, Prod.mk.injEq] at h
        obtain ⟨⟨rfl, rfl⟩, rfl⟩ := h
        exact ⟨hnexts.symm, hleaf hlimbs rfl rfl⟩
      next hempty =>
        simp only [hempty] at hlimbs hnexts
        simp only [runs_bind, runs_pure, runs_freshSerial, Prod.mk.injEq] at h
        obtain ⟨onTrue, r, hr, onFalse, r', hr', n, _, ⟨rfl, rfl⟩, ⟨rfl, rfl⟩, rfl⟩ := h
        obtain ⟨a, b, hsa, hsb, hj, hwa, hwb, ht⟩ := arms_runs node.id success failure hr hr'
        exact ⟨hnexts.symm, resolved_of_outcome hout (by simp [hlimbs, hsa, hsb]) hj ht hwa hwb
          (by simp [hsa]) (by simp [hsb])⟩

/-- A chain that begins with a node which no other chain shares lays the strands of the node. -/
theorem enter_runs {owner : Option Text} {active : List Text} {id : Text} {items : List Block}
    (h : Runs (enter facts chain owner active stop id) p items q) :
    id ∉ active ∧ ∃ e : Entry, e.Of facts ⟨owner, stop, id, items⟩ ∧
      Traces (Resolves chain) p e.events q := by
  simp only [enter] at h
  split at h
  · simp only [runs_bind, not_runs_throw, false_and, exists_false] at h
  next hactive =>
  refine ⟨by simpa using hactive, ?_⟩
  split at h
  · exact absurd h not_runs_throw
  next node hnode =>
  simp only [runs_bind] at h
  obtain ⟨⟨blocks, following⟩, r, hr, h⟩ := h
  obtain ⟨rfl, events, inner, heads, ht, hs, hj, hcalls, hmakes, hassembled⟩ := resolveNode_runs hr
  have hrest : ∃ l : Laid, l.strand = continuation facts owner stop node ∧ l.Joins ∧
      items = blocks ++ l.content ∧ l.made = [] ∧ Traces (Resolves chain) r l.events q := by
    split at h
    next next hnext =>
      rw [continuation_of_single hnext]
      simp only [runs_bind, runs_pure] at h
      obtain ⟨rest, _, h, rfl, rfl⟩ := h
      obtain ⟨l, hl, hjl, rfl, hmade, htl⟩ := single_runs [] h
      exact ⟨l, hl, hjl, rfl, hmade, htl⟩
    next hnext =>
      rw [continuation_of_several hnext]
      simp only [runs_bind, runs_pure] at h
      obtain ⟨rest, _, h, rfl, rfl⟩ := h
      obtain ⟨l, hl, hjl, rfl, hmade, htl⟩ := joined_runs [] h
      exact ⟨l, hl, hjl, rfl, hmade, htl⟩
  obtain ⟨l, hl, hjl, rfl, hmade, htl⟩ := hrest
  refine ⟨⟨node, events ++ l.events, inner ++ [l], heads⟩,
    ⟨hnode, by simp [hs, hl, strands], ?_, by simp [hcalls], by simpa [hmade] using hmakes,
      hassembled l ⟨hmade, by simp [hl, continuation]⟩⟩, ht.append htl⟩
  intro x hx
  rcases List.mem_append.mp hx with hx | hx
  · exact hj x hx
  · rwa [List.mem_singleton.mp hx]

end Inversion

section Entry
variable {facts : Facts} {e : Entry} {c : Call}

theorem Entry.Of.node_id (h : e.Of facts c) : e.node.id = c.start :=
  (Graph.node?_eq_some h.node).2

theorem Entry.Of.strand_mem (h : e.Of facts c) {l : Laid} (hl : l ∈ e.laid) :
    l.strand ∈ Resolution.strands facts c.owner c.stop e.node :=
  h.strands ▸ List.mem_map_of_mem hl

/-- The chains that an entry resolves begin where the strands of its node do. -/
theorem Entry.Of.starts (he : e.Of facts c) : (callsOf e.events).map (·.start) =
    (Resolution.strands facts c.owner c.stop e.node).flatMap (·.starts) := by
  rw [he.calls, ← he.strands, List.map_flatMap, List.flatMap_map]
  have hstarts : ∀ l ∈ e.laid, l.calls.map (·.start) = l.strand.starts :=
    fun l hl => (he.joins l hl).starts
  exact List.flatMap_congr hstarts

/-- Every chain that an entry resolves belongs to one of the strands of its node. -/
theorem Entry.Of.call_strand (he : e.Of facts c) {c' : Call} (hc : c' ∈ callsOf e.events) :
    ∃ s ∈ Resolution.strands facts c.owner c.stop e.node,
      c'.start ∈ s.starts ∧ c'.owner = s.owner ∧ c'.stop = s.stop := by
  rw [he.calls] at hc
  obtain ⟨l, hl, hc⟩ := List.mem_flatMap.mp hc
  have hj := he.joins l hl
  exact ⟨l.strand, he.strand_mem hl, hj.starts ▸ List.mem_map_of_mem hc, hj.context c' hc⟩

end Entry

end WorkflowCompiler.Resolution
