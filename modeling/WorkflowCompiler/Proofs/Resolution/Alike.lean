import Mathlib
import WorkflowCompiler.Proofs.Block.Canonical
import WorkflowCompiler.Proofs.Fault
import WorkflowCompiler.Proofs.Resolution.Strands

/-! # Resolutions that are alike

Two resolutions from one kind of start come to the same blocks, up to layout and the order of
members, if what they ask of their graphs is answered alike. It is enough that this holds in a
region which no edge leaves: nothing else is ever asked for. The depths may differ, as long as both
exceed the number of nodes in the region.
-/
namespace WorkflowCompiler.Resolution
open Block

/-- A state of progress with its shared sequences in canonical form. -/
def Progress.canonical (p : Progress) : Progress :=
  { p with shared := p.shared.map fun s => (s.1, s.2.canonical) }

/-- What an action leaves, as seen through a function; nothing if it fails. -/
def outcome {α β : Type} (f : α → β) (x : Resolving α) (p : Progress) : Option (β × Progress) :=
  match x.run p with
  | .ok a q => some (f a, q.canonical)
  | .error _ _ => none

/-- Two actions leave the same from states of progress that are the same up to canonical form. -/
def Alike {α β : Type} (f : α → β) (x y : Resolving α) : Prop :=
  ∀ p q, p.canonical = q.canonical → outcome f x p = outcome f y q

section Actions
variable {α β γ δ : Type} {f : α → β} {g : γ → δ}

/-- What comes next may count on how the first action ended. -/
theorem Alike.bind_of_runs {x y : Resolving α} {k l : α → Resolving γ} (h : Alike f x y)
    (hk : ∀ {p a q b}, Runs x p a q → f a = f b → Alike g (k a) (l b)) :
    Alike g (x >>= k) (y >>= l) := by
  intro p q hpq
  have hxy := h p q hpq
  simp only [outcome, EStateM.run_bind] at hxy ⊢
  cases hx : x.run p with
  | error fault r =>
    cases hy : y.run q with
    | error fault' r' => rfl
    | ok b r' => simp [hx, hy] at hxy
  | ok a r =>
    cases hy : y.run q with
    | error fault' r' => simp [hx, hy] at hxy
    | ok b r' =>
      simp only [hx, hy, Option.some.injEq, Prod.mk.injEq] at hxy
      exact hk hx hxy.1 r r' hxy.2

theorem Alike.bind {x y : Resolving α} {k l : α → Resolving γ} (h : Alike f x y)
    (hk : ∀ a b, f a = f b → Alike g (k a) (l b)) : Alike g (x >>= k) (y >>= l) :=
  h.bind_of_runs fun _ hab => hk _ _ hab

theorem alike_pure {a b : α} (h : f a = f b) : Alike f (pure a) (pure b) := by
  intro p q hpq
  simp only [outcome, EStateM.run_pure, h, hpq]

theorem alike_throw (fault fault' : Fault) : Alike f (throw fault) (throw fault') :=
  fun _ _ _ => rfl

theorem alike_freshSerial : Alike id freshSerial freshSerial := by
  intro p q hpq
  have hfresh : ∀ r : Progress, outcome id freshSerial r =
      some (r.canonical.next, r.canonical.advance) := fun _ => rfl
  rw [hfresh, hfresh, hpq]

theorem alike_newLeaf {node node' : Node} (h : node.canonical = node'.canonical) :
    Alike canonical (newLeaf node) (newLeaf node') := by
  refine alike_freshSerial.bind fun n m hnm => alike_pure ?_
  obtain rfl : n = m := hnm
  rw [canonical, canonical, h]

theorem alike_newSequence {items items' : List Block} {container container' : Option Node}
    (hitems : items.map canonical = items'.map canonical)
    (hcontainer : container.map Node.canonical = container'.map Node.canonical)
    (key : Option Text) :
    Alike canonical (newSequence items container key) (newSequence items' container' key) := by
  refine alike_freshSerial.bind fun n m hnm => alike_pure ?_
  obtain rfl : n = m := hnm
  rw [canonical, canonical, canonicalAll_eq, canonicalAll_eq, hitems, hcontainer]

theorem alike_ofExcept {e e' : Except Fault α} (h : e.toOption = e'.toOption) :
    Alike id (MonadExcept.ofExcept e : Resolving α) (MonadExcept.ofExcept e') := by
  have hview := congrArg (Option.map id) h
  obtain ⟨fault, fault', rfl, rfl⟩ | ⟨a, _, rfl, rfl, rfl⟩ := cases_of_toOption_map_eq hview
  · exact fun _ _ _ => rfl
  · exact alike_pure rfl

theorem alike_mapM {x y : γ → Resolving α} {xs : List γ} (h : ∀ s ∈ xs, Alike f (x s) (y s)) :
    Alike (List.map f) (xs.mapM x) (xs.mapM y) := by
  induction xs with
  | nil => exact alike_pure rfl
  | cons s rest ih =>
    rw [List.mapM_cons, List.mapM_cons]
    refine (h s List.mem_cons_self).bind fun a b hab => ?_
    refine (ih fun t ht => h t (List.mem_cons_of_mem _ ht)).bind fun as bs habs => alike_pure ?_
    rw [List.map_cons, List.map_cons, hab, habs]

end Actions

section Chains
variable {follow follow' : Text → Resolving (List Block)}

theorem alike_joined {starts : List Text}
    (h : ∀ s ∈ starts, Alike (List.map canonical) (follow s) (follow' s)) :
    Alike (List.map canonical) (joined follow starts) (joined follow' starts) := by
  refine (alike_mapM h).bind fun chains chains' hchains => alike_pure ?_
  rw [← splice_canonical, hchains, splice_canonical]

theorem alike_arm {starts : List Text}
    (h : ∀ s ∈ starts, Alike (List.map canonical) (follow s) (follow' s)) :
    Alike canonical (arm follow starts) (arm follow' starts) := by
  refine (alike_joined h).bind fun items items' hitems => ?_
  have hnew : Alike canonical (newSequence items none none) (newSequence items' none none) :=
    alike_newSequence hitems rfl none
  rcases items with _ | ⟨item, _ | ⟨_, _⟩⟩
  · obtain rfl := List.map_eq_nil_iff.mp hitems.symm
    exact hnew
  · obtain ⟨item', rfl, hitem⟩ := List.map_eq_singleton_iff.mp hitems.symm
    have hkey : item.sharedKey? = item'.sharedKey? := by
      rw [← sharedKey?_canonical, ← hitem, sharedKey?_canonical]
    dsimp only
    rw [hkey]
    split
    · exact alike_pure hitem.symm
    · exact hnew
  · obtain ⟨_, _, rfl, _, htail⟩ := List.map_eq_cons_iff.mp hitems.symm
    obtain ⟨_, _, rfl, _, _⟩ := List.map_eq_cons_iff.mp htail
    exact hnew

theorem alike_members {starts : List Text}
    (h : ∀ s ∈ starts, Alike (List.map canonical) (follow s) (follow' s)) :
    Alike (List.map canonical) (members follow starts) (members follow' starts) := by
  induction starts with
  | nil => exact alike_pure rfl
  | cons start rest ih =>
    have hrest := ih fun s hs => h s (List.mem_cons_of_mem _ hs)
    rw [members, members]
    refine (h start List.mem_cons_self).bind fun items items' hitems => ?_
    have hcons : ∀ b b' : Block, b.canonical = b'.canonical →
        Alike (List.map canonical) (do return b :: (← members follow rest))
          (do return b' :: (← members follow' rest)) := by
      intro b b' hb
      refine hrest.bind fun bs bs' hbs => alike_pure ?_
      rw [List.map_cons, List.map_cons, hb, hbs]
    rcases items with _ | ⟨b, _ | ⟨_, _⟩⟩
    · obtain rfl := List.map_eq_nil_iff.mp hitems.symm
      exact hrest
    · obtain ⟨b', rfl, hb⟩ := List.map_eq_singleton_iff.mp hitems.symm
      exact hcons b b' hb.symm
    · obtain ⟨_, _, rfl, _, htail⟩ := List.map_eq_cons_iff.mp hitems.symm
      obtain ⟨_, _, rfl, _, _⟩ := List.map_eq_cons_iff.mp htail
      exact (alike_newSequence hitems rfl none).bind fun b b' hb => hcons b b' hb

theorem alike_routes {targets : Text → List Text} {labels : List (Text × Text)}
    (h : ∀ x ∈ labels, ∀ s ∈ targets x.1, Alike (List.map canonical) (follow s) (follow' s)) :
    Alike canonicalRoutes (routes follow targets labels) (routes follow' targets labels) := by
  induction labels with
  | nil => exact alike_pure rfl
  | cons label rest ih =>
    rw [routes, routes]
    refine (alike_arm (h label List.mem_cons_self)).bind fun b b' hb => ?_
    refine (ih fun x hx => h x (List.mem_cons_of_mem _ hx)).bind fun rs rs' hrs => alike_pure ?_
    rw [canonicalRoutes, canonicalRoutes, hb, hrs]

end Chains

section Nodes
variable {node node' : Node} (hnode : node.canonical = node'.canonical)
include hnode

theorem id_alike : node.id = node'.id := by rw [← node.id_canonical, hnode, node'.id_canonical]

theorem kind_alike : node.kind = node'.kind := by
  rw [← node.kind_canonical, hnode, node'.kind_canonical]

theorem get?_settings_alike (name : Text) :
    (node.settings.get? name).map Value.canonical =
      (node'.settings.get? name).map Value.canonical := by
  rw [← node.mirrors_settings name, hnode, node'.mirrors_settings name]

theorem get_settings_alike (name : Text) :
    (node.settings.get name).canonical = (node'.settings.get name).canonical := by
  rw [← node.mirrors_settings.get, hnode, node'.mirrors_settings.get]

theorem routeLabels_alike : routeLabels node.config = routeLabels node'.config := by
  rw [← routeLabels_canonical, ← Node.config_canonical, hnode, Node.config_canonical,
    routeLabels_canonical]

end Nodes

theorem ofValue_join_canonical {v w : Value} (h : v.canonical = w.canonical) :
    (JoinStrategy.ofValue v).toOption = (JoinStrategy.ofValue w).toOption := by
  have hview : ∀ v, (JoinStrategy.ofValue v).toOption = v.str?.bind JoinStrategy.ofName? := by
    intro v
    unfold JoinStrategy.ofValue
    cases v.str?.bind JoinStrategy.ofName? <;> rfl
  rw [hview, hview, ← Value.str?_canonical, h, Value.str?_canonical]

theorem ofValue_loop_canonical {v w : Value} (h : v.canonical = w.canonical) :
    (LoopKind.ofValue v).toOption = (LoopKind.ofValue w).toOption := by
  have hview : ∀ v, (LoopKind.ofValue v).toOption = v.str?.bind LoopKind.ofName? := by
    intro v
    unfold LoopKind.ofValue
    cases v.str?.bind LoopKind.ofName? <;> rfl
  rw [hview, hview, ← Value.str?_canonical, h, Value.str?_canonical]

theorem Facts.mem_allTargets {facts : Facts} {id port t : Text} (h : t ∈ facts.targets id port) :
    t ∈ facts.allTargets id := by
  simp only [Facts.targets, Facts.allTargets, List.mem_eraseDups, List.mem_map, List.mem_filter,
    Bool.and_eq_true] at h ⊢
  obtain ⟨e, ⟨he, hs, _⟩, rfl⟩ := h
  exact ⟨e, ⟨he, hs⟩, rfl⟩

theorem mem_allTargets_of_mem_nexts {facts : Facts} {node : Node} {t : Text}
    (h : t ∈ nexts facts node) : t ∈ facts.allTargets node.id := by
  simp only [nexts] at h
  split at h
  · cases h
  · cases h
  · cases h
  · cases h
  · exact Facts.mem_allTargets h
  · split at h
    · exact Facts.mem_allTargets h
    · split at h
      · exact Facts.mem_allTargets h
      · cases h

/-- The blocks of two nodes that are alike, and the nodes with which their chains go on. -/
theorem alike_resolveNode {facts facts' : Facts} {node node' : Node}
    (hnode : node.canonical = node'.canonical)
    (htargets : ∀ port, facts.targets node.id port = facts'.targets node.id port)
    (hall : facts.allTargets node.id = facts'.allTargets node.id)
    {chain chain' : List Text → Text → Resolving (List Block)}
    (h : ∀ stop, ∀ s ∈ facts.allTargets node.id,
      Alike (List.map canonical) (chain stop s) (chain' stop s)) (stop : List Text) :
    Alike (fun r => (r.1.map canonical, r.2)) (resolveNode facts chain stop node)
      (resolveNode facts' chain' stop node') := by
  have htargets' : facts.targets node.id = facts'.targets node'.id := by
    rw [← id_alike hnode]
    exact funext htargets
  have harm : ∀ (stop : List Text) (port : Text), Alike canonical
      (arm (chain stop) (facts.targets node.id port))
      (arm (chain' stop) (facts.targets node.id port)) :=
    fun stop port => alike_arm fun s hs => h stop s (Facts.mem_allTargets hs)
  -- one block, and what comes after it
  have hblock : ∀ {b b' : Block} {nexts : List Text}, b.canonical = b'.canonical →
      Alike (fun r : List Block × List Text => (r.1.map canonical, r.2)) (pure ([b], nexts))
        (pure ([b'], nexts)) := by
    intro b b' nexts hb
    refine alike_pure ?_
    simp [hb]
  unfold resolveNode
  rw [← kind_alike hnode, ← htargets', ← id_alike hnode, ← hall]
  cases node.kind with
  | sequential =>
    refine (alike_joined fun s hs => h stop s (Facts.mem_allTargets hs)).bind
      fun items items' hi => ?_
    exact (alike_newSequence hi (by simp [hnode]) none).bind fun b b' hb => hblock hb
  | parallel =>
    refine (alike_members fun s hs => h stop s hs).bind fun ms ms' hms => ?_
    refine (alike_ofExcept (ofValue_join_canonical (get_settings_alike hnode _))).bind
      fun join join' hjoin => ?_
    refine alike_freshSerial.bind fun n m hnm => hblock ?_
    obtain rfl : join = join' := hjoin
    obtain rfl : n = m := hnm
    rw [canonical, canonical, hnode, canonicalAll_eq, canonicalAll_eq, hms]
  | conditional =>
    refine (harm stop "true").bind fun t t' ht => ?_
    refine (harm stop "false").bind fun f f' hf => ?_
    refine alike_freshSerial.bind fun n m hnm => hblock ?_
    obtain rfl : n = m := hnm
    have hgetD : ∀ o : Option Value,
        (o.getD (.str "")).canonical = (o.map Value.canonical).getD (.str "") := by
      intro o
      cases o <;> simp
    rw [canonical, canonical, hnode, ht, hf, hgetD, hgetD, get?_settings_alike hnode]
  | router =>
    rw [← routeLabels_alike hnode]
    refine (alike_routes fun x _ s hs => h stop s (Facts.mem_allTargets hs)).bind
      fun rs rs' hrs => ?_
    refine alike_freshSerial.bind fun n m hnm => hblock ?_
    obtain rfl : n = m := hnm
    rw [canonical, canonical, hnode, hrs]
  | loop =>
    refine (harm (node.id :: stop) "loop").bind fun b b' hb => ?_
    refine (alike_ofExcept (ofValue_loop_canonical (get_settings_alike hnode _))).bind
      fun kind kind' hkinds => ?_
    refine alike_freshSerial.bind fun n m hnm => hblock ?_
    obtain rfl : kind = kind' := hkinds
    obtain rfl : n = m := hnm
    rw [canonical, canonical, hnode, hb]
  | apiCall | validator =>
    refine (alike_newLeaf hnode).bind fun leaf leaf' hleaf => ?_
    simp only [NodeKind.outcomePorts?]
    split
    · exact hblock hleaf
    · refine (harm stop _).bind fun t t' ht => ?_
      refine (harm stop _).bind fun f f' hf => ?_
      refine alike_freshSerial.bind fun n m hnm => alike_pure ?_
      obtain rfl : n = m := hnm
      simp only [List.map_cons, List.map_nil, canonical, hleaf, hnode, ht, hf]
  | agent | input | output | database | fileOperation | transform | delay | debug | binding =>
    exact (alike_newLeaf hnode).bind fun leaf leaf' hleaf => hblock hleaf

theorem alike_modify {F G : Progress → Progress}
    (h : ∀ p q : Progress, p.canonical = q.canonical → (F p).canonical = (G q).canonical) :
    Alike id (modify F) (modify G) := by
  intro p q hpq
  have hrun : ∀ (H : Progress → Progress) (r : Progress),
      outcome id (modify H) r = some ((), (H r).canonical) := fun _ _ => rfl
  rw [hrun, hrun, h p q hpq]

theorem lookup_shared_alike {p q : Progress} (h : p.canonical = q.canonical) (key : Text) :
    (p.shared.lookup key).map canonical = (q.shared.lookup key).map canonical := by
  rw [← lookup_map_snd, ← lookup_map_snd]
  exact congrArg (fun r : Progress => r.shared.lookup key) h

theorem alike_sharedSequence {resolved resolved' : Resolving (List Block)}
    (h : Alike (List.map canonical) resolved resolved') (id : Text) :
    Alike canonical (sharedSequence id resolved) (sharedSequence id resolved') := by
  have hget : Alike Progress.canonical get get := by
    intro p q hpq
    have hrun : ∀ r : Progress,
        outcome Progress.canonical get r = some (r.canonical, r.canonical) :=
      fun _ => rfl
    rw [hrun, hrun, hpq]
  refine hget.bind fun p q hpq => ?_
  have hlookup := lookup_shared_alike hpq id
  cases hp : p.shared.lookup id with
  | some b =>
    rw [hp] at hlookup
    obtain ⟨b', hq, hb⟩ := Option.map_eq_some_iff.mp hlookup.symm
    rw [hq]
    exact alike_pure hb.symm
  | none =>
    rw [hp] at hlookup
    rw [Option.map_eq_none_iff.mp hlookup.symm]
    refine (alike_modify fun r r' hr => ?_).bind fun _ _ _ => ?_
    · simp only [Progress.canonical, Progress.mk.injEq] at hr ⊢
      simp only [hr, and_self]
    refine h.bind fun items items' hitems => ?_
    refine (alike_newSequence hitems rfl (some id)).bind fun b b' hb => ?_
    refine (alike_modify fun r r' hr => ?_).bind fun _ _ _ => alike_pure hb
    simp only [Progress.canonical, Progress.mk.injEq] at hr
    simp only [Progress.canonical, List.map_cons, hr, hb]

/-- What is asked of two graphs is answered alike in a region that no edge leaves. -/
structure Facts.Alike (region : List Text) (facts facts' : Facts) : Prop where
  node : ∀ id ∈ region, (facts.graph.node? id).map Node.canonical =
    (facts'.graph.node? id).map Node.canonical
  targets : ∀ id ∈ region, ∀ port, facts.targets id port = facts'.targets id port
  allTargets : ∀ id ∈ region, facts.allTargets id = facts'.allTargets id
  isMerge : ∀ id ∈ region, facts.isMerge id = facts'.isMerge id
  closed : ∀ id ∈ region, ∀ t ∈ facts.allTargets id, t ∈ region

theorem targets_ofGraph (g : Graph) (id port : Text) : (Facts.ofGraph g).targets id port =
    ((((sortEdges g.edges).filter (·.source == id)).filter (g.portOf? · == some port)).map
      (·.target)).eraseDups := by
  simp only [Facts.targets, Facts.ofGraph, List.filter_map, List.map_map, List.filter_filter,
    Function.comp_def, Bool.and_comm]

theorem allTargets_ofGraph (g : Graph) (id : Text) : (Facts.ofGraph g).allTargets id =
    (((sortEdges g.edges).filter (·.source == id)).map (·.target)).eraseDups := by
  simp only [Facts.allTargets, Facts.ofGraph, List.filter_map, List.map_map, Function.comp_def]

/-- Graphs answer alike if in the region they have the same nodes, up to canonical form, the same
edges and the same merge points. -/
theorem Facts.alike_ofGraph {g g' : Graph} {region : List Text}
    (hnode : ∀ id ∈ region,
      (g.node? id).map Node.canonical = (g'.node? id).map Node.canonical)
    (hedges : ∀ id ∈ region, (sortEdges g.edges).filter (·.source == id) =
      (sortEdges g'.edges).filter (·.source == id))
    (hmerges : ∀ id ∈ region, id ∈ g.merges ↔ id ∈ g'.merges)
    (hclosed : ∀ e ∈ g.edges, e.source ∈ region → e.target ∈ region) :
    (Facts.ofGraph g).Alike region (Facts.ofGraph g') where
  node := hnode
  targets id hid port := by
    have hport : ∀ e : Edge, e.source = id → g.portOf? e = g'.portOf? e := by
      intro e he
      have hview : ∀ g : Graph, g.portOf? e = ((g.node? id).map Node.canonical).bind
          fun node => node.kind.effectivePort? e.sourcePort := by
        intro g
        rw [Graph.portOf?, he, Option.bind_map]
        rfl
      rw [hview, hnode id hid, ← hview]
    rw [targets_ofGraph, targets_ofGraph, hedges id hid]
    congr 2
    refine List.filter_congr fun e he => ?_
    rw [hport e (beq_iff_eq.mp (List.mem_filter.mp he).2)]
  allTargets id hid := by rw [allTargets_ofGraph, allTargets_ofGraph, hedges id hid]
  isMerge id hid := by
    rw [Bool.eq_iff_iff]
    simpa [Facts.isMerge, Facts.ofGraph] using hmerges id hid
  closed id hid t ht := by
    obtain ⟨e, he, rfl, rfl⟩ := mem_allTargets_ofGraph.mp ht
    exact hclosed e he hid

section Region
variable {region : List Text} {facts facts' : Facts} (hfacts : facts.Alike region facts')
include hfacts

theorem alike_enter {chain chain' : Option Text → List Text → Text → Resolving (List Block)}
    {active : List Text} {id : Text} (hid : id ∈ region)
    (h : id ∉ active → ∀ owner stop, ∀ s ∈ region,
      Alike (List.map canonical) (chain owner stop s) (chain' owner stop s))
    (owner : Option Text) (stop : List Text) :
    Alike (List.map canonical) (enter facts chain owner active stop id)
      (enter facts' chain' owner active stop id) := by
  by_cases hactive : id ∈ active
  · simp only [enter, List.contains_iff_mem.mpr hactive, if_true]
    exact fun _ _ _ => rfl
  · have hfree : active.contains id = false := by simpa using hactive
    have hfound := hfacts.node id hid
    simp only [enter, hfree, Bool.false_eq_true, if_false]
    cases hn : facts.graph.node? id with
    | none =>
      rw [hn] at hfound
      rw [Option.map_eq_none_iff.mp hfound.symm]
      exact alike_throw _ _
    | some node =>
      rw [hn] at hfound
      obtain ⟨node', hn', hnode⟩ := Option.map_eq_some_iff.mp hfound.symm
      rw [hn']
      obtain rfl : node.id = id := (Graph.node?_eq_some hn).2
      have hnext : ∀ owner stop, ∀ s ∈ facts.allTargets node.id,
          Alike (List.map canonical) (chain owner stop s) (chain' owner stop s) :=
        fun owner stop s hs => h hactive owner stop s (hfacts.closed _ hid s hs)
      have hresolve := alike_resolveNode hnode.symm (hfacts.targets _ hid) (hfacts.allTargets _ hid)
        (hnext none) stop
      refine hresolve.bind_of_runs fun {p r q r'} hrun hr => ?_
      obtain ⟨blocks, following⟩ := r
      obtain ⟨blocks', following'⟩ := r'
      obtain ⟨hblocks, hfollowing⟩ := Prod.mk.inj hr
      obtain rfl : following = following' := hfollowing
      have hstarts : ∀ s ∈ following, s ∈ facts.allTargets node.id := by
        rw [(resolveNode_runs hrun).1]
        exact fun s hs => mem_allTargets_of_mem_nexts hs
      have hmap : ∀ rest rest' : List Block, rest.map canonical = rest'.map canonical →
          (blocks ++ rest).map canonical = (blocks' ++ rest').map canonical := by
        intro rest rest' hrest
        rw [List.map_append, List.map_append, hblocks, hrest]
      have hjoined := (alike_joined fun s hs => hnext none stop s (hstarts s hs)).bind
        fun rest rest' hrest => alike_pure (hmap rest rest' hrest)
      rcases following with _ | ⟨next, _ | ⟨_, _⟩⟩
      · exact hjoined
      · refine (hnext owner stop next (hstarts next (by simp))).bind fun rest rest' hrest => ?_
        exact alike_pure (hmap rest rest' hrest)
      · exact hjoined

/-- Within the region, chains are alike at all depths that suffice: the active nodes are different
nodes of the region, so the depth is not used up before they are. -/
theorem alike_chain {depth depth' : Nat} {owner : Option Text} {active stop : List Text} {id : Text}
    (hid : id ∈ region) (hnodup : active.Nodup) (hactive : active ⊆ region)
    (hdepth : region.length < depth + active.length)
    (hdepth' : region.length < depth' + active.length) :
    Alike (List.map canonical) (chain facts depth owner active stop id)
      (chain facts' depth' owner active stop id) := by
  have hlength := hnodup.length_le_of_subset hactive
  induction depth generalizing depth' owner active stop id with
  | zero => omega
  | succ depth ih =>
    cases depth' with
    | zero => omega
    | succ depth' =>
      have hfollow : id ∉ active → ∀ owner stop, ∀ s ∈ region, Alike (List.map canonical)
          (chain facts depth owner (id :: active) stop s)
          (chain facts' depth' owner (id :: active) stop s) := by
        intro hfree owner stop s hs
        have hnodup' : (id :: active).Nodup := List.nodup_cons.mpr ⟨hfree, hnodup⟩
        have hactive' : id :: active ⊆ region := List.cons_subset.mpr ⟨hid, hactive⟩
        have hlength' := hnodup'.length_le_of_subset hactive'
        refine ih hs hnodup' hactive' ?_ ?_ hlength'
        · rw [List.length_cons]
          omega
        · rw [List.length_cons]
          omega
      have henter := fun owner => alike_enter hfacts hid hfollow owner stop
      rw [chain, chain, hfacts.isMerge id hid]
      split
      · exact alike_pure rfl
      · split
        · refine (alike_sharedSequence (henter (some id)) id).bind fun b b' hb => alike_pure ?_
          rw [List.map_singleton, List.map_singleton, hb]
        · exact henter owner

theorem alike_root (hentries : facts.graph.entryIds = facts'.graph.entryIds)
    (hstarts : facts.graph.entryIds ⊆ region) (hsize : region.length ≤ facts.graph.size)
    (hsize' : region.length ≤ facts'.graph.size) :
    Alike canonical (root facts) (root facts') := by
  unfold root
  rw [show facts'.graph.entries.map (·.id) = facts.graph.entries.map (·.id) from hentries.symm]
  refine (alike_joined fun s hs => ?_).bind fun items items' hitems =>
    alike_newSequence hitems rfl none
  refine alike_chain hfacts (hstarts hs) List.nodup_nil (List.nil_subset _) ?_ ?_
  · rw [List.length_nil]
    omega
  · rw [List.length_nil]
    omega

end Region

/-- The blocks of two graphs are the same in canonical form, or there is none for either. -/
theorem block_resolve_alike {v v' : Validated} {region : List Text}
    (hfacts : (Facts.ofGraph v.graph).Alike region (.ofGraph v'.graph))
    (hentries : v.graph.entryIds = v'.graph.entryIds) (hstarts : v.graph.entryIds ⊆ region)
    (hsize : region.length ≤ v.graph.size) (hsize' : region.length ≤ v'.graph.size) :
    (resolve v).block.toOption.map canonical = (resolve v').block.toOption.map canonical := by
  have hview : ∀ v : Validated, (resolve v).block.toOption.map canonical =
      (outcome canonical (root (.ofGraph v.graph)) {}).map (·.1) := by
    intro v
    unfold resolve outcome
    cases (root (.ofGraph v.graph)).run {} <;> rfl
  rw [hview, hview, alike_root hfacts hentries hstarts hsize hsize' {} {} rfl]

end WorkflowCompiler.Resolution
