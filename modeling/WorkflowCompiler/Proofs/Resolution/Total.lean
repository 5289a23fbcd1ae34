import Mathlib
import WorkflowCompiler.Proofs.Graph.Acyclic
import WorkflowCompiler.Proofs.Graph.Paths
import WorkflowCompiler.Proofs.Resolution.Strands
import WorkflowCompiler.Proofs.Validation.Settings

/-! # How resolution ends

If the kinds of loops and the joins of parallel containers are known, resolution ends well or comes
back to an active node. The active nodes are a path from an entry, which can be left by the body port
at the heads of the loops around only, so what brings a chain back is a snare. Without cycles there
is none. Since every node is active once, the number of nodes bounds the depth.
-/
namespace WorkflowCompiler.Resolution
open Relation

/-- From every state of progress an action ends well, or with a fault that is allowed for. -/
def Ends {α : Type} (allowed : Fault → Prop) (x : Resolving α) : Prop :=
  ∀ p, (∃ a q, Runs x p a q) ∨ ∃ fault q, x.run p = .error fault q ∧ allowed fault

variable {allowed : Fault → Prop}

section Actions
variable {α β : Type}

theorem Ends.bind {x : Resolving α} {f : α → Resolving β} (hx : Ends allowed x)
    (hf : ∀ {p a q}, Runs x p a q → Ends allowed (f a)) : Ends allowed (x >>= f) := by
  intro p
  rcases hx p with ⟨a, q, ha⟩ | ⟨fault, q, hfault, hallowed⟩
  · rcases hf ha q with ⟨b, r, hb⟩ | ⟨fault, r, hfault, hallowed⟩
    · exact Or.inl ⟨b, r, runs_bind.mpr ⟨a, q, ha, hb⟩⟩
    · refine Or.inr ⟨fault, r, ?_, hallowed⟩
      rw [Runs] at ha
      rw [EStateM.run_bind, ha]
      exact hfault
  · refine Or.inr ⟨fault, q, ?_, hallowed⟩
    rw [EStateM.run_bind, hfault]

theorem ends_throw {fault : Fault} (h : allowed fault) :
    Ends allowed (throw fault : Resolving α) := fun p => Or.inr ⟨fault, p, rfl, h⟩

theorem ends_pure (a : α) : Ends allowed (pure a : Resolving α) :=
  fun p => Or.inl ⟨a, p, runs_pure.mpr ⟨rfl, rfl⟩⟩

theorem ends_freshSerial : Ends allowed freshSerial :=
  fun p => Or.inl ⟨p.next, p.advance, runs_freshSerial.mpr ⟨rfl, rfl⟩⟩

theorem ends_get : Ends allowed get := fun p => Or.inl ⟨p, p, runs_get.mpr ⟨rfl, rfl⟩⟩

theorem ends_modify (f : Progress → Progress) : Ends allowed (modify f) :=
  fun p => Or.inl ⟨⟨⟩, f p, runs_modify.mpr rfl⟩

theorem ends_newLeaf (node : Node) : Ends allowed (newLeaf node) :=
  fun p => Or.inl ⟨_, p.advance, runs_newLeaf.mpr ⟨rfl, rfl⟩⟩

theorem ends_newSequence (items : List Block) (container : Option Node) (key : Option Text) :
    Ends allowed (newSequence items container key) :=
  fun p => Or.inl ⟨_, p.advance, runs_newSequence.mpr ⟨rfl, rfl⟩⟩

theorem ends_ofExcept {e : Except Fault α} {a : α} (h : e = .ok a) :
    Ends allowed (MonadExcept.ofExcept e) :=
  fun p => Or.inl ⟨a, p, runs_ofExcept.mpr ⟨h, rfl⟩⟩

theorem ends_mapM {f : α → Resolving β} {xs : List α} (h : ∀ x ∈ xs, Ends allowed (f x)) :
    Ends allowed (xs.mapM f) := by
  induction xs with
  | nil =>
    rw [List.mapM_nil]
    exact ends_pure []
  | cons x rest ih =>
    rw [List.mapM_cons]
    refine (h x List.mem_cons_self).bind fun _ => ?_
    refine (ih fun y hy => h y (List.mem_cons_of_mem _ hy)).bind fun _ => ?_
    exact ends_pure _

end Actions

section Chains
variable {follow : Text → Resolving (List Block)} {starts : List Text}
  (h : ∀ s ∈ starts, Ends allowed (follow s))
include h

theorem ends_joined : Ends allowed (joined follow starts) :=
  (ends_mapM h).bind fun _ => ends_pure _

theorem ends_arm : Ends allowed (arm follow starts) := by
  refine (ends_joined h).bind fun _ => ?_
  split
  · split
    · exact ends_pure _
    · exact ends_newSequence _ _ _
  · exact ends_newSequence _ _ _

theorem ends_members : Ends allowed (members follow starts) := by
  induction starts with
  | nil => exact ends_pure []
  | cons start rest ih =>
    have hrest := ih fun s hs => h s (List.mem_cons_of_mem _ hs)
    rw [members]
    refine (h start List.mem_cons_self).bind fun _ => ?_
    split
    · exact hrest
    · exact hrest.bind fun _ => ends_pure _
    · refine (ends_newSequence _ _ _).bind fun _ => ?_
      exact hrest.bind fun _ => ends_pure _

end Chains

theorem ends_routes {follow : Text → Resolving (List Block)} {targets : Text → List Text}
    {labels : List (Text × Text)} (h : ∀ x ∈ labels, ∀ s ∈ targets x.1, Ends allowed (follow s)) :
    Ends allowed (routes follow targets labels) := by
  induction labels with
  | nil => exact ends_pure []
  | cons label rest ih =>
    refine (ends_arm (h label List.mem_cons_self)).bind fun _ => ?_
    refine (ih fun x hx => h x (List.mem_cons_of_mem _ hx)).bind fun _ => ?_
    exact ends_pure _

/-- The join of a parallel container and the kind of a loop are known. -/
structure Settled (node : Node) : Prop where
  join : node.kind = .parallel →
    ∃ join, JoinStrategy.ofValue (node.settings.get "joinStrategy") = .ok join
  loop : node.kind = .loop →
    ∃ kind, LoopKind.ofValue (node.settings.get "loopType") = .ok kind

/-- The nodes of an accepted graph are settled unless a choice is given as an empty text. -/
theorem Settled.of_given (v : Validated)
    (hgiven : ∀ n ∈ v.graph.nodes, ∀ field ∈ (["loopType", "joinStrategy"] : List Text),
      n.config.get field ≠ .str []) {node : Node} (hn : node ∈ v.graph.nodes) : Settled node where
  join hk := v.exists_join hn hk (hgiven node hn _ (by simp))
  loop hk :=
    let ⟨kind, _, hkind, _⟩ := v.exists_loopKind hn hk (hgiven node hn _ (by simp))
    ⟨kind, hkind⟩

theorem ends_resolveNode {facts : Facts} {follow : List Text → Text → Resolving (List Block)}
    {stop : List Text} {node : Node} (hn : Settled node)
    (h : ∀ s ∈ limbs facts stop node, ∀ t ∈ s.starts, Ends allowed (follow s.stop t)) :
    Ends allowed (resolveNode facts follow stop node) := by
  unfold resolveNode
  dsimp only
  split
  next hk =>
    simp only [limbs, hk, List.mem_singleton, forall_eq] at h
    refine (ends_joined h).bind fun _ => ?_
    exact (ends_newSequence _ _ _).bind fun _ => ends_pure _
  next hk =>
    obtain ⟨join, hjoin⟩ := hn.join hk
    simp only [limbs, hk, List.forall_mem_map, List.mem_singleton, forall_eq] at h
    refine (ends_members h).bind fun _ => ?_
    refine (ends_ofExcept hjoin).bind fun _ => ?_
    exact ends_freshSerial.bind fun _ => ends_pure _
  next hk =>
    simp only [limbs, hk, List.forall_mem_cons, List.not_mem_nil, false_imp_iff, implies_true,
      and_true] at h
    refine (ends_arm h.1).bind fun _ => ?_
    refine (ends_arm h.2).bind fun _ => ?_
    exact ends_freshSerial.bind fun _ => ends_pure _
  next hk =>
    simp only [limbs, hk, List.forall_mem_map] at h
    refine (ends_routes h).bind fun _ => ?_
    exact ends_freshSerial.bind fun _ => ends_pure _
  next hk =>
    obtain ⟨kind, hkind⟩ := hn.loop hk
    simp only [limbs, hk, List.mem_singleton, forall_eq] at h
    refine (ends_arm h).bind fun _ => ?_
    refine (ends_ofExcept hkind).bind fun _ => ?_
    exact ends_freshSerial.bind fun _ => ends_pure _
  next h1 h2 h3 h4 h5 =>
    have hstep : node.kind.isContainer = false := by
      unfold NodeKind.isContainer
      split <;> first | contradiction | rfl
    rw [limbs_step _ _ hstep] at h
    refine (ends_newLeaf node).bind fun _ => ?_
    split
    · exact ends_pure _
    next success failure hout =>
      simp only [hout] at h
      split
      · exact ends_pure _
      next hempty =>
        simp only [hempty, Bool.false_eq_true, if_false, List.forall_mem_cons, List.not_mem_nil,
          false_imp_iff, implies_true, and_true] at h
        refine (ends_arm h.1).bind fun _ => ?_
        refine (ends_arm h.2).bind fun _ => ?_
        exact ends_freshSerial.bind fun _ => ends_pure _

theorem ends_sharedSequence {id : Text} {resolved : Resolving (List Block)}
    (h : Ends allowed resolved) : Ends allowed (sharedSequence id resolved) := by
  refine ends_get.bind fun _ => ?_
  split
  · exact ends_pure _
  · refine (ends_modify _).bind fun _ => ?_
    refine h.bind fun _ => ?_
    refine (ends_newSequence _ _ _).bind fun _ => ?_
    exact (ends_modify _).bind fun _ => ends_pure _

/-- A chain that enters a node which is not active ends as the strands of the node do. -/
theorem ends_enter {facts : Facts}
    {follow : Option Text → List Text → Text → Resolving (List Block)} {owner : Option Text}
    {active stop : List Text} {id : Text} {node : Node} (hactive : id ∉ active)
    (hnode : facts.graph.node? id = some node) (hn : Settled node)
    (h : ∀ s ∈ strands facts owner stop node, ∀ t ∈ s.starts, Ends allowed (follow s.owner s.stop t)) :
    Ends allowed (enter facts follow owner active stop id) := by
  have hlimbs : ∀ s ∈ limbs facts stop node, ∀ t ∈ s.starts, Ends allowed (follow none s.stop t) := by
    intro s hs t ht
    have hstrand : s ∈ strands facts none stop node := List.mem_append_left _ hs
    obtain hnone : s.owner = none := by simpa using (strand_context hstrand).1
    exact hnone ▸ h s (List.mem_append_left _ hs) t ht
  have hrest := h (continuation facts owner stop node) (by simp [strands])
  simp only [enter, List.contains_eq_mem, hactive, decide_false, Bool.false_eq_true, if_false,
    hnode]
  refine (ends_resolveNode hn hlimbs).bind fun hruns => ?_
  have hfollowing := (resolveNode_runs hruns).1
  rw [hfollowing]
  split
  next next hnext =>
    rw [continuation_of_single hnext] at hrest
    exact (hrest next List.mem_cons_self).bind fun _ => ends_pure _
  next hnext =>
    rw [continuation_of_several hnext] at hrest
    exact (ends_joined hrest).bind fun _ => ends_pure _

section Graph
variable {g : Graph}

theorem kind_of_loop_port {kind : NodeKind} {config : Members} {port : Text}
    (hport : port = "loop" ∨ port = "exit") (h : port ∈ kind.outputNames config) :
    kind = .loop := by
  have hname : ∀ stem x : Text, stem.head? ≠ none → stem.head? ≠ port.head? → port ≠ stem ++ x := by
    rintro stem x hsome hhead rfl
    cases stem with
    | nil => exact hsome rfl
    | cons c rest => exact hhead rfl
  cases hk : kind with
  | loop => rfl
  | parallel =>
    simp only [hk, NodeKind.outputNames, NodeKind.outputs, List.map_cons, List.map_map,
      List.mem_cons, List.mem_map] at h
    rcases h with rfl | ⟨i, _, h⟩
    · rcases hport with h | h <;> exact absurd h (by decide)
    · refine absurd h.symm (hname "out" _ (by decide) ?_)
      rcases hport with rfl | rfl <;> decide
  | router =>
    simp only [hk, NodeKind.outputNames, NodeKind.outputs, routeLabels, List.map_map,
      List.mem_map] at h
    obtain ⟨i, _, h⟩ := h
    refine absurd h.symm (hname "route" _ (by decide) ?_)
    rcases hport with rfl | rfl <;> decide
  | _ =>
    have hfixed : kind.outputNames config = kind.outputNames [] := by
      subst hk
      rfl
    rw [hfixed, hk] at h
    rcases hport with rfl | rfl <;> exact absurd h (by decide)

/-- The edge by which a chain of a strand begins. It leads into a body only if the head of the loop
is one at which the chain stops. -/
theorem exists_edge_of_strand (hg : g.Sound) {node : Node} (hnode : g.node? node.id = some node)
    {owner : Option Text} {stop : List Text} {s : Strand}
    (hs : s ∈ strands (.ofGraph g) owner stop node) {t : Text} (ht : t ∈ s.starts) :
    ∃ e ∈ g.edges, e.source = node.id ∧ e.target = t ∧ (∀ head ∈ stop, head ∈ s.stop) ∧
      (node.id ∉ s.stop → g.portOf? e ≠ some ("loop" : Text)) := by
  obtain ⟨e, he, hsource, htarget, hguards⟩ := exists_edge_of_mem_strands hnode hs ht
  refine ⟨e, he, hsource, htarget, ?_, ?_⟩
  · intro head hh
    rcases (strand_context hs).2 with hsame | ⟨hmore, _⟩
    · exact hsame ▸ hh
    · exact hmore ▸ List.mem_cons_of_mem _ hh
  · intro hout hport
    obtain ⟨source, port, hsource', heffective, hmem⟩ := hg.leaves e he
    obtain rfl : node = source := Option.some.inj (hnode.symm.trans (hsource ▸ hsource'))
    obtain rfl : "loop" = port := by
      rw [Graph.portOf?_eq hsource', heffective] at hport
      exact (Option.some.inj hport).symm
    have hk := kind_of_loop_port (Or.inl rfl) hmem
    rw [Graph.guard?_toList hsource' hport] at hguards
    simp only [strands, limbs, hk, List.cons_append, List.nil_append, List.mem_cons,
      List.not_mem_nil, or_false] at hs
    rcases hs with rfl | rfl
    · exact hout List.mem_cons_self
    · simp [Graph.guardsOf, Graph.isGuarded, hk, continuation] at hguards

/-- A path from an entry to a node that leaves the active nodes one after the other. It is inside a
body for those heads only at which a chain stops. -/
def Way (g : Graph) (active stop : List Text) (id : Text) : Prop :=
  ∃ entry ∈ g.entryIds, ∃ path, g.IsPath entry path id ∧ path.map (·.source) = active.reverse ∧
    ∀ e ∈ path, e.source ∉ stop → g.portOf? e ≠ some ("loop" : Text)

theorem Way.step (hg : g.Sound) {active stop : List Text} {id : Text} (h : Way g active stop id)
    {node : Node} (hnode : g.node? id = some node) {owner : Option Text} {s : Strand}
    (hs : s ∈ strands (.ofGraph g) owner stop node) {t : Text} (ht : t ∈ s.starts) :
    Way g (id :: active) s.stop t := by
  obtain ⟨entry, hentry, path, hpath, hactive, hbody⟩ := h
  obtain ⟨_, rfl⟩ := Graph.node?_eq_some hnode
  obtain ⟨e, he, hsource, rfl, hstop, hport⟩ := exists_edge_of_strand hg hnode hs ht
  refine ⟨entry, hentry, path ++ [e], ?_, by simp [hactive, hsource], ?_⟩
  · exact Graph.isPath_append.mpr ⟨_, hpath, he, hsource, rfl⟩
  · intro x hx hout
    rcases List.mem_append.mp hx with hx | hx
    · exact hbody x hx fun hin => hout (hstop _ hin)
    · rw [List.mem_singleton.mp hx] at hout ⊢
      exact hport (hsource ▸ hout)

/-- A way that comes back to an active node at which it does not stop is a snare. -/
theorem Way.snare {active stop : List Text} {id : Text} (h : Way g active stop id)
    (hnodup : active.Nodup) (hactive : id ∈ active) (hstop : id ∉ stop) : g.Snare id := by
  obtain ⟨entry, hentry, path, hpath, hsources, hbody⟩ := h
  have hid : id ∈ path.map (·.source) := by
    rw [hsources]
    exact List.mem_reverse.mpr hactive
  obtain ⟨before, first, after, rfl, hsource, hbefore, hafter⟩ := hpath.exists_cut hid
  refine ⟨entry, hentry, before, first, after, hbefore, hafter, ?_, ?_⟩
  · exact hbody first (by simp) (hsource ▸ hstop)
  · rw [hsources]
    exact List.nodup_reverse.mpr hnodup

theorem Way.reached {active stop : List Text} {id : Text} (h : Way g active stop id) :
    g.Reached id := by
  obtain ⟨entry, hentry, path, hpath, _⟩ := h
  exact ⟨entry, hentry, hpath.reaches⟩

/-- The fault of a chain that comes back to a node because of a snare. -/
def Snared (g : Graph) (fault : Fault) : Prop := ∃ id, fault = .reentered id ∧ g.Snare id

/-- A chain is resolved or gets into a snare, as long as there is depth for the nodes that are not
active. -/
theorem ends_chain (hg : g.Sound) (hn : ∀ node ∈ g.nodes, g.Reached node.id → Settled node)
    {depth : Nat} {active : List Text} (hdepth : g.size < depth + active.length) (hnodup : active.Nodup)
    (hsub : ∀ a ∈ active, a ∈ g.nodes.map (·.id)) {stop : List Text} {id : Text}
    (hway : Way g active stop id) (owner : Option Text) :
    Ends (Snared g) (chain (.ofGraph g) depth owner active stop id) := by
  induction depth generalizing active id owner stop with
  | zero =>
    -- the active nodes are distinct, so they are no more than there are nodes
    have hle := (hnodup.subperm hsub).length_le
    rw [List.length_map] at hle
    simp only [Graph.size] at hdepth
    omega
  | succ depth ih =>
    simp only [chain]
    split
    · exact ends_pure _
    next hstop =>
    replace hstop : id ∉ stop := by simpa using hstop
    obtain ⟨node, hnode⟩ := hg.node_of_reached hway.reached
    obtain ⟨hmem, hid⟩ := Graph.node?_eq_some hnode
    have henter : ∀ owner, Ends (Snared g) (enter (.ofGraph g)
        (fun owner => chain (.ofGraph g) depth owner (id :: active)) owner active stop id) := by
      intro owner
      by_cases hactive : id ∈ active
      · have hsnare := hway.snare hnodup hactive hstop
        simp only [enter, List.contains_eq_mem, hactive, decide_true, if_true]
        exact (ends_throw ⟨id, rfl, hsnare⟩).bind fun hruns => absurd hruns not_runs_throw
      refine ends_enter hactive hnode (hn node hmem (hid ▸ hway.reached)) ?_
      intro s hs t ht
      refine ih ?_ (List.nodup_cons.mpr ⟨hactive, hnodup⟩) ?_ (hway.step hg hnode hs ht) _
      · rw [List.length_cons]
        omega
      · intro a ha
        rcases List.mem_cons.mp ha with rfl | ha
        · exact List.mem_map.mpr ⟨node, hmem, hid⟩
        · exact hsub a ha
    split
    · exact (ends_sharedSequence (henter _)).bind fun _ => ends_pure _
    · exact henter owner

end Graph

/-- An accepted graph whose nodes are settled where they can be reached is resolved, unless a chain
gets into a snare. -/
theorem exists_block_or_snare_of_reached (v : Validated)
    (hn : ∀ node ∈ v.graph.nodes, v.graph.Reached node.id → Settled node) :
    (∃ root, (resolve v).block = .ok root) ∨
      ∃ id, (resolve v).block = .error (.reentered id) ∧ v.graph.Snare id := by
  have hg := v.sound
  have hroot : Ends (Snared v.graph) (Resolution.root (.ofGraph v.graph)) := by
    refine Ends.bind (ends_joined ?_) fun _ => ends_newSequence _ _ _
    intro s hs
    have hway : Way v.graph [] [] s := ⟨s, hs, [], rfl, rfl, by simp⟩
    exact ends_chain hg hn (Nat.lt_succ_self _) List.nodup_nil (by simp) hway none
  rcases hroot {} with ⟨root, q, hrun⟩ | ⟨fault, q, hrun, id, rfl, hsnare⟩
  · rw [Runs] at hrun
    exact Or.inl ⟨root, by simp only [resolve, hrun]⟩
  · exact Or.inr ⟨id, by simp only [resolve, hrun], hsnare⟩

theorem exists_block_or_snare (v : Validated) (hn : ∀ node ∈ v.graph.nodes, Settled node) :
    (∃ root, (resolve v).block = .ok root) ∨
      ∃ id, (resolve v).block = .error (.reentered id) ∧ v.graph.Snare id :=
  exists_block_or_snare_of_reached v fun node hmem _ => hn node hmem

/-- An accepted graph without cycles is resolved. -/
theorem exists_block (v : Validated) (ha : v.graph.Acyclic)
    (hn : ∀ node ∈ v.graph.nodes, Settled node) : ∃ root, (resolve v).block = .ok root :=
  (exists_block_or_snare v hn).resolve_right fun ⟨id, _, hsnare⟩ => ha id hsnare.transGen

theorem exists_block_of_reached (v : Validated) (ha : v.graph.Acyclic)
    (hn : ∀ node ∈ v.graph.nodes, v.graph.Reached node.id → Settled node) :
    ∃ root, (resolve v).block = .ok root :=
  (exists_block_or_snare_of_reached v hn).resolve_right fun ⟨id, _, hsnare⟩ =>
    ha id hsnare.transGen

end WorkflowCompiler.Resolution
