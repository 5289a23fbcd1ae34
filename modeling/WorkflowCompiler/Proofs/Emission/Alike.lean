import Mathlib
import WorkflowCompiler.Proofs.Block.Canonical
import WorkflowCompiler.Proofs.Emission.Reference
import WorkflowCompiler.Proofs.Template.Canonical

/-! # Emissions that are alike

The code of a block and of its canonical form is the same. Both emissions go in step: they give away
the same identifiers and write the same lines, although the arguments in their statements may hold
values with members in another order.
-/
namespace WorkflowCompiler.Emission
open Block

/-- A state of progress with its statements as they are written. -/
def Progress.written (p : Progress) :
    List (List Text) × Identifier.Allocator × List (Text × Text) × List (Text × Text) :=
  (p.statements.map Statement.lines, p.allocator, p.shared, p.claimed)

/-- Two actions end alike from states of progress that are written the same. -/
def Alike {α : Type} (x y : Emitting α) : Prop :=
  ∀ p q : Progress, p.written = q.written →
    (x.run p).toOption.map (Prod.map id Progress.written) =
      (y.run q).toOption.map (Prod.map id Progress.written)

section Actions
variable {α β : Type}

theorem alike_pure (a : α) : Alike (pure a) (pure a) :=
  fun _ _ hpq => congrArg (fun w => some (a, w)) hpq

theorem alike_throw (fault fault' : Fault) : Alike (throw fault : Emitting α) (throw fault') :=
  fun _ _ _ => rfl

theorem Alike.bind {x y : Emitting α} {k l : α → Emitting β} (h : Alike x y)
    (hk : ∀ a, Alike (k a) (l a)) : Alike (x >>= k) (y >>= l) := by
  intro p q hpq
  rw [StateT.run_bind, StateT.run_bind]
  refine toOption_bind_congr (h p q hpq) fun r s hrs => ?_
  obtain ⟨a, p'⟩ := r
  obtain ⟨b, q'⟩ := s
  obtain ⟨hab, hwritten⟩ := Prod.mk.inj hrs
  obtain rfl : a = b := hab
  exact hk a p' q' hwritten

theorem alike_lift {e e' : Except Fault α} (h : e.toOption = e'.toOption) :
    Alike (liftM e : Emitting α) (liftM e') := by
  have hview := congrArg (Option.map id) h
  obtain ⟨fault, fault', rfl, rfl⟩ | ⟨a, _, rfl, rfl, rfl⟩ := cases_of_toOption_map_eq hview
  · exact fun _ _ _ => rfl
  · exact alike_pure a

/-- What is done next may depend on the progress so far, as it is written. -/
theorem alike_get {k l : Progress → Emitting α}
    (h : ∀ p q : Progress, p.written = q.written → Alike (k p) (l q)) :
    Alike (get >>= k) (get >>= l) :=
  fun p q hpq => h p q hpq p q hpq

theorem alike_modifyGet {f g : Progress → α × Progress}
    (h : ∀ p q : Progress, p.written = q.written →
      (f p).1 = (g q).1 ∧ (f p).2.written = (g q).2.written) :
    Alike (modifyGet f : Emitting α) (modifyGet g) :=
  fun p q hpq => congrArg some (Prod.ext (h p q hpq).1 (h p q hpq).2)

theorem written_inj {p q : Progress} (h : p.written = q.written) :
    p.statements.map Statement.lines = q.statements.map Statement.lines ∧
      p.allocator = q.allocator ∧ p.shared = q.shared ∧ p.claimed = q.claimed := by
  simpa [Progress.written] using h

theorem alike_allocate (label : Text) : Alike (allocate label) (allocate label) := by
  refine alike_modifyGet fun p q hpq => ?_
  obtain ⟨hstatements, hallocator, hshared, hclaimed⟩ := written_inj hpq
  simp only [Progress.written, hstatements, hallocator, hshared, hclaimed, and_self]

theorem alike_claim (key label : Text) : Alike (claim key label) (claim key label) := by
  refine alike_get fun p q hpq => ?_
  rw [(written_inj hpq).2.2.2]
  split
  · exact alike_throw _ _
  · refine (alike_allocate label).bind fun ident => ?_
    refine Alike.bind (alike_modifyGet fun r s hrs => ⟨rfl, ?_⟩) fun _ => alike_pure ident
    obtain ⟨hstatements, hallocator, hshared, hclaimed⟩ := written_inj hrs
    simp only [Progress.written, hstatements, hallocator, hshared, hclaimed]

theorem alike_once (key : Text) {x y : Emitting Text} (h : Alike x y) :
    Alike (once key x) (once key y) := by
  refine alike_get fun p q hpq => ?_
  rw [(written_inj hpq).2.2.1]
  split
  · exact alike_pure _
  · refine h.bind fun ident => ?_
    refine Alike.bind (alike_modifyGet fun r s hrs => ⟨rfl, ?_⟩) fun _ => alike_pure ident
    obtain ⟨hstatements, hallocator, hshared, hclaimed⟩ := written_inj hrs
    simp only [Progress.written, hstatements, hallocator, hshared, hclaimed]

theorem alike_state {s t : Statement} (h : s.lines = t.lines) : Alike (state s) (state t) := by
  refine alike_modifyGet fun p q hpq => ⟨rfl, ?_⟩
  obtain ⟨hstatements, hallocator, hshared, hclaimed⟩ := written_inj hpq
  simp only [Progress.written, List.map_append, hstatements, hallocator, hshared, hclaimed,
    List.map_singleton, h]

theorem alike_stateNode (profile : Profile) (template : Template) (node : Node)
    (ident label : Text) (parts : Parts) (predecessor : Option Text)
    (hjoin : template = .parallel → parts.join.isSome) :
    Alike (stateNode profile template node.canonical ident label parts.canonical predecessor)
      (stateNode profile template node ident label parts predecessor) := by
  have hlines := Template.lines_statement_canonical profile node ident label parts predecessor hjoin
  intro p q hpq
  simp only [stateNode]
  obtain ⟨fault, fault', hs, ht⟩ | ⟨s, t, hs, ht, hst⟩ := cases_of_toOption_map_eq hlines
  · rw [hs, ht]
    rfl
  · rw [hs, ht]
    exact alike_state hst p q hpq

/-- The condition on an outcome is a text, which is its own canonical form. -/
theorem alike_stateOutcome (profile : Profile) (node : Node) (ident label : Text) {parts : Parts}
    (predecessor : Option Text) {step outcome : Text}
    (hcondition : parts.condition = some (outcomeCondition step outcome)) :
    Alike (stateNode profile .outcomeSplit node.canonical ident label parts predecessor)
      (stateNode profile .outcomeSplit node ident label parts predecessor) := by
  have hparts : parts.canonical = parts := by
    rw [Parts.canonical, hcondition, Option.map_some, outcomeCondition, Value.canonical_str,
      ← outcomeCondition, ← hcondition]
  have hstate := alike_stateNode profile .outcomeSplit node ident label parts predecessor
    (by simp)
  rwa [hparts] at hstate

theorem alike_namedSequence (profile : Profile) (label : Text) {x y : Emitting (List Text)}
    (h : Alike x y) : Alike (namedSequence profile label x) (namedSequence profile label y) := by
  refine (alike_allocate label).bind fun ident => h.bind fun refs => ?_
  exact (alike_state rfl).bind fun _ => alike_pure ident

end Actions

/-- A block, and the items of a sequence, are emitted like those of its canonical form. -/
structure Writable (profile : Profile) (b : Block) : Prop where
  whole : ∀ predecessor,
    Alike (reference profile b.canonical predecessor) (reference profile b predecessor)
  items : Alike (itemReferences profile b.canonical) (itemReferences profile b)

section Lists
variable {profile : Profile}

theorem alike_references {blocks : List Block} (h : ∀ b ∈ blocks, Writable profile b)
    (previous : Option Text) :
    Alike (references profile (canonicalAll blocks) previous)
      (references profile blocks previous) := by
  induction blocks generalizing previous with
  | nil =>
    rw [canonicalAll]
    simp only [references]
    exact alike_pure []
  | cons b rest ih =>
    rw [canonicalAll]
    simp only [references, sharedKey?_canonical]
    refine ((h b List.mem_cons_self).whole previous).bind fun ident => ?_
    refine (ih (fun c hc => h c (List.mem_cons_of_mem _ hc)) _).bind fun refs => ?_
    exact alike_pure _

theorem alike_arm {b : Block} (h : Writable profile b) (label ident exit : Text) :
    Alike
      (arm profile b.canonical (reference profile b.canonical none)
        (itemReferences profile b.canonical) label ident exit)
      (arm profile b (reference profile b none) (itemReferences profile b) label ident exit) := by
  have hkey := sharedKey?_canonical b
  cases b with
  | sequence n items container key =>
    rw [arm, canonical, arm]
    rw [canonical] at hkey
    rw [hkey]
    split
    · exact (h.whole none).bind fun whole => alike_pure _
    · exact h.items.bind fun refs => alike_pure _
  | absent | leaf _ _ | parallel _ _ _ _ | branch _ _ _ _ _ _ | switch _ _ _ | loop _ _ _ _ _ =>
    exact alike_throw _ _

theorem alike_routeReferences {routes : List (Exit × Block)}
    (h : ∀ r ∈ routes, Writable profile r.2) (label ident : Text) :
    Alike (routeReferences profile (canonicalRoutes routes) label ident)
      (routeReferences profile routes label ident) := by
  induction routes with
  | nil =>
    rw [canonicalRoutes]
    simp only [routeReferences]
    exact alike_pure []
  | cons r rest ih =>
    obtain ⟨exit, b⟩ := r
    rw [canonicalRoutes]
    simp only [routeReferences]
    refine (alike_arm (h _ List.mem_cons_self) label ident exit.port).bind fun inner => ?_
    refine (ih fun c hc => h c (List.mem_cons_of_mem _ hc)).bind fun arms => ?_
    exact alike_pure _

theorem alike_heads (members : List Block) :
    Alike ((canonicalAll members).mapM fun m => (liftM m.head : Emitting (Text × Text)))
      (members.mapM fun m => (liftM m.head : Emitting (Text × Text))) := by
  induction members with
  | nil => exact alike_pure []
  | cons b rest ih =>
    rw [canonicalAll, List.mapM_cons, List.mapM_cons]
    refine Alike.bind (alike_lift (by rw [head_canonical])) fun head => ih.bind fun heads => ?_
    exact alike_pure _

/-- Members are emitted in the order of their keys, which are the same for canonical forms. -/
theorem alike_members {members : List Block} (h : ∀ b ∈ members, Writable profile b)
    (keys : List Text) :
    Alike ((sortMembers (keys.zip (memberReferences profile (canonicalAll members)))).mapM (·.2))
      ((sortMembers (keys.zip (memberReferences profile members))).mapM (·.2)) := by
  have hwritable : ∀ x ∈ sortMembers (keys.zip members), Writable profile x.2 := by
    intro x hx
    have hzip := (List.mergeSort_perm _ _).mem_iff.mp hx
    exact h x.2 (List.of_mem_zip hzip).2
  rw [memberReferences_eq, memberReferences_eq, canonicalAll_eq, List.map_map,
    sortMembers_zip_map, sortMembers_zip_map]
  generalize sortMembers (keys.zip members) = sorted at hwritable ⊢
  induction sorted with
  | nil => exact alike_pure []
  | cons x rest ih =>
    rw [List.map_cons, List.mapM_cons, List.map_cons, List.mapM_cons]
    refine ((hwritable x List.mem_cons_self).whole none).bind fun ident => ?_
    refine (ih fun y hy => hwritable y (List.mem_cons_of_mem _ hy)).bind fun refs => ?_
    exact alike_pure _

end Lists

section Writable
variable {profile : Profile}

theorem writable_of_whole {b : Block}
    (hitems : ∀ n items container key, b ≠ .sequence n items container key)
    (h : ∀ predecessor,
      Alike (reference profile b.canonical predecessor) (reference profile b predecessor)) :
    Writable profile b := by
  refine ⟨h, ?_⟩
  cases b with
  | sequence n items container key => exact absurd rfl (hitems n items container key)
  | absent | leaf _ _ | parallel _ _ _ _ | branch _ _ _ _ _ _ | switch _ _ _ | loop _ _ _ _ _ =>
    rw [canonical]
    simp only [itemReferences]
    exact alike_pure []

theorem writable_leaf {n : Nat} {node : Node} (hk : node.kind.isContainer = false) :
    Writable profile (.leaf n node) := by
  have htemplate : node.kind.template ≠ .parallel := by
    generalize node.kind = kind at hk
    cases kind <;> first | exact Template.noConfusion | cases hk
  refine writable_of_whole (by simp) fun predecessor => ?_
  rw [canonical, reference, reference, Node.id_canonical, Node.name_canonical]
  refine (alike_claim node.id node.name).bind fun ident => ?_
  refine (alike_stateNode profile _ node ident node.name {} predecessor
    fun hparallel => absurd hparallel htemplate).bind fun _ => ?_
  exact alike_pure ident

theorem headLabel_canonical (b : Block) (what : Text) :
    headLabel b.canonical what = headLabel b what := by
  rw [headLabel, head_canonical, headLabel]

/-- The sequence of some items is stated like that of their canonical forms. -/
theorem alike_sequence {n : Nat} {items : List Block} (key : Option Text) (what : Text)
    (h : ∀ b ∈ items, Writable profile b) :
    Alike
      (do
        let label ← headLabel (.sequence n (canonicalAll items) none key) what
        namedSequence profile label (references profile (canonicalAll items) none))
      (do
        let label ← headLabel (.sequence n items none key) what
        namedSequence profile label (references profile items none)) := by
  have hlabel := headLabel_canonical (.sequence n items none key) what
  refine Alike.bind (alike_lift (congrArg Except.toOption hlabel)) fun label => ?_
  exact alike_namedSequence profile label (alike_references h none)

theorem writable_chain {n : Nat} {items : List Block} {key : Option Text}
    (h : ∀ b ∈ items, Writable profile b) : Writable profile (.sequence n items none key) := by
  constructor
  · intro predecessor
    have hshared := sharedKey?_canonical (.sequence n items none key)
    rw [canonical, Option.map_none] at hshared ⊢
    cases hkey : (Block.sequence n items none key).sharedKey? with
    | none =>
      rw [reference_plain hkey, reference_plain (hshared.trans hkey)]
      exact alike_sequence none "branch" h
    | some k =>
      match items with
      | [item] =>
        rw [reference_singleton hkey]
        rw [canonicalAll, canonicalAll] at hshared ⊢
        rw [reference_singleton (hshared.trans hkey)]
        exact alike_once k ((h item List.mem_cons_self).whole none)
      | [] =>
        rw [reference_shared hkey (by simp), reference_shared (hshared.trans hkey)
          (by simp [canonicalAll])]
        exact alike_once k (alike_sequence (some k) "chain" h)
      | first :: second :: rest =>
        rw [reference_shared hkey (by simp), reference_shared (hshared.trans hkey)
          (by simp [canonicalAll])]
        exact alike_once k (alike_sequence (some k) "chain" h)
  · rw [canonical]
    simp only [itemReferences]
    exact alike_references h none

theorem writable_sequential {n : Nat} {node : Node} {items : List Block}
    (hk : node.kind = .sequential) (h : ∀ b ∈ items, Writable profile b) :
    Writable profile (.sequence n items (some node) none) := by
  constructor
  · intro predecessor
    rw [canonical, Option.map_some]
    rw [reference_sequential, reference_sequential, Node.id_canonical, Node.name_canonical]
    refine (alike_claim node.id node.name).bind fun ident => ?_
    refine (alike_references h none).bind fun refs => ?_
    refine (alike_stateNode profile _ node ident node.name
      { children := some (.names refs) } predecessor ?_).bind fun _ => alike_pure ident
    simp [hk, NodeKind.template]
  · rw [canonical]
    simp only [itemReferences]
    exact alike_references h none

theorem writable_parallel {n : Nat} {node : Node} {members : List Block} {join : JoinStrategy}
    (h : ∀ b ∈ members, Writable profile b) : Writable profile (.parallel n node members join) := by
  refine writable_of_whole (by simp) fun predecessor => ?_
  rw [canonical]
  unfold reference
  rw [Node.id_canonical, Node.name_canonical]
  refine (alike_claim node.id node.name).bind fun ident => ?_
  refine (alike_heads members).bind fun heads => ?_
  refine (alike_members h _).bind fun refs => ?_
  refine (alike_stateNode profile _ node ident node.name
    { members := some (.names refs), join := some (.str join.name) } predecessor ?_).bind
    fun _ => alike_pure ident
  exact fun _ => rfl

theorem writable_conditional {n : Nat} {node : Node} {condition : Value} {onTrue onFalse : Block}
    (hk : node.kind = .conditional) (h : Writable profile onTrue) (h' : Writable profile onFalse) :
    Writable profile (.branch n node condition onTrue onFalse none) := by
  refine writable_of_whole (by simp) fun predecessor => ?_
  rw [canonical]
  unfold reference
  rw [Node.id_canonical, Node.name_canonical]
  refine (alike_claim node.id node.name).bind fun ident => ?_
  refine (alike_arm h node.name ident "true").bind fun ifTrue => ?_
  refine (alike_arm h' node.name ident "false").bind fun ifFalse => ?_
  refine (alike_stateNode profile _ node ident node.name
    { condition := some condition, ifTrue := some ifTrue, ifFalse := some ifFalse }
    predecessor ?_).bind fun _ => alike_pure ident
  simp [hk, NodeKind.template]

theorem writable_outcome {n : Nat} {node : Node} {condition : Value} {onTrue onFalse : Block}
    {success failure : Text} (hports : node.kind.outcomePorts? = some (success, failure))
    (h : Writable profile onTrue) (h' : Writable profile onFalse) :
    Writable profile (.branch n node condition onTrue onFalse (some success)) := by
  have hne : success ≠ [] := outcomePorts_ne_nil hports
  refine writable_of_whole (by simp) fun predecessor => ?_
  rw [canonical]
  unfold reference
  have hkey : branchKey node.canonical (some success) = branchKey node (some success) := rfl
  simp only [Option.getD_some, hne, if_false, Node.kind_canonical, hports, hkey, Node.id_canonical,
    Node.name_canonical]
  refine alike_get fun p q hpq => ?_
  rw [(written_inj hpq).2.2.2]
  refine (alike_claim (branchKey node (some success)) (node.name ++ " outcome")).bind
    fun ident => ?_
  refine (alike_arm h node.name ident success).bind fun ifTrue => ?_
  refine (alike_arm h' node.name ident failure).bind fun ifFalse => ?_
  exact (alike_stateOutcome profile node ident _ predecessor rfl).bind fun _ => alike_pure ident

theorem writable_switch {n : Nat} {node : Node} {routes : List (Exit × Block)}
    (hk : node.kind = .router) (h : ∀ r ∈ routes, Writable profile r.2) :
    Writable profile (.switch n node routes) := by
  refine writable_of_whole (by simp) fun predecessor => ?_
  rw [canonical]
  unfold reference
  rw [Node.id_canonical, Node.name_canonical]
  refine (alike_claim node.id node.name).bind fun ident => ?_
  refine (alike_routeReferences h node.name ident).bind fun arms => ?_
  refine (alike_stateNode profile _ node ident node.name
    { routes := some (.list arms) } predecessor ?_).bind fun _ => alike_pure ident
  simp [hk, NodeKind.template]

theorem writable_loop {n : Nat} {node : Node} {body : Block} {kind : LoopKind} {params : Members}
    (hk : node.kind = .loop) (h : Writable profile body) :
    Writable profile (.loop n node body kind params) := by
  refine writable_of_whole (by simp) fun predecessor => ?_
  rw [canonical]
  unfold reference
  rw [Node.id_canonical, Node.name_canonical]
  refine (alike_claim node.id node.name).bind fun ident => ?_
  refine (alike_arm h node.name ident "body").bind fun inner => ?_
  refine (alike_stateNode profile _ node ident node.name
    { body := some (if profile.bodyAsList then .list [inner] else inner) }
    predecessor ?_).bind fun _ => alike_pure ident
  simp [hk, NodeKind.template]

theorem writable_of_formed {b : Block} (h : b.Formed) : Writable profile b := by
  induction h with
  | leaf hk => exact writable_leaf hk
  | chain _ _ ih => exact writable_chain ih
  | sequential hk _ _ ih => exact writable_sequential hk ih
  | parallel _ _ _ ih => exact writable_parallel ih
  | conditional hk _ _ _ _ _ ih ih' => exact writable_conditional hk ih ih'
  | outcome hports _ _ _ _ ih ih' => exact writable_outcome hports ih ih'
  | switch hk _ _ ih => exact writable_switch hk ih
  | loop hk _ _ _ ih => exact writable_loop hk ih

end Writable

theorem alike_topReferences (profile : Profile) {b : Block} (h : b.Formed) :
    Alike (topReferences profile b.canonical) (topReferences profile b) := by
  have hb : Writable profile b := writable_of_formed h
  have hwhole := (hb.whole none).bind fun ident => alike_pure [ident]
  cases b with
  | sequence n items container key =>
    cases container with
    | none =>
      have hkey := sharedKey?_canonical (.sequence n items none key)
      rw [topReferences]
      rw [canonical, Option.map_none] at hkey ⊢
      rw [topReferences, hkey]
      split
      · exact hb.items
      · exact hwhole
    | some node => exact hwhole
  | absent | leaf _ _ | parallel _ _ _ _ | branch _ _ _ _ _ _ | switch _ _ _ | loop _ _ _ _ _ =>
    exact hwhole

theorem constructs_congr {ss ts : List Statement}
    (h : ss.map Statement.lines = ts.map Statement.lines) : constructs ss = constructs ts := by
  have hview : ∀ us : List Statement, constructs us =
      if (us.map Statement.lines).isEmpty then []
      else rule "Constructs" :: (us.map Statement.lines).flatMap fun ls => ls ++ [emptyLine] := by
    intro us
    rw [constructs, List.flatMap_map, List.isEmpty_map]
  rw [hview, h, ← hview]

/-- The code of a block is that of its canonical form. -/
theorem toOption_emit_canonical {b : Block} (h : b.Formed) (profile : Profile) (name : Text) :
    (emit profile name b.canonical).toOption = (emit profile name b).toOption := by
  have hprogram : (Program.ofBlock profile name b.canonical).toOption.map
        (Program.lines profile name) =
      (Program.ofBlock profile name b).toOption.map (Program.lines profile name) := by
    refine toOption_bind_congr
      (alike_topReferences profile h (.start profile) (.start profile) rfl) ?_
    rintro ⟨refs, p⟩ ⟨_, q⟩ hwritten
    obtain ⟨rfl, hpq⟩ := Prod.mk.inj hwritten
    refine congrArg some ?_
    rw [Program.lines, constructs_congr (written_inj hpq).1, Program.lines]
    rfl
  refine Option.map_id_apply.symm.trans (Eq.trans ?_ Option.map_id_apply)
  exact toOption_bind_congr hprogram fun _ _ hlines => congrArg some hlines

end WorkflowCompiler.Emission
