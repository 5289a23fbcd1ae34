import Mathlib
import WorkflowCompiler.Block.Describe
import WorkflowCompiler.Proofs.Block.Subject

/-! # The form of blocks

What can be stated: every block stands for a node of the right kind, its arms are sequences, and a
split by an outcome follows the step that has the outcome.
-/
namespace WorkflowCompiler.Block

/-- A sequence that stands for no node. -/
def IsChain : Block → Prop
  | .sequence _ _ none _ => True
  | _ => False

theorem IsChain.exists_eq {b : Block} (h : b.IsChain) :
    ∃ n items key, b = .sequence n items none key := by
  unfold IsChain at h
  split at h
  · exact ⟨_, _, _, rfl⟩
  · exact h.elim

/-- Every split by an outcome among some blocks comes after its step, if the steps before them are
those of some keys. -/
def Led (known : List Text) : List Block → Prop
  | [] => True
  | b :: rest => (∀ node, b.subject? = some (.outcome node) → node.id ∈ known) ∧
    Led (b.subject?.toList.map Subject.key ++ known) rest

theorem Led.mono {known known' : List Text} {bs : List Block} (h : Led known bs)
    (hk : ∀ key ∈ known, key ∈ known') : Led known' bs := by
  induction bs generalizing known known' with
  | nil => trivial
  | cons b rest ih =>
    refine ⟨fun node hs => hk _ (h.1 node hs), ih h.2 ?_⟩
    intro key hkey
    rcases List.mem_append.mp hkey with hkey | hkey
    · exact List.mem_append_left _ hkey
    · exact List.mem_append_right _ (hk key hkey)

theorem Led.append {known : List Text} {xs ys : List Block} (h : Led known xs) (h' : Led [] ys) :
    Led known (xs ++ ys) := by
  induction xs generalizing known with
  | nil => exact h'.mono (by simp)
  | cons b rest ih => exact ⟨h.1, ih h.2⟩

theorem led_singleton {b : Block} (h : ∀ node, b.subject? ≠ some (.outcome node)) : Led [] [b] :=
  ⟨fun node hs => absurd hs (h node), trivial⟩

theorem subject?_of_shared {b : Block} (h : b.sharedKey?.isSome) (node : Node) :
    b.subject? ≠ some (.outcome node) := by
  cases b <;> simp [sharedKey?] at h
  simp [subject?]

theorem Led.filter {known : List Text} {bs : List Block} (h : Led known bs)
    (hnone : ∀ b ∈ bs, b.sharedKey?.isSome → b.subject? = none) :
    Led known (bs.filter (·.sharedKey?.isNone)) := by
  induction bs generalizing known with
  | nil => trivial
  | cons b rest ih =>
    have hrest := fun known (h : Led known rest) =>
      ih h fun c hc => hnone c (List.mem_cons_of_mem _ hc)
    cases hb : b.sharedKey? with
    | none =>
      rw [List.filter_cons_of_pos (by simp [hb])]
      exact ⟨h.1, hrest _ h.2⟩
    | some key =>
      rw [List.filter_cons_of_neg (by simp [hb])]
      have hled := h.2
      rw [hnone b List.mem_cons_self (by simp [hb])] at hled
      exact hrest _ hled

theorem led_of_shared {bs : List Block} (h : ∀ b ∈ bs, b.sharedKey?.isSome) : Led [] bs := by
  induction bs with
  | nil => trivial
  | cons b rest ih =>
    refine ⟨fun node hs => absurd hs (subject?_of_shared (h b List.mem_cons_self) node), ?_⟩
    exact (ih fun c hc => h c (List.mem_cons_of_mem _ hc)).mono (by simp)

/-- What a graph is resolved to. -/
inductive Formed : Block → Prop
  | leaf {n : Nat} {node : Node} : node.kind.isContainer = false → Formed (.leaf n node)
  | chain {n : Nat} {items : List Block} {key : Option Text} : (∀ b ∈ items, Formed b) →
    Led [] items → Formed (.sequence n items none key)
  | sequential {n : Nat} {node : Node} {items : List Block} : node.kind = .sequential →
    (∀ b ∈ items, Formed b) → Led [] items → Formed (.sequence n items (some node) none)
  | parallel {n : Nat} {node : Node} {members : List Block} {join : JoinStrategy} :
    node.kind = .parallel → (∀ b ∈ members, Formed b) → (∀ b ∈ members, Led [] [b]) →
    Formed (.parallel n node members join)
  | conditional {n : Nat} {node : Node} {condition : Value} {onTrue onFalse : Block} :
    node.kind = .conditional → condition = (node.settings.get? "condition").getD (.str "") →
    Formed onTrue → Formed onFalse → onTrue.IsChain →
    onFalse.IsChain → Formed (.branch n node condition onTrue onFalse none)
  | outcome {n : Nat} {node : Node} {condition : Value} {onTrue onFalse : Block}
    {success failure : Text} : node.kind.outcomePorts? = some (success, failure) →
    Formed onTrue → Formed onFalse → onTrue.IsChain → onFalse.IsChain →
    Formed (.branch n node condition onTrue onFalse (some success))
  | switch {n : Nat} {node : Node} {routes : List (Exit × Block)} : node.kind = .router →
    (∀ r ∈ routes, Formed r.2) → (∀ r ∈ routes, r.2.IsChain) → Formed (.switch n node routes)
  | loop {n : Nat} {node : Node} {body : Block} {kind : LoopKind} {params : Members} :
    node.kind = .loop → LoopKind.ofValue (node.settings.get "loopType") = .ok kind →
    Formed body → body.IsChain → Formed (.loop n node body kind params)

theorem Formed.isChain_of_shared {b : Block} (h : Formed b) (hs : b.sharedKey?.isSome) :
    b.IsChain := by
  cases h with
  | chain _ _ => trivial
  | leaf _ | sequential _ _ _ | parallel _ _ _ | conditional _ _ _ _ _ _ | outcome _ _ _ _ _
  | switch _ _ _ | loop _ _ _ _ => simp [sharedKey?] at hs

theorem Formed.subject?_of_shared {b : Block} (h : Formed b) (hs : b.sharedKey?.isSome) :
    b.subject? = none := by
  obtain ⟨n, items, key, rfl⟩ := (h.isChain_of_shared hs).exists_eq
  rfl

theorem subject_mem_work {b : Block} (hb : b.sharedKey? = none) {subject : Subject}
    (hs : b.subject? = some subject) {table : List (Text × Block)} {done : List Text} :
    subject ∈ work table done [b] := by
  simp [work, own_of_unshared hb, hs]

theorem Formed.subject_mem_work {b : Block} (h : Formed b) {subject : Subject}
    (hs : b.subject? = some subject) {table : List (Text × Block)} {done : List Text} :
    subject ∈ work table done [b] := by
  cases hb : b.sharedKey? with
  | none => exact Block.subject_mem_work hb hs
  | some key =>
    rw [h.subject?_of_shared (by simp [hb])] at hs
    cases hs

theorem outcomePorts_ne_nil {kind : NodeKind} {success failure : Text}
    (h : kind.outcomePorts? = some (success, failure)) : success ≠ [] := by
  cases kind <;> simp only [NodeKind.outcomePorts?, reduceCtorEq, Option.some.injEq,
    Prod.mk.injEq] at h <;> exact h.1 ▸ by decide

theorem exists_describeAll {bs : List Block} (h : ∀ b ∈ bs, ∃ text, b.describe = .ok text) :
    ∃ texts, describeAll bs = .ok texts := by
  induction bs with
  | nil => exact ⟨[], rfl⟩
  | cons b rest ih =>
    obtain ⟨text, htext⟩ := h b List.mem_cons_self
    obtain ⟨texts, htexts⟩ := ih fun c hc => h c (List.mem_cons_of_mem _ hc)
    exact ⟨text :: texts, by rw [describeAll, htext, htexts]; rfl⟩

theorem exists_describeRoutes {routes : List (Exit × Block)}
    (h : ∀ r ∈ routes, ∃ text, r.2.describe = .ok text) :
    ∃ texts, describeRoutes routes = .ok texts := by
  induction routes with
  | nil => exact ⟨[], rfl⟩
  | cons r rest ih =>
    obtain ⟨exit, b⟩ := r
    obtain ⟨text, htext⟩ := h (exit, b) List.mem_cons_self
    obtain ⟨texts, htexts⟩ := ih fun c hc => h c (List.mem_cons_of_mem _ hc)
    exact ⟨_ :: texts, by rw [describeRoutes, htext, htexts]; rfl⟩

theorem Formed.exists_describe {b : Block} (h : Formed b) : ∃ text, b.describe = .ok text := by
  induction h with
  | leaf _ => exact ⟨_, rfl⟩
  | chain _ _ ih | sequential _ _ _ ih | parallel _ _ _ ih =>
    obtain ⟨texts, htexts⟩ := exists_describeAll ih
    exact ⟨_, by rw [describe, htexts]; rfl⟩
  | conditional _ _ _ _ _ _ iht ihf | outcome _ _ _ _ _ iht ihf =>
    obtain ⟨yes, hyes⟩ := iht
    obtain ⟨no, hno⟩ := ihf
    exact ⟨_, by rw [describe, hyes, hno]; rfl⟩
  | switch _ _ _ ih =>
    obtain ⟨texts, htexts⟩ := exists_describeRoutes ih
    exact ⟨_, by rw [describe, htexts]; rfl⟩
  | loop _ _ _ _ ih =>
    obtain ⟨text, htext⟩ := ih
    exact ⟨_, by rw [describe, htext]; rfl⟩

theorem Formed.exists_head {b : Block} (h : Formed b) : ∃ first, b.head = .ok first := by
  induction h with
  | @chain n items key _ _ ih =>
    cases items with
    | nil => exact ⟨_, rfl⟩
    | cons b rest =>
      obtain ⟨first, hfirst⟩ := ih b List.mem_cons_self
      exact ⟨first, by rw [Block.head, headOfItems, hfirst]⟩
  | leaf _ | sequential _ _ _ _ | parallel _ _ _ _ | conditional _ _ _ _ _ _ _ _
  | outcome _ _ _ _ _ _ _ | switch _ _ _ _ | loop _ _ _ _ _ => exact ⟨_, by rw [Block.head]⟩

end WorkflowCompiler.Block
