import Mathlib
import WorkflowCompiler.Proofs.Block.Form
import WorkflowCompiler.Proofs.Resolution.Assembly

/-! # The form of what a graph is resolved to

Whatever a run gives is well formed: nodes stand in blocks of their kinds, arms are sequences, and a
split by an outcome follows its step also after chains have been joined.
-/
namespace WorkflowCompiler.Resolution
open Block

/-- Blocks one after the other that can be stated in this order. -/
def Formed (items : List Block) : Prop := Led [] items ∧ ∀ b ∈ items, b.Formed

theorem formed_nil : Formed [] := ⟨trivial, by simp⟩

theorem Formed.append {xs ys : List Block} (h : Formed xs) (h' : Formed ys) :
    Formed (xs ++ ys) := by
  refine ⟨h.1.append h'.1, ?_⟩
  intro b hb
  rcases List.mem_append.mp hb with hb | hb
  · exact h.2 b hb
  · exact h'.2 b hb

theorem formed_flatten {chains : List (List Block)} (h : ∀ items ∈ chains, Formed items) :
    Formed chains.flatten := by
  induction chains with
  | nil => exact formed_nil
  | cons items rest ih =>
    rw [List.flatten_cons]
    exact (h items List.mem_cons_self).append (ih fun x hx => h x (List.mem_cons_of_mem _ hx))

theorem formed_splice {chains : List (List Block)} (h : ∀ items ∈ chains, Formed items) :
    Formed (splice chains) := by
  obtain ⟨hled, hall⟩ := formed_flatten h
  refine ⟨?_, fun b hb => hall b (mem_flatten_of_mem_splice hb)⟩
  obtain ⟨held, hsplice, hshared⟩ := exists_splice chains
  rw [hsplice]
  exact (hled.filter fun b hb hs => (hall b hb).subject?_of_shared hs).append
    (led_of_shared hshared)

theorem Laid.Joins.formed {l : Laid} (h : l.Joins) (hc : ∀ c ∈ l.calls, Formed c.result) :
    Formed l.content := by
  have hresults : ∀ items ∈ l.calls.map (·.result), Formed items := by
    intro items hitems
    obtain ⟨c, hmem, rfl⟩ := List.mem_map.mp hitems
    exact hc c hmem
  rcases h.content with hcontent | hcontent
  · rw [hcontent]
    exact formed_splice hresults
  · exact hresults _ (by simp [hcontent])

theorem Laid.WrapsArm.formed {l : Laid} {b : Block} (h : l.WrapsArm b) (hl : Formed l.content) :
    b.Formed ∧ b.IsChain := by
  rcases h with ⟨hcontent, _, hshared⟩ | ⟨_, n, rfl, _⟩
  · have hb : b.Formed := hl.2 b (by simp [hcontent])
    refine ⟨hb, ?_⟩
    cases hb with
    | chain _ _ => trivial
    | leaf _ | sequential _ _ _ | parallel _ _ _ | conditional _ _ _ _ _ _ | outcome _ _ _ _ _
    | switch _ _ _ | loop _ _ _ _ => simp [sharedKey?] at hshared
  · exact ⟨.chain hl.2 hl.1, trivial⟩

theorem MemberBlocks.formed {ls : List Laid} {members : List Block} (h : MemberBlocks ls members)
    (hl : ∀ l ∈ ls, Formed l.content) : ∀ b ∈ members, b.Formed ∧ Led [] [b] := by
  induction h with
  | nil => simp
  | skip _ _ _ ih => exact ih fun l hl' => hl l (List.mem_cons_of_mem _ hl')
  | @cons l rest b members hw _ ih =>
    intro x hx
    rcases List.mem_cons.mp hx with rfl | hx
    · have hself := hl l List.mem_cons_self
      rcases hw.wraps with ⟨hcontent, _⟩ | ⟨n, rfl, _⟩
      · exact ⟨hself.2 x (by simp [hcontent]), hcontent ▸ hself.1⟩
      · exact ⟨.chain hself.2 hself.1, led_singleton (by simp [subject?])⟩
    · exact ih (fun l hl' => hl l (List.mem_cons_of_mem _ hl')) x hx

theorem routes_formed {R : Laid → Exit × Block → Prop} (hR : ∀ l r, R l r → l.WrapsArm r.2)
    {ls : List Laid} {routes : List (Exit × Block)} (h : List.Forall₂ R ls routes)
    (hl : ∀ l ∈ ls, Formed l.content) : ∀ r ∈ routes, r.2.Formed ∧ r.2.IsChain := by
  induction h with
  | nil => simp
  | @cons l r ls routes hw _ ih =>
    intro x hx
    rcases List.mem_cons.mp hx with rfl | hx
    · exact (hR _ _ hw).formed (hl l List.mem_cons_self)
    · exact ih (fun l hl' => hl l (List.mem_cons_of_mem _ hl')) x hx

theorem isContainer_of_outcomePorts {kind : NodeKind} {ports : Text × Text}
    (h : kind.outcomePorts? = some ports) : kind.isContainer = false := by
  cases kind <;> first | rfl | simp [NodeKind.outcomePorts?] at h

theorem Formed.cons {b : Block} {items : List Block} (hb : b.Formed)
    (hs : ∀ node, b.subject? ≠ some (.outcome node)) (h : Formed items) : Formed (b :: items) := by
  have hone : Formed [b] := ⟨led_singleton hs, by simpa using hb⟩
  exact hone.append h

theorem Assembled.formed {node : Node} {heads items : List Block} {laid : List Laid}
    (h : Assembled node heads laid items) (hl : ∀ l ∈ laid, Formed l.content) : Formed items := by
  cases h with
  | @step n rest hk _ =>
    exact .cons (.leaf hk) (by simp [subject?]) (hl rest (by simp))
  | @sequential n inner rest hk _ _ =>
    have hinner := hl inner (by simp)
    exact .cons (.sequential hk hinner.2 hinner.1) (by simp [subject?]) (hl rest (by simp))
  | @parallel n inner members join rest hk _ hm _ _ =>
    have hmembers := hm.formed fun l hmem => hl l (List.mem_append_left _ hmem)
    exact .cons (.parallel hk (fun b hb => (hmembers b hb).1) fun b hb => (hmembers b hb).2)
      (by simp [subject?]) (hl rest (by simp))
  | @conditional n condition onTrue onFalse a b rest hk hc ha hb _ _ _ =>
    obtain ⟨hyes, hyes'⟩ := ha.formed (hl a (by simp))
    obtain ⟨hno, hno'⟩ := hb.formed (hl b (by simp))
    exact .cons (.conditional hk hc hyes hno hyes' hno') (by simp [subject?]) (hl rest (by simp))
  | @outcome m n success failure onTrue onFalse a b rest hk ha hb _ _ _ =>
    obtain ⟨hyes, hyes'⟩ := ha.formed (hl a (by simp))
    obtain ⟨hno, hno'⟩ := hb.formed (hl b (by simp))
    have hsplit : (Block.branch n node (.str success) onTrue onFalse (some success)).Formed :=
      .outcome hk hyes hno hyes' hno'
    have hpair : Formed
        [.leaf m node, .branch n node (.str success) onTrue onFalse (some success)] := by
      refine ⟨⟨by simp [subject?], ?_, trivial⟩, ?_⟩
      · intro node' hs
        simp only [subject?] at hs
        split at hs
        · cases hs
        · cases hs
          simp [subject?, Subject.key]
      · intro x hx
        rcases List.mem_cons.mp hx with rfl | hx
        · exact .leaf (isContainer_of_outcomePorts hk)
        · rwa [List.mem_singleton.mp hx]
    exact hpair.append (hl rest (by simp))
  | @switch n inner routes rest hk _ hf _ =>
    have hroutes := routes_formed (fun _ _ h => h.1) hf
      fun l hmem => hl l (List.mem_append_left _ hmem)
    exact .cons (.switch hk (fun r hr => (hroutes r hr).1) fun r hr => (hroutes r hr).2)
      (by simp [subject?]) (hl rest (by simp))
  | @loop n body kind params inner rest hk hkind _ hw _ _ =>
    obtain ⟨hbody, hbody'⟩ := hw.formed (hl inner (by simp))
    exact .cons (.loop hk hkind hbody hbody') (by simp [subject?]) (hl rest (by simp))

theorem Logs.formed {facts : Facts} {active : List Text} {c : Call} {p q : Progress}
    {made : List Block} (h : Logs facts active c p made q) (hp : ∀ s ∈ p.shared, Formed [s.2]) :
    (∀ s ∈ q.shared, Formed [s.2]) ∧ Formed c.result := by
  refine h.keep (P := fun _ => Formed) (fun _ => formed_nil) ?_ ?_ hp
  · intro n id items hitems
    exact .cons (.chain hitems.2 hitems.1) (by simp [subject?]) formed_nil
  · intro e c he hcalls
    exact he.assembled.formed fun l hl => (he.joins l hl).formed (hcalls l hl)

theorem RootLog.formed {g : Graph} {root : Block} {l : Laid} {made : List Block} {q : Progress}
    (h : RootLog g root l made q) : Formed l.content := by
  have hcalls := h.logged.keep (I := fun p => ∀ s ∈ p.shared, Formed [s.2])
    (P := fun c => Formed c.result) (fun hc hp => hc.formed hp) (fun p hp => hp) (by simp)
  rw [callsOf_calls] at hcalls
  exact h.joins.formed hcalls.2

end WorkflowCompiler.Resolution
