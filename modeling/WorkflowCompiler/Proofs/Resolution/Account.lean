import Mathlib
import WorkflowCompiler.Proofs.Resolution.Shared

/-! # What the log of a run accounts for

The log of a run has consecutive serial numbers. Whatever stands inside the blocks of the result is
from the log or from the table before the run, and everything in the log stands inside the result.
So the blocks of a workflow are exactly the blocks of its log.
-/
namespace WorkflowCompiler.Resolution
open Block

/-- The log has the serial numbers that were given out. -/
structure Counted (p : Progress) (made : List Block) (q : Progress) : Prop where
  next : q.next = p.next + made.length
  serials : made.map serial = List.range' p.next made.length

theorem Counted.nil (p : Progress) : Counted p [] p := ⟨rfl, rfl⟩

theorem Counted.append {p q r : Progress} {made more : List Block} (h : Counted p made q)
    (h' : Counted q more r) : Counted p (made ++ more) r where
  next := by
    rw [h'.next, h.next, List.length_append]
    omega
  serials := by
    rw [List.map_append, h.serials, h'.serials, h.next, List.length_append, List.range'_append_1]

theorem counted_make {p : Progress} {b : Block} (h : b.serial = p.next) :
    Counted p [b] p.advance := ⟨rfl, by simp [h]⟩

/-- A block is from the log or from the table. -/
def From (p : Progress) (made : List Block) (b : Block) : Prop :=
  b ∈ made ∨ ∃ s ∈ p.shared, s.2 = b

theorem From.mono {p : Progress} {made more : List Block} (h : ∀ b ∈ made, b ∈ more) {b : Block}
    (hb : From p made b) : From p more b := hb.imp_left (h b)

/-- Where the blocks of a run are from: the table holds what it held before and blocks of the log,
and so do the blocks of the log. -/
structure Sourced (p : Progress) (made : List Block) (q : Progress) (result : List Block) :
    Prop where
  table : ∀ s ∈ q.shared, s ∈ p.shared ∨ s.2 ∈ made
  children : ∀ b ∈ made, ∀ c ∈ b.children, From p made c
  result : ∀ b ∈ result, From p made b

theorem From.earlier {p q : Progress} {made more : List Block}
    (h : ∀ s ∈ q.shared, s ∈ p.shared ∨ s.2 ∈ made) {b : Block} (hb : From q more b) :
    From p (made ++ more) b := by
  rcases hb with hb | ⟨s, hs, rfl⟩
  · exact Or.inl (List.mem_append_right _ hb)
  · rcases h s hs with hs | hs
    · exact Or.inr ⟨s, hs, rfl⟩
    · exact Or.inl (List.mem_append_left _ hs)

/-- What a chain adds to the log. -/
structure Accounts (c : Call) (p : Progress) (made : List Block) (q : Progress) : Prop where
  counted : Counted p made q
  sourced : Sourced p made q c.result
  held : TableSound p → ∀ b ∈ made, ∃ item ∈ c.result, b.Within item

/-- What events add to the log. The blocks that they make themselves are not looked into yet. -/
structure EventAccounts (p : Progress) (events : List Event) (made : List Block) (q : Progress) :
    Prop where
  counted : Counted p made q
  table : ∀ s ∈ q.shared, s ∈ p.shared ∨ s.2 ∈ made
  makes : ∀ b ∈ makesOf events, b ∈ made
  children : ∀ b ∈ made, b ∈ makesOf events ∨ ∀ c ∈ b.children, From p made c
  results : ∀ c ∈ callsOf events, ∀ b ∈ c.result, From p made b
  held : TableSound p → ∀ b ∈ made, b ∈ makesOf events ∨
    ∃ c ∈ callsOf events, ∃ item ∈ c.result, b.Within item

theorem Logged.accounts {facts : Facts} {active : List Text} {p q : Progress} {events : List Event}
    {made : List Block}
    (h : Logged (fun c p made q => Logs facts active c p made q ∧ Accounts c p made q)
      p events made q) : EventAccounts p events made q := by
  induction h with
  | nil => exact ⟨.nil _, fun s hs => Or.inl hs, by simp, by simp, by simp, by simp⟩
  | @call p q r c events made more hc _ ih =>
    obtain ⟨hlogs, hc⟩ := hc
    have hleft : ∀ b ∈ made, b ∈ made ++ more := fun b hb => List.mem_append_left _ hb
    refine ⟨hc.counted.append ih.counted, ?_, ?_, ?_, ?_, ?_⟩
    · intro s hs
      rcases ih.table s hs with hs | hs
      · exact (hc.sourced.table s hs).imp_right (hleft _)
      · exact Or.inr (List.mem_append_right _ hs)
    · intro b hb
      exact List.mem_append_right _ (ih.makes b hb)
    · intro b hb
      rcases List.mem_append.mp hb with hb | hb
      · exact Or.inr fun x hx => (hc.sourced.children b hb x hx).mono hleft
      · exact (ih.children b hb).imp_right fun h x hx => (h x hx).earlier hc.sourced.table
    · intro c' hc' b hb
      rcases List.mem_cons.mp hc' with rfl | hc'
      · exact (hc.sourced.result b hb).mono hleft
      · exact (ih.results c' hc' b hb).earlier hc.sourced.table
    · intro hp b hb
      rcases List.mem_append.mp hb with hb | hb
      · obtain ⟨item, hitem, hw⟩ := hc.held hp b hb
        exact Or.inr ⟨c, List.mem_cons_self, item, hitem, hw⟩
      · rcases ih.held (hlogs.tabled hp).1 b hb with hm | ⟨c', hc', hw⟩
        · exact Or.inl hm
        · exact Or.inr ⟨c', List.mem_cons_of_mem _ hc', hw⟩
  | @make p r b events more hb _ ih =>
    have hright : ∀ x ∈ more, x ∈ b :: more := fun x hx => List.mem_cons_of_mem _ hx
    have hfrom : ∀ {x}, From p.advance more x → From p (b :: more) x :=
      fun hx => From.mono hright hx
    refine ⟨(counted_make hb).append ih.counted, ?_, ?_, ?_, ?_, ?_⟩
    · intro s hs
      exact (ih.table s hs).imp_right (hright _)
    · intro x hx
      rcases List.mem_cons.mp hx with rfl | hx
      · exact List.mem_cons_self
      · exact hright x (ih.makes x hx)
    · intro x hx
      rcases List.mem_cons.mp hx with rfl | hx
      · exact Or.inl List.mem_cons_self
      · exact (ih.children x hx).imp (fun h => List.mem_cons_of_mem _ h)
          fun h y hy => hfrom (h y hy)
    · intro c hc x hx
      exact hfrom (ih.results c hc x hx)
    · intro hp x hx
      rcases List.mem_cons.mp hx with rfl | hx
      · exact Or.inl List.mem_cons_self
      · exact (ih.held ⟨hp.nodup, hp.form, hp.closed⟩ x hx).imp_left
          fun h => List.mem_cons_of_mem _ h

theorem Entry.Of.accounts {facts : Facts} {e : Entry} {c : Call} (he : e.Of facts c)
    {active : List Text} {p q : Progress} {made : List Block}
    (hl : Logged (fun c p made q => Logs facts active c p made q ∧ Accounts c p made q)
      p e.events made q) : Accounts c p made q := by
  have ha := hl.accounts
  have hown : ∀ b, b ∈ ownBlocks e.heads e.laid ↔ b ∈ makesOf e.events :=
    fun b => he.makes.mem_iff.symm
  have hcall : ∀ l ∈ e.laid, ∀ c ∈ l.calls, c ∈ callsOf e.events :=
    fun l hl c hc => he.calls ▸ List.mem_flatMap.mpr ⟨l, hl, hc⟩
  have hfrom : ∀ b, b ∈ ownBlocks e.heads e.laid ∨ (∃ l ∈ e.laid, b ∈ l.content) →
      From p made b := by
    rintro b (hb | ⟨l, hl, hb⟩)
    · exact Or.inl (ha.makes b ((hown b).mp hb))
    · obtain ⟨c', hc', hb⟩ := (he.joins l hl).mem_result hb
      exact ha.results c' (hcall l hl c' hc') b hb
  refine ⟨ha.counted, ⟨ha.table, ?_, ?_⟩, ?_⟩
  · intro b hb x hx
    rcases ha.children b hb with hb | hb
    · exact hfrom x (he.assembled.child_origin ((hown b).mpr hb) hx)
    · exact hb x hx
  · intro b hb
    exact hfrom b (he.assembled.item_origin hb)
  · intro hp b hb
    obtain ⟨hq, _, hin⟩ := (hl.mono fun hc => hc.1.tabled).tabled hp
    rcases ha.held hp b hb with hb | ⟨c', hc', item, hitem, hw⟩
    · exact he.assembled.holds (Or.inl ((hown b).mpr hb))
    · rw [he.calls] at hc'
      obtain ⟨l, hl, hc'⟩ := List.mem_flatMap.mp hc'
      obtain ⟨y, hy, hw'⟩ :=
        (he.joins l hl).holds hq (fun c hc => hin c (hcall l hl c hc)) hc' hitem
      obtain ⟨z, hz, hw''⟩ := he.assembled.holds (Or.inr ⟨l, hl, hy⟩)
      exact ⟨z, hz, (hw.trans hw').trans hw''⟩

theorem Logs.accounts {facts : Facts} {active : List Text} {c : Call} {p q : Progress}
    {made : List Block} (h : Logs facts active c p made q) : Accounts c p made q := by
  refine Logs.induction (motive := fun _ c p made q => Accounts c p made q) ?_ h
  intro active c p made q hs
  cases hs with
  | stopped _ => exact ⟨.nil p, ⟨fun s hs => Or.inl hs, by simp, by simp⟩, by simp⟩
  | known _ _ _ hlookup =>
    refine ⟨.nil p, ⟨fun s hs => Or.inl hs, by simp, ?_⟩, by simp⟩
    intro b hb
    rw [List.mem_singleton.mp hb]
    exact Or.inr ⟨_, mem_of_lookup hlookup, rfl⟩
  | @fresh owner stop id items _ r made e _ _ _ _ _ he hl =>
    obtain ⟨hcounted, hsourced, hheld⟩ := he.accounts hl
    have hleft : ∀ b ∈ made, b ∈ made ++ [.sequence r.next items none (some id)] :=
      fun b hb => List.mem_append_left _ hb
    refine ⟨?_, ⟨?_, ?_, ?_⟩, ?_⟩
    · have hlast : Counted r [.sequence r.next items none (some id)] (r.share id items) :=
        ⟨rfl, by simp [serial]⟩
      exact Counted.append ⟨hcounted.next, hcounted.serials⟩ hlast
    · intro s hs
      rcases List.mem_cons.mp hs with rfl | hs
      · exact Or.inr (by simp)
      · exact (hsourced.table s hs).imp_right (hleft _)
    · intro b hb x hx
      rcases List.mem_append.mp hb with hb | hb
      · exact From.mono hleft (hsourced.children b hb x hx)
      · rw [List.mem_singleton.mp hb] at hx
        exact From.mono hleft (hsourced.result x hx)
    · intro b hb
      exact Or.inl (List.mem_append_right _ hb)
    · intro hp b hb
      refine ⟨_, List.mem_singleton_self _, ?_⟩
      rcases List.mem_append.mp hb with hb | hb
      · obtain ⟨item, hitem, hw⟩ := hheld ⟨hp.nodup, hp.form, hp.closed⟩ b hb
        exact hw.trans (within_of_mem_children hitem)
      · rw [List.mem_singleton.mp hb]
        exact .refl _
  | entered e _ _ _ he hl => exact he.accounts hl

section Root
variable {g : Graph} {root : Block} {l : Laid} {made : List Block} {q : Progress}

theorem tableSound_start : TableSound {} := ⟨by simp, by simp, by simp [SharedIn]⟩

theorem RootLog.accounts (h : RootLog g root l made q) :
    EventAccounts {} (l.calls.map .call) made q :=
  (h.logged.mono fun hc => ⟨hc, hc.accounts⟩).accounts

theorem RootLog.within_iff (h : RootLog g root l made q) {x : Block} :
    x.Within root ↔ x ∈ made ++ [root] := by
  have ha := h.accounts
  have hfrom : ∀ b, From {} made b → b ∈ made := by
    rintro b (hb | ⟨s, hs, _⟩)
    · exact hb
    · exact absurd hs List.not_mem_nil
  have hcontent : ∀ b ∈ l.content, b ∈ made := by
    intro b hb
    obtain ⟨c, hc, hb⟩ := h.joins.mem_result hb
    exact hfrom b (ha.results c (by simpa [callsOf_calls] using hc) b hb)
  constructor
  · intro hx
    induction hx using Relation.ReflTransGen.head_induction_on with
    | refl => simp
    | head hac _ ih =>
      rcases List.mem_append.mp ih with hb | hb
      · rcases ha.children _ hb with hm | hc
        · simp [makesOf_calls] at hm
        · exact List.mem_append_left _ (hfrom _ (hc _ hac))
      · rw [List.mem_singleton.mp hb, h.root] at hac
        exact List.mem_append_left _ (hcontent _ hac)
  · intro hx
    rcases List.mem_append.mp hx with hx | hx
    · obtain ⟨hq, _, hin⟩ := (h.logged.mono fun hc => hc.tabled).tabled tableSound_start
      rcases ha.held tableSound_start x hx with hm | ⟨c, hc, item, hitem, hw⟩
      · simp [makesOf_calls] at hm
      · rw [callsOf_calls] at hc hin
        obtain ⟨y, hy, hw'⟩ := h.joins.holds hq hin hc hitem
        rw [h.root]
        exact (hw.trans hw').trans (within_of_mem_children hy)
    · rw [List.mem_singleton.mp hx]
      exact .refl _

theorem RootLog.serials_nodup (h : RootLog g root l made q) :
    ((made ++ [root]).map serial).Nodup := by
  have hcounted := h.accounts.counted
  rw [List.map_append, hcounted.serials, h.root]
  refine List.Nodup.append List.nodup_range' (List.nodup_singleton _) ?_
  intro n hn hn'
  simp only [List.map_cons, List.map_nil, List.mem_singleton, serial, hcounted.next] at hn'
  simp only [List.mem_range'_1] at hn
  omega

theorem RootLog.coherent (h : RootLog g root l made q) : Coherent (·.Within root) := by
  intro a b ha hb hs
  exact List.inj_on_of_nodup_map h.serials_nodup (h.within_iff.mp ha) (h.within_iff.mp hb) hs

theorem RootLog.within_of_shared (h : RootLog g root l made q) {s : Text × Block}
    (hs : s ∈ q.shared) : s.2.Within root := by
  rcases h.accounts.table s hs with hnone | hmade
  · exact absurd hnone List.not_mem_nil
  · exact h.within_iff.mpr (List.mem_append_left _ hmade)

theorem RootLog.coherent_of_shared (h : RootLog g root l made q) {s : Text × Block}
    (hs : s ∈ q.shared) : Coherent (·.Within s.2) := fun a b ha hb hserial =>
  h.coherent a b (ha.trans (h.within_of_shared hs)) (hb.trans (h.within_of_shared hs)) hserial

theorem RootLog.walk_perm (h : RootLog g root l made q) : root.walk.Perm (made ++ [root]) := by
  refine (List.perm_ext_iff_of_nodup ?_ ?_).mpr ?_
  · exact List.Nodup.of_map _ (walk_nodup root)
  · exact List.Nodup.of_map _ h.serials_nodup
  · intro x
    rw [mem_walk h.coherent, h.within_iff]

end Root

end WorkflowCompiler.Resolution
