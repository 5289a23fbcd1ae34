import Mathlib
import WorkflowCompiler.Proofs.Resolution.Account
import WorkflowCompiler.Proofs.Resolution.Context

/-! # Nodes that a run enters

A run enters a node when it makes the main block of the node. It enters what its nodes lead to, and
no node that is active. A merge point is entered once, when its shared sequence is made.
-/
namespace WorkflowCompiler.Resolution
open Block

def entered (made : List Block) : List Text := made.filterMap mainId?

@[simp] theorem entered_nil : entered [] = [] := rfl

@[simp] theorem entered_append (xs ys : List Block) :
    entered (xs ++ ys) = entered xs ++ entered ys := List.filterMap_append

theorem entered_cons (b : Block) (rest : List Block) :
    entered (b :: rest) = entered [b] ++ entered rest := entered_append [b] rest

theorem count_entered_cons (b : Block) (rest : List Block) {id : Text} :
    (entered (b :: rest)).count id = (entered [b]).count id + (entered rest).count id := by
  rw [entered_cons, List.count_append]

@[simp] theorem entered_sequence (n : Nat) (items : List Block) (key : Option Text) :
    entered [.sequence n items none key] = [] := rfl

def Progress.keys (p : Progress) : List Text := p.shared.map (·.1)

section Entry
variable {facts : Facts} {e : Entry} {c : Call}

theorem Entry.Of.entered_makes (he : e.Of facts c) : (entered (makesOf e.events)).Perm [c.start] := by
  have hmain := he.assembled.main
  rw [he.node_id] at hmain
  exact hmain ▸ he.makes.filterMap mainId?

end Entry

section Members
variable {logs : Logging} {p q : Progress} {events : List Event} {made : List Block}

theorem Logged.makes_subset (h : Logged logs p events made q) : ∀ b ∈ makesOf events, b ∈ made := by
  induction h with
  | nil => simp
  | call _ _ ih => exact fun b hb => List.mem_append_right _ (ih b hb)
  | make _ _ ih =>
    intro b hb
    rcases List.mem_cons.mp hb with rfl | hb
    · exact List.mem_cons_self
    · exact List.mem_cons_of_mem _ (ih b hb)

/-- What is in the log of some events was made by them or is in the log of one of their chains. -/
theorem Logged.mem_made (h : Logged logs p events made q) {b : Block} (hb : b ∈ made) :
    b ∈ makesOf events ∨ ∃ c ∈ callsOf events, ∃ p' made' q', logs c p' made' q' ∧ b ∈ made' := by
  induction h with
  | nil => exact absurd hb List.not_mem_nil
  | call hc _ ih =>
    rcases List.mem_append.mp hb with hb | hb
    · exact Or.inr ⟨_, List.mem_cons_self, _, _, _, hc, hb⟩
    · rcases ih hb with hb | ⟨c, hc, hrest⟩
      · exact Or.inl hb
      · exact Or.inr ⟨c, List.mem_cons_of_mem _ hc, hrest⟩
  | make _ _ ih =>
    rcases List.mem_cons.mp hb with rfl | hb
    · exact Or.inl List.mem_cons_self
    · rcases ih hb with hb | hb
      · exact Or.inl (List.mem_cons_of_mem _ hb)
      · exact Or.inr hb

variable {facts : Facts} {e : Entry} {c : Call}

theorem Entry.Of.start_mem (he : e.Of facts c) (h : Logged logs p e.events made q) :
    c.start ∈ entered made := by
  have hmem := he.entered_makes.mem_iff.mpr (List.mem_singleton_self c.start)
  obtain ⟨b, hb, hid⟩ := List.mem_filterMap.mp hmem
  exact List.mem_filterMap.mpr ⟨b, h.makes_subset b hb, hid⟩

/-- A run enters the node of its entry and what the chains of the entry enter. -/
theorem Entry.Of.mem_entered (he : e.Of facts c) (h : Logged logs p e.events made q) {x : Text}
    (hx : x ∈ entered made) : x = c.start ∨ ∃ c' ∈ callsOf e.events, ∃ p' made' q',
      logs c' p' made' q' ∧ x ∈ entered made' := by
  obtain ⟨b, hb, hid⟩ := List.mem_filterMap.mp hx
  rcases h.mem_made hb with hb | ⟨c', hc', p', made', q', hlog, hb⟩
  · exact Or.inl (List.mem_singleton.mp
      (he.entered_makes.mem_iff.mp (List.mem_filterMap.mpr ⟨b, hb, hid⟩)))
  · exact Or.inr ⟨c', hc', p', made', q', hlog, List.mem_filterMap.mpr ⟨b, hb, hid⟩⟩

end Members

theorem Logs.entered_spec {g : Graph} {active : List Text} {c : Call} {p q : Progress}
    {made : List Block} (h : Logs (.ofGraph g) active c p made q) :
    ∀ x ∈ entered made, x ∉ active ∧ Graph.Reaches g.edges c.start x := by
  refine Logs.induction (motive := fun active c p made q =>
    ∀ x ∈ entered made, x ∉ active ∧ Graph.Reaches g.edges c.start x) ?_ h
  intro active c p made q hs
  have hentry : ∀ {e : Entry} {owner items p made q}, c.start ∉ active →
      e.Of (.ofGraph g) ⟨owner, c.stop, c.start, items⟩ →
      Logged (fun c' p made q => Logs (.ofGraph g) (c.start :: active) c' p made q ∧
        ∀ x ∈ entered made, x ∉ c.start :: active ∧ Graph.Reaches g.edges c'.start x)
        p e.events made q →
      ∀ x ∈ entered made, x ∉ active ∧ Graph.Reaches g.edges c.start x := by
    intro e owner items p made q hactive he hl x hx
    rcases he.mem_entered hl hx with rfl | ⟨c', hc', p', made', q', hlog, hx⟩
    · exact ⟨hactive, .refl⟩
    · obtain ⟨hnot, hreach⟩ := hlog.2 x hx
      exact ⟨fun hmem => hnot (List.mem_cons_of_mem _ hmem), .head (he.leads hc') hreach⟩
  cases hs with
  | stopped _ => simp
  | known _ _ _ _ => simp
  | fresh e _ hactive _ _ _ he hl => simpa using hentry hactive he hl
  | entered e _ hactive _ he hl => exact hentry hactive he hl

/-- Where a node is taken care of that some chains lead to: a loop around is about to come back to
it, or it has a shared sequence, or it is entered. -/
def Provided (p : Progress) (made : List Block) (stop : List Text) (id : Text) : Prop :=
  id ∈ stop ∨ id ∈ p.keys ∨ id ∈ entered made

/-- A run leaves out nothing: it takes care of its start and of all that the nodes it enters lead
to. -/
structure Complete (g : Graph) (c : Call) (p : Progress) (made : List Block) (q : Progress) :
    Prop where
  start : Provided p made c.stop c.start
  next : ∀ id ∈ entered made, ∀ t, Graph.Leads g.edges id t → Provided p made c.stop t
  keys : ∀ key ∈ q.keys, key ∈ p.keys ∨ key ∈ entered made

theorem Provided.earlier {p q : Progress} {made more : List Block} {stop : List Text} {id : Text}
    (hkeys : ∀ key ∈ q.keys, key ∈ p.keys ∨ key ∈ entered made) (h : Provided q more stop id) :
    Provided p (made ++ more) stop id := by
  simp only [Provided, entered_append, List.mem_append] at h ⊢
  rcases h with h | h | h
  · exact Or.inl h
  · exact Or.inr ((hkeys id h).imp_right Or.inl)
  · exact Or.inr (Or.inr (Or.inr h))

theorem Provided.mono {p : Progress} {made more : List Block} {stop stop' : List Text} {id : Text}
    (hmade : ∀ x ∈ entered made, x ∈ entered more) (hstop : ∀ x ∈ stop, x ∈ stop')
    (h : Provided p made stop id) : Provided p more stop' id :=
  h.imp (hstop id) (Or.imp_right (hmade id))

/-- What the chains among some events take care of. -/
structure EventsComplete (g : Graph) (p : Progress) (events : List Event) (made : List Block)
    (q : Progress) : Prop where
  starts : ∀ c ∈ callsOf events, Provided p made c.stop c.start
  next : ∀ id ∈ entered made, id ∈ entered (makesOf events) ∨ ∃ c ∈ callsOf events,
    ∀ t, Graph.Leads g.edges id t → Provided p made c.stop t
  keys : ∀ key ∈ q.keys, key ∈ p.keys ∨ key ∈ entered made

theorem Logged.complete {g : Graph} {p q : Progress} {events : List Event} {made : List Block}
    (h : Logged (Complete g) p events made q) : EventsComplete g p events made q := by
  induction h with
  | nil => exact ⟨by simp, by simp, fun key hkey => Or.inl hkey⟩
  | @call p q r c events made more hc _ ih =>
    have hleft : ∀ x ∈ entered made, x ∈ entered (made ++ more) := by
      intro x hx
      rw [entered_append]
      exact List.mem_append_left _ hx
    refine ⟨?_, ?_, ?_⟩
    · intro c' hc'
      rcases List.mem_cons.mp hc' with rfl | hc'
      · exact hc.start.mono hleft fun _ h => h
      · exact (ih.starts c' hc').earlier hc.keys
    · intro id hid
      rw [entered_append] at hid
      rcases List.mem_append.mp hid with hid | hid
      · exact Or.inr ⟨c, List.mem_cons_self,
          fun t ht => (hc.next id hid t ht).mono hleft fun _ h => h⟩
      · rcases ih.next id hid with hm | ⟨c', hc', hnext⟩
        · exact Or.inl hm
        · exact Or.inr ⟨c', List.mem_cons_of_mem _ hc', fun t ht => (hnext t ht).earlier hc.keys⟩
    · intro key hkey
      rcases ih.keys key hkey with hkey | hkey
      · exact (hc.keys key hkey).imp_right (hleft key)
      · right
        rw [entered_append]
        exact List.mem_append_right _ hkey
  | @make p r b events more _ _ ih =>
    have hright : ∀ x ∈ entered more, x ∈ entered (b :: more) := by
      intro x hx
      rw [entered_cons]
      exact List.mem_append_right _ hx
    have hlift : ∀ {stop id}, Provided p.advance more stop id → Provided p (b :: more) stop id :=
      fun h => Provided.mono hright (fun _ h => h) h
    refine ⟨fun c hc => hlift (ih.starts c hc), ?_, ?_⟩
    · intro id hid
      rw [entered_cons] at hid
      rcases List.mem_append.mp hid with hid | hid
      · left
        rw [makesOf_cons_make, entered_cons]
        exact List.mem_append_left _ hid
      · rcases ih.next id hid with hm | ⟨c, hc, hnext⟩
        · left
          rw [makesOf_cons_make, entered_cons]
          exact List.mem_append_right _ hm
        · exact Or.inr ⟨c, hc, fun t ht => hlift (hnext t ht)⟩
    · intro key hkey
      exact (ih.keys key hkey).imp_right (hright key)

/-- An entry takes care of what its node leads to, and each of its chains of the rest. -/
theorem Entry.Of.complete {g : Graph} (hg : g.Sound) {e : Entry} {c : Call}
    (he : e.Of (.ofGraph g) c) {p q : Progress} {made : List Block}
    (hl : Logged (Complete g) p e.events made q) : Complete g c p made q := by
  have hc := hl.complete
  have hstart := he.start_mem hl
  -- a chain inside a loop may stop at the node itself, which is entered
  have hlift : ∀ c' ∈ callsOf e.events, ∀ t, Provided p made c'.stop t →
      Provided p made c.stop t := by
    intro c' hc' t ht
    obtain ⟨s, hs, _, _, hstop⟩ := he.call_strand hc'
    rcases ht with ht | ht
    · rw [hstop] at ht
      rcases (strand_context hs).2 with hsame | ⟨hmore, _⟩
      · exact Or.inl (hsame ▸ ht)
      · rw [hmore, he.node_id] at ht
        rcases List.mem_cons.mp ht with rfl | ht
        · exact Or.inr (Or.inr hstart)
        · exact Or.inl ht
    · exact Or.inr ht
  refine ⟨Or.inr (Or.inr hstart), ?_, hc.keys⟩
  intro id hid t ht
  rcases hc.next id hid with hm | ⟨c', hc', hnext⟩
  · obtain rfl := List.mem_singleton.mp (he.entered_makes.mem_iff.mp hm)
    obtain ⟨c', hc', rfl, _⟩ := he.exists_call hg ht
    exact hlift c' hc' _ (hc.starts c' hc')
  · exact hlift c' hc' t (hnext t ht)

theorem Logs.complete {g : Graph} (hg : g.Sound) {active : List Text} {c : Call} {p q : Progress}
    {made : List Block} (h : Logs (.ofGraph g) active c p made q) : Complete g c p made q := by
  refine Logs.induction (motive := fun _ c p made q => Complete g c p made q) ?_ h
  intro active c p made q hs
  cases hs with
  | stopped hstop => exact ⟨Or.inl hstop, by simp, fun key hkey => Or.inl hkey⟩
  | known _ _ _ hlookup =>
    refine ⟨Or.inr (Or.inl ?_), by simp, fun key hkey => Or.inl hkey⟩
    exact List.mem_map.mpr ⟨_, mem_of_lookup hlookup, rfl⟩
  | fresh e _ _ _ _ _ he hl =>
    have hc := he.complete hg (hl.mono fun hc => hc.2)
    have hstart := he.start_mem hl
    refine ⟨Or.inr (Or.inr (by simpa using hstart)), ?_, ?_⟩
    · intro id hid t ht
      refine Provided.mono ?_ (fun _ h => h) (hc.next id (by simpa using hid) t ht)
      simp
    · intro key hkey
      rcases List.mem_cons.mp hkey with rfl | hkey
      · exact Or.inr (by simpa using hstart)
      · rw [entered_append]
        exact (hc.keys key hkey).imp_right (List.mem_append_left _)
  | entered e _ _ _ he hl => exact he.complete hg (hl.mono fun hc => hc.2)

/-- How often a node is entered, given that the chains which enter it are counted by some number. -/
theorem Logged.count_entered {logs : Logging} (number : Progress → Nat) {id : Text}
    (hcall : ∀ {c p made q}, logs c p made q →
      (entered made).count id + number p = number q)
    (hmake : ∀ p : Progress, number p.advance = number p) {p q : Progress} {events : List Event}
    {made : List Block} (h : Logged logs p events made q) :
    (entered made).count id + number p = (entered (makesOf events)).count id + number q := by
  induction h with
  | nil => rfl
  | call hc _ ih =>
    have := hcall hc
    simp only [entered_append, List.count_append, makesOf_cons_call]
    omega
  | @make p r b events more _ _ ih =>
    rw [hmake] at ih
    rw [makesOf_cons_make, count_entered_cons, count_entered_cons b (makesOf events)]
    omega

theorem Logs.count_merge {g : Graph} {active : List Text} {c : Call} {p q : Progress}
    {made : List Block} (h : Logs (.ofGraph g) active c p made q) (hc : Context g active c)
    {id : Text} (hmerge : (Facts.ofGraph g).isMerge id) :
    (entered made).count id + p.keys.count id = q.keys.count id := by
  refine Logs.induction_context (motive := fun _ _ p made q =>
    (entered made).count id + p.keys.count id = q.keys.count id) ?_ h hc
  intro active c p made q hc hs
  cases hs with
  | stopped _ => simp
  | known _ _ _ _ => simp
  | @fresh owner stop start items _ r made e _ _ _ _ _ he hl =>
    have hcount := hl.count_entered (fun p => p.keys.count id) (fun hc => hc.2.2) fun p => rfl
    rw [he.entered_makes.count_eq] at hcount
    simp only [entered_append, entered_sequence, List.append_nil]
    have hkeys : (r.share start items).keys.count id = [start].count id + r.keys.count id := by
      rw [← List.count_append]
      rfl
    rw [hkeys]
    exact hcount
  | entered e _ hactive hown he hl =>
    have hcount := hl.count_entered (fun p => p.keys.count id) (fun hc => hc.2.2) fun p => rfl
    rw [he.entered_makes.count_eq] at hcount
    have hne : [c.start].count id = 0 := by
      rw [List.count_eq_zero, List.mem_singleton]
      rintro rfl
      exact hactive (hc.owned _ (hown hmerge))
    omega

end WorkflowCompiler.Resolution
