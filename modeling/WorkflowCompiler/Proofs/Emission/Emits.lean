import Mathlib
import WorkflowCompiler.Proofs.Block.Form
import WorkflowCompiler.Proofs.Emission.Action
import WorkflowCompiler.Proofs.Emission.Render

/-! # What an emission adds

For every subject one key is claimed and one statement made, and no key that is bound gets another
identifier. An emission of some blocks adds what is to be stated for them, and after it the shared
sequences inside them are done.
-/
namespace WorkflowCompiler.Emission
open Block

namespace Progress

def known (p : Progress) : List Text := p.claimed.map (·.1)

def done (p : Progress) : List Text := p.shared.map (·.1)

def bound (p : Progress) (key : Text) : Option Text := p.claimed.lookup key

end Progress

structure Adds (profile : Profile) (p : Progress) (subjects : List Subject) (q : Progress) :
    Prop where
  claims : q.known.Perm (p.known ++ subjects.map Subject.key)
  keeps : ∀ key ident, p.bound key = some ident → q.bound key = some ident
  states : ∃ tags more, q.statements = p.statements ++ more ∧
    List.Forall₂ (Renders profile q.bound) tags more ∧ tags.reduceOption.Perm subjects

section Adds
variable {profile : Profile} {p q r : Progress} {w w' : List Subject}

theorem Adds.refl : Adds profile p [] p :=
  ⟨by simp, fun _ _ h => h, [], [], by simp, .nil, .refl _⟩

theorem Adds.trans (h : Adds profile p w q) (h' : Adds profile q w' r) :
    Adds profile p (w ++ w') r := by
  obtain ⟨tags, more, hmore, hf, htags⟩ := h.states
  obtain ⟨tags', more', hmore', hf', htags'⟩ := h'.states
  refine ⟨?_, fun key ident hk => h'.keeps key ident (h.keeps key ident hk), tags ++ tags',
    more ++ more', ?_, ?_, ?_⟩
  · rw [List.map_append, ← List.append_assoc]
    exact h'.claims.trans (h.claims.append_right _)
  · rw [hmore', hmore, List.append_assoc]
  · exact List.rel_append (hf.imp fun _ _ hr => hr.mono h'.keeps) hf'
  · rw [List.reduceOption_append]
    exact htags.append htags'

theorem Adds.perm (h : Adds profile p w q) (hw : w.Perm w') : Adds profile p w' q := by
  obtain ⟨tags, more, hmore, hf, htags⟩ := h.states
  exact ⟨h.claims.trans ((hw.map _).append_left _), h.keeps, tags, more, hmore, hf, htags.trans hw⟩

theorem Adds.chain (h : Adds profile p w q) {s : Statement} (hs : Renders profile q.bound none s) :
    Adds profile p w { q with statements := q.statements ++ [s] } := by
  obtain ⟨tags, more, hmore, hf, htags⟩ := h.states
  refine ⟨h.claims, h.keeps, tags ++ [none], more ++ [s], ?_, ?_, ?_⟩
  · simp [hmore]
  · exact List.rel_append hf (.cons hs .nil)
  · simpa [List.reduceOption_append] using htags

structure Claims (p : Progress) (key ident : Text) (q : Progress) : Prop where
  free : key ∉ p.known
  claimed : q.claimed = (key, ident) :: p.claimed
  statements : q.statements = p.statements
  shared : q.shared = p.shared

theorem Claims.bound_self {key ident : Text} (h : Claims p key ident q) :
    q.bound key = some ident := by
  simp [Progress.bound, h.claimed]

theorem Claims.bound_of {key ident : Text} (h : Claims p key ident q) {key' ident' : Text}
    (hb : p.bound key' = some ident') : q.bound key' = some ident' := by
  have hne : key' ≠ key := by
    rintro rfl
    exact h.free (mem_keys_iff.mpr ⟨ident', hb⟩)
  rw [Progress.bound, h.claimed, List.lookup_cons, beq_eq_false_iff_ne.mpr hne]
  exact hb

/-- A construct is claimed before what stands inside it, and stated behind that. -/
theorem Adds.construct {subject : Subject} {ident : Text} (hc : Claims p subject.key ident q)
    (h : Adds profile q w r) {s : Statement} (hs : Renders profile r.bound (some subject) s) :
    Adds profile p (subject :: w) { r with statements := r.statements ++ [s] } := by
  obtain ⟨tags, more, hmore, hf, htags⟩ := h.states
  refine ⟨?_, fun key ident hk => h.keeps key ident (hc.bound_of hk), tags ++ [some subject],
    more ++ [s], ?_, ?_, ?_⟩
  · refine h.claims.trans ?_
    rw [Progress.known, hc.claimed, List.map_cons, List.map_cons, List.cons_append]
    exact List.perm_middle.symm
  · simp [hmore, hc.statements]
  · exact List.rel_append hf (.cons hs .nil)
  · rw [List.reduceOption_append]
    exact (List.perm_append_singleton _ _).trans (htags.cons subject)

end Adds

structure Emits (profile : Profile) (table : List (Text × Block)) (p : Progress) (bs : List Block)
    (q : Progress) : Prop where
  adds : Adds profile p (work table p.done bs) q
  done : ∀ key, key ∈ q.done ↔ Done table p.done bs key

/-- Some blocks can be emitted: the keys of what is to be stated for them are free, what is done is
done with all that stands inside it, splits by an outcome come after their steps, and for every node
that shows what cannot be written there is an excuse. -/
structure Admits (excuse : Prop) (table : List (Text × Block)) (p : Progress) (bs : List Block) :
    Prop where
  free : (p.known ++ (work table p.done bs).map Subject.key).Nodup
  closed : ∀ s ∈ table, s.1 ∈ p.done → ∀ t ∈ table, t.2.Within s.2 → t.1 ∈ p.done
  led : Led p.known bs
  fits : ∀ node, Subject.node node ∈ work table p.done bs →
    ((node.kind = .delay → ∃ x, Template.seconds node.settings = .ok x) ∧ node.Writable) ∨ excuse

section Emits
variable {profile : Profile} {excuse : Prop} {table : List (Text × Block)} {p q r : Progress}
  {b : Block} {bs cs : List Block}

theorem Emits.nil : Emits profile table p [] p := ⟨by simpa using Adds.refl, by simp⟩

theorem Emits.cons (ht : Keyed table) (h : Emits profile table p [b] q)
    (h' : Emits profile table q bs r) : Emits profile table p (b :: bs) r := by
  refine ⟨(h.adds.trans h'.adds).perm (work_append ht h.done).symm, fun key => ?_⟩
  rw [h'.done, Done, h.done, Done, Done]
  simp only [List.mem_cons, List.not_mem_nil, or_false, exists_eq_left, or_and_right, exists_or,
    and_or_left, or_assoc]

/-- What is emitted depends only on what is to be stated and on what is then done. -/
theorem Emits.congr (h : Emits profile table p bs q)
    (hw : (work table p.done bs).Perm (work table p.done cs))
    (hd : ∀ key, Done table p.done bs key ↔ Done table p.done cs key) :
    Emits profile table p cs q := ⟨h.adds.perm hw, fun key => (h.done key).trans (hd key)⟩

theorem Emits.perm (h : Emits profile table p bs q) (hp : bs.Perm cs) :
    Emits profile table p cs q :=
  h.congr (work_perm hp) fun key => by simp only [Done, hp.mem_iff]

theorem Admits.head (ht : Keyed table) (h : Admits excuse table p (b :: bs)) :
    Admits excuse table p [b] := by
  obtain ⟨done', hdone⟩ := exists_done table p.done [b]
  have hwork : (work table p.done (b :: bs)).Perm
      (work table p.done [b] ++ work table done' bs) := work_append ht hdone
  refine ⟨?_, h.closed, ⟨h.led.1, trivial⟩, fun node hnode => h.fits node ?_⟩
  · have hfree := ((hwork.map Subject.key).append_left p.known).nodup_iff.mp h.free
    rw [List.map_append, ← List.append_assoc] at hfree
    exact hfree.of_append_left
  · exact hwork.mem_iff.mpr (List.mem_append_left _ hnode)

theorem Admits.tail (ht : Keyed table) (hb : b.Formed) (h : Admits excuse table p (b :: bs))
    (he : Emits profile table p [b] q) : Admits excuse table q bs := by
  have hwork : (work table p.done (b :: bs)).Perm
      (work table p.done [b] ++ work table q.done bs) := work_append ht he.done
  refine ⟨?_, ?_, ?_, fun node hnode => h.fits node (hwork.mem_iff.mpr
    (List.mem_append_right _ hnode))⟩
  · have hfree := ((hwork.map Subject.key).append_left p.known).nodup_iff.mp h.free
    rw [List.map_append, ← List.append_assoc] at hfree
    exact (he.adds.claims.append_right _).nodup_iff.mpr hfree
  · intro s hs hdone t htable hw
    rw [he.done] at hdone ⊢
    rcases hdone with hdone | ⟨s', hs', hkey, x, hx, hw'⟩
    · exact Or.inl (h.closed s hs hdone t htable hw)
    · obtain rfl := ht.eq_of_key hs' hs hkey
      exact Or.inr ⟨t, htable, rfl, x, hx, hw.trans hw'⟩
  · refine h.led.2.mono fun key hkey => he.adds.claims.mem_iff.mpr ?_
    rcases List.mem_append.mp hkey with hkey | hkey
    · refine List.mem_append_right _ ?_
      obtain ⟨subject, hs, rfl⟩ := List.mem_map.mp hkey
      exact List.mem_map_of_mem (hb.subject_mem_work (Option.mem_toList.mp hs))
    · exact List.mem_append_left _ hkey

theorem Admits.congr (h : Admits excuse table p bs)
    (hw : (work table p.done bs).Perm (work table p.done cs)) (hl : Led p.known cs) :
    Admits excuse table p cs :=
  ⟨((hw.map Subject.key).append_left _).nodup_iff.mp h.free, h.closed, hl,
    fun node hnode => h.fits node (hw.mem_iff.mpr hnode)⟩

end Emits

section Blocks
variable {profile : Profile} {excuse : Prop} {table : List (Text × Block)} (ht : Keyed table)
  {p q r : Progress} {b : Block}
include ht

theorem Admits.chain (hb : b.sharedKey? = none) (hs : b.subject? = none) (hl : Led [] b.children)
    (h : Admits excuse table p [b]) : Admits excuse table p b.children := by
  refine h.congr ?_ (hl.mono (by simp))
  simpa [hs] using work_of_unshared ht hb

theorem Emits.chain (hb : b.sharedKey? = none) (hs : b.subject? = none)
    (h : Emits profile table p b.children q) : Emits profile table p [b] q := by
  refine h.congr ?_ fun key => (done_of_unshared ht hb).symm
  simpa [hs] using (work_of_unshared ht hb).symm

theorem Admits.key_free {subject : Subject} (hb : b.sharedKey? = none)
    (hs : b.subject? = some subject) (h : Admits excuse table p [b]) : subject.key ∉ p.known := by
  intro hmem
  have hwork : (work table p.done [b]).Perm (subject :: work table p.done b.children) := by
    simpa [hs] using work_of_unshared ht hb
  refine List.disjoint_of_nodup_append h.free hmem (List.mem_map_of_mem ?_)
  exact hwork.mem_iff.mpr List.mem_cons_self

theorem Admits.construct {subject : Subject} {ident : Text} (hb : b.sharedKey? = none)
    (hs : b.subject? = some subject) (hl : Led [] b.children) (h : Admits excuse table p [b])
    (hc : Claims p subject.key ident q) : Admits excuse table q b.children := by
  have hdone : q.done = p.done := by simp [Progress.done, hc.shared]
  have hknown : q.known = subject.key :: p.known := by simp [Progress.known, hc.claimed]
  have hwork : (work table p.done [b]).Perm (subject :: work table p.done b.children) := by
    simpa [hs] using work_of_unshared ht hb
  refine ⟨?_, hdone ▸ h.closed, hl.mono (by simp), fun node hnode => h.fits node ?_⟩
  · have hfree := ((hwork.map Subject.key).append_left p.known).nodup_iff.mp h.free
    rw [hdone, hknown, List.cons_append]
    exact List.perm_middle.nodup_iff.mp hfree
  · rw [hdone] at hnode
    exact hwork.mem_iff.mpr (List.mem_cons_of_mem _ hnode)

theorem Emits.construct {subject : Subject} {ident : Text} (hb : b.sharedKey? = none)
    (hs : b.subject? = some subject) (hc : Claims p subject.key ident q)
    (h : Emits profile table q b.children r) {s : Statement}
    (hr : Renders profile r.bound (some subject) s) :
    Emits profile table p [b] { r with statements := r.statements ++ [s] } := by
  have hdone : q.done = p.done := by simp [Progress.done, hc.shared]
  refine ⟨?_, fun key => ?_⟩
  · refine (Adds.construct hc h.adds hr).perm ?_
    rw [hdone]
    simpa [hs] using (work_of_unshared ht hb).symm
  · rw [done_of_unshared ht hb, ← hdone]
    exact h.done key

theorem Emits.known {s : Text × Block} (hs : s ∈ table) (hdone : s.1 ∈ p.done)
    (h : Admits excuse table p [s.2]) : Emits profile table p [s.2] p := by
  have hinside : ∀ t ∈ table, t.2.Within s.2 → t.1 ∈ p.done := h.closed s hs hdone
  refine ⟨?_, fun key => ⟨Or.inl, ?_⟩⟩
  · rw [work_of_done (by simp [ht.shared s hs]) hinside]
    exact .refl
  · rintro (hkey | ⟨t, htable, rfl, x, hx, hw⟩)
    · exact hkey
    · exact hinside t htable (List.mem_singleton.mp hx ▸ hw)

theorem Admits.share {s : Text × Block} (hs : s ∈ table) (hdone : s.1 ∉ p.done)
    (hl : Led [] s.2.children) (h : Admits excuse table p [s.2]) :
    Admits excuse table p s.2.children :=
  h.congr (work_of_shared ht hs hdone) (hl.mono (by simp))

theorem Emits.share {s : Text × Block} (hs : s ∈ table) (hdone : s.1 ∉ p.done) (ident : Text)
    (h : Emits profile table p s.2.children q) :
    Emits profile table p [s.2] { q with shared := (s.1, ident) :: q.shared } := by
  have hadds := h.adds.perm (work_of_shared ht hs hdone).symm
  refine ⟨⟨hadds.claims, hadds.keeps, hadds.states⟩, fun key => ?_⟩
  rw [done_of_shared ht hs, ← h.done]
  simp [Progress.done]

end Blocks

end WorkflowCompiler.Emission
