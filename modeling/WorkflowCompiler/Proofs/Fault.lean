import Mathlib
import WorkflowCompiler.Fault

/-! # Computations that may fail

What a computation that ended well went through, and when two computations are the same in the sense
that both fail or both end well with results of one view.
-/
namespace WorkflowCompiler

theorem map_eq_ok {ε α β : Type} {f : α → β} {x : Except ε α} {b : β} (h : x.map f = .ok b) :
    ∃ a, x = .ok a ∧ f a = b := by
  cases x with
  | error fault => cases h
  | ok a => exact ⟨a, rfl, Except.ok.inj h⟩

theorem eq_ok_of_toOption {ε α : Type} {x : Except ε α} {a : α} (h : x.toOption = some a) :
    x = .ok a := by
  cases x with
  | error e => cases h
  | ok b =>
    cases h
    rfl

theorem ok_bind {ε α β : Type} (a : α) (f : α → Except ε β) : (.ok a >>= f) = f a := rfl

theorem error_bind {ε α β : Type} (e : ε) (f : α → Except ε β) : (.error e >>= f) = .error e := rfl

theorem exists_of_bind_eq_ok {ε α β : Type} {x : Except ε α} {f : α → Except ε β} {b : β}
    (h : x >>= f = .ok b) : ∃ a, x = .ok a ∧ f a = .ok b := by
  cases x with
  | error fault => cases h
  | ok a => exact ⟨a, rfl, h⟩

theorem exists_bind_ok_iff {ε α β : Type} {x : Except ε α} {f : α → Except ε β} :
    (∃ b, x >>= f = .ok b) ↔ ∃ a, x = .ok a ∧ ∃ b, f a = .ok b := by
  cases x with
  | error e => simp [bind, Except.bind]
  | ok a => simp [bind, Except.bind]

theorem bind_eq_error_iff {ε α β : Type} {x : Except ε α} {f : α → Except ε β} {e : ε} :
    x >>= f = .error e ↔ x = .error e ∨ ∃ a, x = .ok a ∧ f a = .error e := by
  cases x with
  | error e => simp [bind, Except.bind]
  | ok a => simp [bind, Except.bind]

theorem check_bind_eq_ok_iff {ε β : Type} {x : Except ε Unit} {y : Except ε β} {b : β} :
    (x >>= fun _ => y) = .ok b ↔ x = .ok () ∧ y = .ok b := by
  cases x with
  | error e => simp [bind, Except.bind]
  | ok a => simp [bind, Except.bind]

section Refusal
variable {ε β : Type} {refuses : Bool} {e : ε} {f : PUnit → Except ε β} {x : Except ε β}

/-- A computation that may refuse to go on ends well if it goes on and the rest ends well. -/
theorem exists_refusal_ok_iff :
    (∃ b, (if refuses = true then throw e >>= f else x) = .ok b) ↔
      refuses = false ∧ ∃ b, x = .ok b := by
  cases refuses with
  | false => simp
  | true => simp [throw, throwThe, MonadExceptOf.throw, bind, Except.bind]

theorem of_refusal_eq_ok {b : β} (h : (if refuses = true then throw e >>= f else x) = .ok b) :
    x = .ok b := by
  cases refuses with
  | false => exact h
  | true => cases h

theorem refusal_eq_error_iff {e' : ε} :
    (if refuses = true then throw e >>= f else x) = .error e' ↔
      (refuses = true ∧ e = e') ∨ (refuses = false ∧ x = .error e') := by
  cases refuses with
  | false => simp
  | true => simp [throw, throwThe, MonadExceptOf.throw, bind, Except.bind]

end Refusal

theorem exists_of_forall₂ {α β : Type} {R : α → β → Prop} {xs : List α} {ys : List β}
    (h : List.Forall₂ R xs ys) {y : β} (hy : y ∈ ys) : ∃ x ∈ xs, R x y := by
  induction h with
  | nil => exact absurd hy List.not_mem_nil
  | cons hr _ ih =>
    rcases List.mem_cons.mp hy with rfl | hy
    · exact ⟨_, List.mem_cons_self, hr⟩
    · obtain ⟨x, hx, hxy⟩ := ih hy
      exact ⟨x, List.mem_cons_of_mem _ hx, hxy⟩

theorem exists_forall₂ {α β : Type} {R : α → β → Prop} {xs : List α} (h : ∀ x ∈ xs, ∃ y, R x y) :
    ∃ ys, List.Forall₂ R xs ys := by
  induction xs with
  | nil => exact ⟨[], .nil⟩
  | cons x rest ih =>
    obtain ⟨y, hy⟩ := h x List.mem_cons_self
    obtain ⟨ys, hys⟩ := ih fun x hx => h x (List.mem_cons_of_mem _ hx)
    exact ⟨y :: ys, .cons hy hys⟩

section Lists
variable {ε α β : Type} {f : α → Except ε β} {xs : List α} {ys : List β}

theorem mapM_congr {f' : α → Except ε β} (h : ∀ x ∈ xs, f x = f' x) : xs.mapM f = xs.mapM f' := by
  have hmap : ∀ f : α → Except ε β, xs.mapM f = (xs.map f).mapM id := by
    intro f
    rw [List.mapM_map, Function.id_comp]
  rw [hmap, List.map_congr_left h, ← hmap]

theorem mapM_eq_ok_iff : xs.mapM f = .ok ys ↔ List.Forall₂ (fun x y => f x = .ok y) xs ys := by
  induction xs generalizing ys with
  | nil => cases ys <;> simp [pure, Except.pure]
  | cons x rest ih =>
    rw [List.mapM_cons]
    constructor
    · intro h
      obtain ⟨y, hy, h⟩ := exists_of_bind_eq_ok h
      obtain ⟨others, hrest, h⟩ := exists_of_bind_eq_ok h
      cases h
      exact .cons hy (ih.mp hrest)
    · intro h
      cases h with
      | cons hy hrest =>
        rw [hy, ih.mpr hrest]
        rfl

theorem mem_of_mapM_ok (h : xs.mapM f = .ok ys) {y : β} (hy : y ∈ ys) : ∃ x ∈ xs, f x = .ok y :=
  exists_of_forall₂ (mapM_eq_ok_iff.mp h) hy

theorem mapM_eq_ok_map {value : α → β} (hf : ∀ x ∈ xs, f x = .ok (value x)) :
    xs.mapM f = .ok (xs.map value) :=
  mapM_eq_ok_iff.mpr (List.forall₂_map_right_iff.mpr (List.forall₂_same.mpr hf))

/-- Computations one after the other end well if and only if each of them does. -/
theorem exists_mapM_ok_iff : (∃ ys, xs.mapM f = .ok ys) ↔ ∀ x ∈ xs, ∃ y, f x = .ok y := by
  constructor
  · rintro ⟨ys, h⟩ x hx
    obtain ⟨y, -, hy⟩ := exists_of_forall₂ (mapM_eq_ok_iff.mp h).flip hx
    exact ⟨y, hy⟩
  · intro h
    obtain ⟨ys, hys⟩ := exists_forall₂ h
    exact ⟨ys, mapM_eq_ok_iff.mpr hys⟩

/-- If the only failure is one, then computations one after the other end in it. -/
theorem mapM_eq_error {e : ε} (h : ∀ x ∈ xs, f x = .error e ∨ ∃ y, f x = .ok y)
    (hfail : ∃ x ∈ xs, f x = .error e) : xs.mapM f = .error e := by
  induction xs with
  | nil => exact absurd hfail (by simp)
  | cons x rest ih =>
    rw [List.mapM_cons]
    rcases h x List.mem_cons_self with hx | ⟨y, hy⟩
    · rw [hx]
      rfl
    · obtain ⟨z, hz, hfz⟩ := hfail
      rcases List.mem_cons.mp hz with rfl | hz
      · cases hy.symm.trans hfz
      · rw [hy, ih (fun x hx => h x (List.mem_cons_of_mem _ hx)) ⟨z, hz, hfz⟩]
        rfl

end Lists

theorem exists_map_ok_iff {ε α β : Type} {f : α → β} {x : Except ε α} :
    (∃ b, x.map f = .ok b) ↔ ∃ a, x = .ok a := by
  cases x with
  | error fault => simp [Except.map]
  | ok a => simp [Except.map]

section Views
variable {ε α β γ δ σ τ : Type} {x : Except ε α} {y : Except ε β} {f : α → σ} {g : β → σ}

theorem cases_of_toOption_map_eq (h : x.toOption.map f = y.toOption.map g) :
    (∃ e e', x = .error e ∧ y = .error e') ∨ ∃ a b, x = .ok a ∧ y = .ok b ∧ f a = g b := by
  cases x with
  | error e =>
    cases y with
    | error e' => exact Or.inl ⟨e, e', rfl, rfl⟩
    | ok b => cases h
  | ok a =>
    cases y with
    | error e' => cases h
    | ok b => exact Or.inr ⟨a, b, rfl, rfl, Option.some.inj h⟩

/-- Computations with results of one view may be followed by others that depend on the view
alone. -/
theorem toOption_bind_congr {k : α → Except ε γ} {l : β → Except ε δ} {p : γ → τ} {q : δ → τ}
    (h : x.toOption.map f = y.toOption.map g)
    (hk : ∀ a b, f a = g b → (k a).toOption.map p = (l b).toOption.map q) :
    (x >>= k).toOption.map p = (y >>= l).toOption.map q := by
  obtain ⟨e, e', rfl, rfl⟩ | ⟨a, b, rfl, rfl, hab⟩ := cases_of_toOption_map_eq h
  · rfl
  · exact hk a b hab

end Views

/-- Items in another order give the same results in another order, or none. -/
theorem mapM_perm {α β : Type} {f : α → Except Fault β} {xs ys : List α} (h : xs.Perm ys) :
    (xs.mapM f).toOption.map Multiset.ofList = (ys.mapM f).toOption.map Multiset.ofList := by
  have hcons : ∀ x (xs : List α), ((x :: xs).mapM f).toOption.map Multiset.ofList =
      (f x).toOption.bind fun b => ((xs.mapM f).toOption.map Multiset.ofList).map (b ::ₘ ·) := by
    intro x xs
    rw [List.mapM_cons]
    cases f x with
    | error fault => rfl
    | ok b => cases xs.mapM f <;> rfl
  induction h with
  | nil => rfl
  | cons x _ ih => rw [hcons, hcons, ih]
  | swap x y rest =>
    rw [hcons, hcons, hcons, hcons]
    cases (f x).toOption with
    | none => cases (f y).toOption <;> rfl
    | some b =>
      cases (f y).toOption with
      | none => rfl
      | some c =>
        cases (rest.mapM f).toOption with
        | none => rfl
        | some bs => exact congrArg some (Multiset.cons_swap c b bs)
  | trans _ _ ih ih' => exact ih.trans ih'

theorem mapM_flatten_perm {α β : Type} {f : α → Except Fault (List β)} {xs ys : List α}
    (h : xs.Perm ys) : ((xs.mapM f).map List.flatten).toOption.map Multiset.ofList =
      ((ys.mapM f).map List.flatten).toOption.map Multiset.ofList := by
  obtain ⟨e, e', hx, hy⟩ | ⟨found, found', hx, hy, hfound⟩ :=
    cases_of_toOption_map_eq (mapM_perm (f := f) h)
  · rw [hx, hy]
    rfl
  · rw [hx, hy]
    have hperm : found.Perm found' := Multiset.coe_eq_coe.mp hfound
    exact congrArg some (Multiset.coe_eq_coe.mpr hperm.flatten)

end WorkflowCompiler
