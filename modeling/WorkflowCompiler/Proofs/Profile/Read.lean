import Mathlib
import WorkflowCompiler.Profile.Read
import WorkflowCompiler.Proofs.Fault
import WorkflowCompiler.Proofs.Validation.Settings
import WorkflowCompiler.Proofs.Value.Spelling

/-! # Which profiles can be read

A profile is read if it has no other than the known keys, a base that is built in, constructs and
keywords under known names, and texts where lists of texts are wanted. A profile that is not read is
at fault for something that can be told by its message, with one exception: a base that is a list or
an object is no name that could be looked up. All this is of profiles whose numbers can be written.
-/
namespace WorkflowCompiler

def Value.IsTexts (v : Value) : Prop := ∃ items, v = .list items ∧ ∀ item ∈ items, ∃ s, item = .str s

/-- An object of names for the code, or of nulls where they are allowed, all under known names. -/
def Value.IsNaming (known : List Text) (nullable : Bool) (v : Value) : Prop :=
  ∃ ms, v = .object ms ∧ ∀ m ∈ ms, m.1 ∈ known ∧
    (Profile.isCodeName m.2 = true ∨ nullable = true ∧ m.2 = .null)

/-- A value that cannot be looked up as a name. -/
def Value.Nameless (v : Value) : Prop := (∃ items, v = .list items) ∨ ∃ ms, v = .object ms

namespace Profile

/-- What the members of a profile have to be. -/
structure WellFormed (data : Members) : Prop where
  known : ∀ name ∈ data.names, name ∈ keys
  base : ∀ v ∈ data.get? "base", ∃ s ∈ builtInNames, v = .str s
  constructs : ∀ v ∈ data.get? "constructs", v.IsNaming (Role.all.map Role.name) false
  keywords : ∀ v ∈ data.get? "keywords", v.IsNaming (Slot.all.map Slot.name) true
  imports : ∀ v ∈ data.get? "imports", v.IsTexts
  entrypoint : ∀ v ∈ data.get? "entrypoint", v.isGiven = true → v.IsTexts
  reserved : ∀ v ∈ data.get? "reserved", v.IsTexts

section Readers
variable {data : Members}

theorem unknownNames_isEmpty_iff {ms : Members} {known : List Text} :
    (unknownNames ms known).isEmpty = true ↔ ∀ m ∈ ms, m.1 ∈ known := by
  rw [unknownNames, Text.sort, (List.mergeSort_perm _ _).isEmpty_eq, List.isEmpty_iff,
    List.filter_eq_nil_iff, Members.names, List.forall_mem_map]
  simp

theorem exists_texts?_iff {v : Value} : (∃ xs, texts? v = some xs) ↔ v.IsTexts := by
  cases v with
  | list items =>
    rw [texts?]
    simp only [Value.IsTexts, Value.list.injEq, exists_eq_left']
    induction items with
    | nil => simp
    | cons item rest ih =>
      rw [List.forall_mem_cons, ← ih, List.mapM_cons]
      cases item with
      | str s => cases rest.mapM (·.str?) <;> simp [Value.str?]
      | null | bool _ | int _ | float _ | list _ | object _ => simp [Value.str?]
  | null | bool _ | int _ | float _ | str _ | object _ => simp [texts?, Value.IsTexts]

theorem exists_readTexts_iff {key : Text} {value : Option Value} {default : List Text} :
    (∃ xs, readTexts key value default = .ok xs) ↔ ∀ v ∈ value, v.IsTexts := by
  cases value with
  | none => simp [readTexts]
  | some v =>
    rw [readTexts]
    cases htexts : texts? v with
    | none =>
      have hnot : ¬ v.IsTexts := by
        rw [← exists_texts?_iff, htexts]
        simp
      simp [hnot]
    | some xs =>
      have htext : v.IsTexts := exists_texts?_iff.mp ⟨xs, htexts⟩
      simp [htext]

theorem exists_readEntrypoint_iff {base : Profile} :
    (∃ xs, readEntrypoint data base = .ok xs) ↔
      ∀ v ∈ data.get? "entrypoint", v.isGiven = true → v.IsTexts := by
  rw [readEntrypoint]
  cases data.get? "entrypoint" with
  | none => simp
  | some v =>
    by_cases hgiven : v.isGiven = true
    · simp [hgiven, exists_readTexts_iff]
    · simp [hgiven]

theorem exists_readText (h : ∀ m ∈ data, m.2.isWritable = true) (key default : Text) :
    ∃ text, readText (data.get? key) default = .ok text := by
  cases hvalue : data.get? key with
  | none => exact ⟨default, rfl⟩
  | some v =>
    have hwritable := h _ (Members.mem_of_get? hvalue)
    obtain ⟨text, htext⟩ := Option.isSome_iff_exists.mp (v.text_isSome.trans hwritable)
    exact ⟨text, by rw [readText, htext]⟩

theorem exists_readBase_iff :
    (∃ base, readBase data = .ok base) ↔
      ∀ v ∈ data.get? "base", ∃ s ∈ builtInNames, v = .str s := by
  have hnamed : ∀ s : Text, (∃ p, named? s = some p) ↔ s ∈ builtInNames := by
    intro s
    rw [← Option.isSome_iff_exists, named?, List.find?_isSome, builtInNames, List.mem_map]
    simp
  rw [readBase]
  cases data.get? "base" with
  | none => simp
  | some v =>
    cases v with
    | str s =>
      have hs := hnamed s
      cases hfound : named? s with
      | none =>
        have hnot : s ∉ builtInNames := by
          rw [← hs, hfound]
          simp
        simp [Value.str?, hfound, hnot, exists_bind_ok_iff]
      | some p =>
        have hbuilt : s ∈ builtInNames := hs.mp ⟨p, hfound⟩
        simp [Value.str?, hfound, hbuilt]
    | null | bool _ | int _ | float _ | list _ | object _ =>
      simp [Value.str?, exists_bind_ok_iff]

theorem readText_ne_baseNotAName {value : Option Value} {default : Text} {base : Value} :
    readText value default ≠ .error (.baseNotAName base) := by
  unfold readText
  split
  · exact nofun
  · split <;> exact nofun

theorem readBase_baseNotAName_iff :
    (∃ base, readBase data = .error (.baseNotAName base)) ↔
      ∃ base ∈ data.get? "base", base.Nameless := by
  rw [readBase]
  cases data.get? "base" with
  | none => simp
  | some v =>
    cases v with
    | list _ | object _ => simp [Value.Nameless]
    | null | bool _ | int _ | float _ =>
      simp [Value.str?, Value.Nameless, bind_eq_error_iff, readText_ne_baseNotAName]
    | str s =>
      cases hs : named? s <;>
        simp [Value.str?, Value.Nameless, hs, bind_eq_error_iff, readText_ne_baseNotAName]

theorem readBase_ne_longNumber (h : ∀ m ∈ data, m.2.isWritable = true) :
    readBase data ≠ .error .longNumber := by
  unfold readBase
  split
  · exact nofun
  · exact nofun
  · exact nofun
  next base _ _ hbase =>
    obtain ⟨text, htext⟩ := exists_readText h "base" []
    split
    · exact nofun
    · rw [← hbase, htext]
      exact nofun

theorem find?_misnamed_eq_none_iff {ms : Members} {nullable : Bool} :
    (ms.find? fun m => !(isCodeName m.2 || (nullable && m.2.isNull))) = none ↔
      ∀ m ∈ ms, isCodeName m.2 = true ∨ nullable = true ∧ m.2 = .null := by
  simp only [List.find?_eq_none, Bool.not_eq_true', Bool.not_eq_false, Bool.or_eq_true,
    Bool.and_eq_true, Value.isNull_iff]

/-- Names are read and found to be known exactly if the object is a naming. -/
theorem exists_readNames_iff {key : Text} {nullable : Bool} {known : List Text} :
    (∃ ms, readNames data key nullable = .ok ms ∧ (unknownNames ms known).isEmpty = true) ↔
      ∀ v ∈ data.get? key, v.IsNaming known nullable := by
  rw [readNames]
  simp only [unknownNames_isEmpty_iff]
  cases data.get? key with
  | none => simp
  | some v =>
    cases v with
    | object ms =>
      simp only [Value.IsNaming, Option.mem_some_iff, forall_eq', Value.object.injEq,
        exists_eq_left', forall_and]
      rw [← find?_misnamed_eq_none_iff]
      cases ms.find? fun m => !(isCodeName m.2 || (nullable && m.2.isNull)) <;> simp
    | null | bool _ | int _ | float _ | str _ | list _ => simp [Value.IsNaming]

theorem readNames_isMistake {key : Text} {nullable : Bool} {fault : Fault}
    (h : readNames data key nullable = .error fault) : fault.isMistake = true := by
  unfold readNames at h
  split at h
  · cases h
  · split at h <;> cases h
    rfl
  · cases h
    rfl

theorem readTexts_isMistake {key : Text} {value : Option Value} {default : List Text}
    {fault : Fault} (h : readTexts key value default = .error fault) : fault.isMistake = true := by
  unfold readTexts at h
  split at h
  · cases h
  · split at h <;> cases h
    rfl

theorem readEntrypoint_isMistake {base : Profile} {fault : Fault}
    (h : readEntrypoint data base = .error fault) : fault.isMistake = true := by
  unfold readEntrypoint at h
  split at h
  · split at h
    · exact readTexts_isMistake h
    · cases h
  · cases h

theorem ne_error_of_isMistake {α : Type} {read : Except Fault α}
    (hread : ∀ fault, read = .error fault → fault.isMistake = true) {fault : Fault}
    (hfault : fault.isMistake = false) : read ≠ .error fault := by
  intro h
  rw [hread fault h] at hfault
  cases hfault

end Readers

section Members
variable {source : String} {data : Members}

theorem exists_ofMembers_iff (hdata : ∀ m ∈ data, m.2.isWritable = true) :
    (∃ p, ofMembers source data = .ok p) ↔ WellFormed data := by
  simp only [ofMembers, exists_refusal_ok_iff, exists_bind_ok_iff, Bool.not_eq_false']
  constructor
  · rintro ⟨hknown, base, hbase, constructs, hconstructs, hroles, keywords, hkeywords, hslots,
      name, -, imports, himports, root, -, entrypoint, hentrypoint, reserved, hreserved, -⟩
    exact {
      known := List.forall_mem_map.mpr (unknownNames_isEmpty_iff.mp hknown)
      base := exists_readBase_iff.mp ⟨base, hbase⟩
      constructs := exists_readNames_iff.mp ⟨constructs, hconstructs, hroles⟩
      keywords := exists_readNames_iff.mp ⟨keywords, hkeywords, hslots⟩
      imports := exists_readTexts_iff.mp ⟨imports, himports⟩
      entrypoint := exists_readEntrypoint_iff.mp ⟨entrypoint, hentrypoint⟩
      reserved := exists_readTexts_iff.mp ⟨reserved, hreserved⟩ }
  · intro h
    have hknown := unknownNames_isEmpty_iff.mpr (List.forall_mem_map.mp h.known)
    obtain ⟨base, hbase⟩ := exists_readBase_iff.mpr h.base
    obtain ⟨constructs, hconstructs, hroles⟩ := exists_readNames_iff.mpr h.constructs
    obtain ⟨keywords, hkeywords, hslots⟩ := exists_readNames_iff.mpr h.keywords
    obtain ⟨name, hname⟩ := exists_readText hdata "name" (defaultName source base)
    obtain ⟨imports, himports⟩ := exists_readTexts_iff.mpr h.imports
    obtain ⟨root, hroot⟩ := exists_readText hdata "rootIdentifier" base.rootIdentifier
    obtain ⟨entrypoint, hentrypoint⟩ := exists_readEntrypoint_iff.mpr h.entrypoint
    obtain ⟨reserved, hreserved⟩ := exists_readTexts_iff.mpr h.reserved
    exact ⟨hknown, base, hbase, constructs, hconstructs, hroles, keywords, hkeywords, hslots,
      name, hname, imports, himports, root, hroot, entrypoint, hentrypoint, reserved, hreserved, _,
      rfl⟩

theorem ofMembers_baseNotAName_iff :
    (∃ base, ofMembers source data = .error (.baseNotAName base)) ↔
      (∀ name ∈ data.names, name ∈ keys) ∧ ∃ base ∈ data.get? "base", base.Nameless := by
  rw [← readBase_baseNotAName_iff, Members.names, List.forall_mem_map,
    ← unknownNames_isEmpty_iff]
  have hnames : ∀ key nullable base, readNames data key nullable ≠ .error (.baseNotAName base) :=
    fun key nullable base => ne_error_of_isMistake (fun _ => readNames_isMistake) rfl
  have htexts : ∀ key value default base,
      readTexts key value default ≠ .error (.baseNotAName base) :=
    fun key value default base => ne_error_of_isMistake (fun _ => readTexts_isMistake) rfl
  have hentrypoint : ∀ profile base, readEntrypoint data profile ≠ .error (.baseNotAName base) :=
    fun profile base => ne_error_of_isMistake (fun _ => readEntrypoint_isMistake) rfl
  simp only [ofMembers, refusal_eq_error_iff, bind_eq_error_iff, hnames, htexts, hentrypoint,
    readText_ne_baseNotAName, Bool.not_eq_false', pure, Except.pure, reduceCtorEq, and_false,
    false_or, or_false, exists_false, exists_and_left]

theorem ofMembers_ne_longNumber (hdata : ∀ m ∈ data, m.2.isWritable = true) :
    ofMembers source data ≠ .error .longNumber := by
  have htext : ∀ (key default : Text), readText (data.get? key) default ≠ .error .longNumber := by
    intro key default h
    obtain ⟨text, htext⟩ := exists_readText hdata key default
    cases htext.symm.trans h
  have hnames : ∀ key nullable, readNames data key nullable ≠ .error .longNumber :=
    fun key nullable => ne_error_of_isMistake (fun _ => readNames_isMistake) rfl
  have htexts : ∀ key value default, readTexts key value default ≠ .error .longNumber :=
    fun key value default => ne_error_of_isMistake (fun _ => readTexts_isMistake) rfl
  have hentrypoint : ∀ profile, readEntrypoint data profile ≠ .error .longNumber :=
    fun profile => ne_error_of_isMistake (fun _ => readEntrypoint_isMistake) rfl
  simp only [ofMembers, ne_eq, refusal_eq_error_iff, bind_eq_error_iff, hnames, htexts, hentrypoint,
    htext, readBase_ne_longNumber hdata, pure, Except.pure, reduceCtorEq, and_false, or_false,
    exists_false, not_false_eq_true]

end Members

end Profile

end WorkflowCompiler
