import Mathlib
import WorkflowCompiler.Compilation
import WorkflowCompiler.Proofs.Json.Writable
import WorkflowCompiler.Proofs.Profile.Read
import WorkflowCompiler.Proofs.Resolution.Arms

/-! # Compiling for a profile from a file

A file that holds a profile is compiled for. Otherwise nothing is compiled, and the one diagnostic
says what is wrong with the target. Two sorts of files escape this report: those with an integer of
more digits than are read, and those with a list or an object in place of the name of the base.
-/
namespace WorkflowCompiler

namespace Profile

/-- A text with a profile in it. -/
def Holds (text : String) : Prop :=
  ∃ data, Json.read text = .ok (.object data) ∧ WellFormed data

/-- A text with which reading a profile fails in a way that is not reported as a mistake. -/
def Escapes (text : String) : Prop :=
  (∃ digits, Json.read text = .error (.longInteger digits)) ∨
    ∃ data : Members, Json.read text = .ok (.object data) ∧ (∀ name ∈ data.names, name ∈ keys) ∧
      ∃ base ∈ data.get? "base", base.Nameless

end Profile

namespace Target
variable {find : Lookup} {target text : String}

theorem isWritable_of_read_object {data : Members} (h : Json.read text = .ok (.object data)) :
    ∀ m ∈ data, m.2.isWritable = true :=
  Value.isWritable_object_iff.mp (Json.isWritable_of_read h)

theorem named?_eq_none (hsuffix : (Path.ofText target).suffix = ".json") :
    Profile.named? target = none := by
  cases hnamed : Profile.named? target with
  | none => rfl
  | some profile =>
    have hname : profile.name = (target : Text) := by simpa using List.find?_some hnamed
    have hmem : profile ∈ Profile.builtIn := List.mem_of_find?_eq_some hnamed
    rcases List.mem_pair.mp hmem with rfl | rfl
    · obtain rfl : "adk" = target := Text.ofString_injective hname
      revert hsuffix
      decide
    · obtain rfl : "agentflow" = target := Text.ofString_injective hname
      revert hsuffix
      decide

section File
variable (hsuffix : (Path.ofText target).suffix = ".json")
variable (htext : find.readText (Path.ofText target) = .ok text)
include hsuffix htext

theorem load_eq_readFile : load find target = readFile find (Path.ofText target) := by
  obtain ⟨content, hfile⟩ : ∃ content, find (Path.ofText target) = .ok (.file content) := by
    unfold Lookup.readText at htext
    split at htext
    · cases htext
    · cases htext
    next content hfile => exact ⟨content, hfile⟩
  simp [load, named?_eq_none hsuffix, hsuffix, Lookup.find?, hfile]

theorem load_of_object {data : Members} (hread : Json.read text = .ok (.object data)) :
    load find target =
      match Profile.ofMembers (Path.ofText target).text data with
      | .ok profile => .ok ⟨profile, some (Path.ofText target)⟩
      | .error fault => .error (.profile (Path.ofText target).text fault) := by
  rw [load_eq_readFile hsuffix htext]
  simp only [readFile, htext, hread, ofValue, Profile.ofValue]
  cases Profile.ofMembers (Path.ofText target).text data <;> rfl

theorem exists_load_of_holds (h : Profile.Holds text) : ∃ t, load find target = .ok t := by
  obtain ⟨data, hread, hdata⟩ := h
  obtain ⟨profile, hprofile⟩ : ∃ p, Profile.ofMembers (Path.ofText target).text data = .ok p :=
    (Profile.exists_ofMembers_iff (isWritable_of_read_object hread)).mpr hdata
  rw [load_of_object hsuffix htext hread, hprofile]
  exact ⟨_, rfl⟩

theorem exists_load_of_escapes (h : Profile.Escapes text) :
    ∃ fault, load find target = .error fault ∧ fault.isMistake = false := by
  rcases h with ⟨digits, hread⟩ | ⟨data, hread, hbase⟩
  · rw [load_eq_readFile hsuffix htext]
    simp only [readFile, htext, hread]
    exact ⟨_, rfl, rfl⟩
  · obtain ⟨base, hfault⟩ : ∃ base, Profile.ofMembers (Path.ofText target).text data =
        .error (.baseNotAName base) :=
      Profile.ofMembers_baseNotAName_iff.mpr hbase
    rw [load_of_object hsuffix htext hread, hfault]
    exact ⟨_, rfl, rfl⟩

theorem exists_load_of_mistake (hholds : ¬ Profile.Holds text) (hescapes : ¬ Profile.Escapes text) :
    ∃ fault, load find target = .error fault ∧ fault.isMistake = true := by
  cases hread : Json.read text with
  | error fault =>
    cases fault with
    | longInteger digits => exact absurd (Or.inl ⟨digits, hread⟩) hescapes
    | malformed problem offset =>
      rw [load_eq_readFile hsuffix htext]
      simp only [readFile, htext, hread]
      exact ⟨_, rfl, rfl⟩
  | ok v =>
    cases v with
    | object data =>
      have hwritable := isWritable_of_read_object hread
      rw [load_of_object hsuffix htext hread]
      cases hdata : Profile.ofMembers (Path.ofText target).text data with
      | ok profile =>
        have hformed := (Profile.exists_ofMembers_iff hwritable).mp ⟨profile, hdata⟩
        exact absurd ⟨data, hread, hformed⟩ hholds
      | error fault =>
        refine ⟨_, rfl, ?_⟩
        cases fault with
        | baseNotAName base =>
          have hbase := Profile.ofMembers_baseNotAName_iff.mp ⟨base, hdata⟩
          exact absurd (Or.inr ⟨data, hread, hbase⟩) hescapes
        | longNumber => exact absurd hdata (Profile.ofMembers_ne_longNumber hwritable)
        | notAnObject | unknownKeys _ | unknownBase _ | notAMap _ | notAnIdentifier _ _
        | unknownRoles _ | unknownSlots _ | notTexts _ => rfl
    | null | bool _ | int _ | float _ | str _ | list _ =>
      rw [load_eq_readFile hsuffix htext]
      simp only [readFile, htext, hread]
      exact ⟨_, rfl, rfl⟩

end File

end Target

theorem compileFor_of_mistake {target : Except TargetFault Target} {fault : TargetFault}
    (h : target = .error fault) (hmistake : fault.isMistake = true) (name : Text)
    (ceiling : Option Int) (g : Graph) :
    ∃ report, compileFor target name ceiling g = .ok report ∧
      report.outcome = .refused [invalidTarget fault] := by
  subst h
  rw [compileFor, if_pos hmistake]
  exact ⟨_, rfl, rfl⟩

/-- A target that is a file is compiled for if the file holds a profile; otherwise it is reported by
one diagnostic, whatever the graph, unless what is wrong with the file escapes the report. -/
theorem compileFor_file {find : Lookup} {target text : String}
    (hsuffix : (Path.ofText target).suffix = ".json")
    (htext : find.readText (Path.ofText target) = .ok text) :
    (Profile.Holds text →
      ∃ loaded, Target.load find target = .ok loaded ∧ ∀ name ceiling g,
        compileFor (Target.load find target) name ceiling g =
          .ok (compile loaded.profile name ceiling g)) ∧
    (Profile.Escapes text →
      ∃ fault, Target.load find target = .error fault ∧ fault.isMistake = false ∧
        ∀ name ceiling g, compileFor (Target.load find target) name ceiling g = .error fault) ∧
    (¬ Profile.Holds text → ¬ Profile.Escapes text →
      ∃ fault, Target.load find target = .error fault ∧ fault.isMistake = true ∧
        ∀ name ceiling g, ∃ report,
          compileFor (Target.load find target) name ceiling g = .ok report ∧
            report.outcome = .refused [invalidTarget fault]) := by
  refine ⟨fun hholds => ?_, fun hescapes => ?_, fun hholds hescapes => ?_⟩
  · obtain ⟨loaded, hload⟩ := Target.exists_load_of_holds hsuffix htext hholds
    refine ⟨loaded, hload, fun name ceiling g => ?_⟩
    rw [hload]
    rfl
  · obtain ⟨fault, hload, hmistake⟩ := Target.exists_load_of_escapes hsuffix htext hescapes
    refine ⟨fault, hload, hmistake, fun name ceiling g => ?_⟩
    simp [hload, compileFor, hmistake]
  · obtain ⟨fault, hload, hmistake⟩ :=
      Target.exists_load_of_mistake hsuffix htext hholds hescapes
    exact ⟨fault, hload, hmistake, compileFor_of_mistake hload hmistake⟩

def soleFile (text : String) : Lookup := fun _ => .ok (.file text.toUTF8)

def adkBased : String := "\x7b\"base\": \"adk\"\x7d"

def listBased : String := "\x7b\"base\": []\x7d"

theorem holds_adkBased : Profile.Holds adkBased := by
  have hread : Json.read adkBased = .ok (.object [("base", .str "adk")]) := by cbv
  refine ⟨_, hread, ?_⟩
  constructor
  case known => decide
  case base =>
    rintro v ⟨⟩
    exact ⟨"adk", by decide, rfl⟩
  -- no other key is given
  all_goals
    intro v hv
    cases hv

theorem escapes_listBased : Profile.Escapes listBased := by
  have hread : Json.read listBased = .ok (.object [("base", .list [])]) := by cbv
  refine .inr ⟨_, hread, ?_, .list [], rfl, .inl ⟨[], rfl⟩⟩
  decide

/-- A profile, a list in place of a base, and a list in place of a profile. -/
theorem compileFor_file_sole :
    (Path.ofText "p.json").suffix = ".json" ∧
      (∃ loaded, Target.load (soleFile adkBased) "p.json" = .ok loaded) ∧
      (∀ name ceiling g, ∃ fault,
        compileFor (Target.load (soleFile listBased) "p.json") name ceiling g = .error fault) ∧
      ∀ name ceiling g, ∃ report fault,
        compileFor (Target.load (soleFile "[]") "p.json") name ceiling g = .ok report ∧
          report.outcome = .refused [invalidTarget fault] := by
  have hsuffix : (Path.ofText "p.json").suffix = ".json" := by decide
  have hread : Json.read "[]" = .ok (.list []) := by cbv
  have hadk : (soleFile adkBased).readText (Path.ofText "p.json") = .ok adkBased := by cbv
  have hlist : (soleFile listBased).readText (Path.ofText "p.json") = .ok listBased := by cbv
  have hbrackets : (soleFile "[]").readText (Path.ofText "p.json") = .ok "[]" := by cbv
  refine ⟨hsuffix, ?_, ?_, ?_⟩
  · obtain ⟨loaded, hload, -⟩ := (compileFor_file hsuffix hadk).1 holds_adkBased
    exact ⟨loaded, hload⟩
  · intro name ceiling g
    obtain ⟨fault, -, -, hcompile⟩ := (compileFor_file hsuffix hlist).2.1 escapes_listBased
    exact ⟨fault, hcompile name ceiling g⟩
  · intro name ceiling g
    have hholds : ¬ Profile.Holds "[]" := by
      rintro ⟨data, hdata, -⟩
      rw [hread] at hdata
      cases hdata
    have hescapes : ¬ Profile.Escapes "[]" := by
      rintro (⟨digits, hdigits⟩ | ⟨data, hdata, -⟩)
      · rw [hread] at hdigits
        cases hdigits
      · rw [hread] at hdata
        cases hdata
    obtain ⟨fault, -, -, hcompile⟩ := (compileFor_file hsuffix hbrackets).2.2 hholds hescapes
    obtain ⟨report, hreport, houtcome⟩ := hcompile name ceiling g
    exact ⟨report, fault, hreport, houtcome⟩

end WorkflowCompiler
