import Mathlib
import WorkflowCompiler.CommandLine.Run
import WorkflowCompiler.Proofs.Identifier.Valid
import WorkflowCompiler.Proofs.Storage.FileSystem

/-! # What a run of the command line changes

A run that ends with a report of its own has touched nothing unless it has compiled the workflow, and
then it has either printed the code or written it to one file. The name of that file is plain,
whatever the workflow or the module is called, so the file stands in the directory for the code.
-/
namespace WorkflowCompiler.CommandLine

/-- A run reads a workflow and compiles it. -/
structure Compiles (find : Lookup) (arguments : List String) (settings : Settings)
    (workflow : Workflow) (source : Text) : Prop where
  parsed : parse arguments = .ok settings
  loaded : Document.loadFile find (Path.ofText settings.workflow) = .ok workflow
  compiled : ∃ target ceiling warnings, targetOf find settings = .ok target ∧
    ceilingOf settings = .ok ceiling ∧
    (compile target.profile (moduleNameOf settings workflow) ceiling workflow.graph).outcome =
      .compiled source warnings

/-- What a run comes to that has compiled: it shows the code, or asks for it to be written. -/
def Result.Delivers (result : Result) (settings : Settings) (moduleName source : Text) : Prop :=
  settings.printOnly = true ∧ result.output = source ∧ result.writing = none ∨
  settings.printOnly = false ∧ result.output = [] ∧ ∃ directory,
    directoryOf settings = .ok directory ∧
    result.writing = some ⟨directory, fileName moduleName, source⟩

theorem compileLoaded_eq_ok {settings : Settings} {workflow : Workflow} {target : Target}
    {result : Result} (h : compileLoaded settings workflow target = .ok result) :
    result.status = 1 ∧ result.writing = none ∨ result.status = 0 ∧ ∃ ceiling source warnings,
      ceilingOf settings = .ok ceiling ∧
      (compile target.profile (moduleNameOf settings workflow) ceiling workflow.graph).outcome =
        .compiled source warnings ∧
      result.Delivers settings (moduleNameOf settings workflow) source := by
  obtain ⟨ceiling, hceiling, h⟩ := exists_of_bind_eq_ok h
  dsimp only at h
  split at h
  · cases h
    exact Or.inl ⟨rfl, rfl⟩
  next source warnings hcompiled =>
    split at h
    next hprint =>
      cases h
      exact Or.inr ⟨rfl, ceiling, source, warnings, hceiling, hcompiled, Or.inl ⟨hprint, rfl, rfl⟩⟩
    next hprint =>
      obtain ⟨directory, hdirectory, h⟩ := exists_of_bind_eq_ok h
      cases h
      refine Or.inr ⟨rfl, ceiling, source, warnings, hceiling, hcompiled, Or.inr ?_⟩
      exact ⟨by simpa using hprint, rfl, directory, hdirectory, rfl⟩

/-- A run that ends with a report has compiled the workflow, or has status one and nothing to write. -/
theorem run_eq_finished {find : Lookup} {arguments : List String} {result : Result}
    (h : run find arguments = .finished result) :
    result.status = 1 ∧ result.writing = none ∨ result.status = 0 ∧ ∃ settings workflow source,
      Compiles find arguments settings workflow source ∧
      result.Delivers settings (moduleNameOf settings workflow) source := by
  rw [run] at h
  split at h
  · cases h
  next settings hsettings =>
    rw [runSettings] at h
    split at h
    · cases h
    · cases h
      exact Or.inl ⟨rfl, rfl⟩
    · split at h
      · split at h
        · cases h
          exact Or.inl ⟨rfl, rfl⟩
        · cases h
      next workflow hworkflow =>
        split at h
        next target htarget =>
          split at h
          next loaded hloaded =>
            cases h
            rcases compileLoaded_eq_ok hloaded with hone | ⟨hzero, ceiling, source, warnings,
              hceiling, hcompiled, hdelivers⟩
            · exact Or.inl hone
            · exact Or.inr ⟨hzero, settings, workflow, source, ⟨hsettings, hworkflow, target, ceiling,
                warnings, htarget, hceiling, hcompiled⟩, hdelivers⟩
          · cases h
        · split at h
          · cases h
            exact Or.inl ⟨rfl, rfl⟩
          · cases h

/-- A lower-case letter, then lower-case letters, digits and underscores, and the suffix of modules. -/
def IsModuleFile (name : String) : Prop :=
  ∃ first rest, name = String.ofList (first :: rest) ++ ".py" ∧ Identifier.isLetter first = true ∧
    ∀ c ∈ rest, Identifier.isNameChar c = true

theorem isModuleFile_fileName (moduleName : Text) : IsModuleFile (fileName moduleName) := by
  obtain ⟨p, rest, heq, hp, hrest⟩ := Identifier.led_of_isValid
    (Identifier.isValid_ofName Identifier.led_workflowFallback moduleName)
  cases p with
  | surrogate offset => cases hp
  | char c =>
    refine ⟨c, Text.chars rest, by rw [fileName, heq]; rfl, hp, ?_⟩
    intro x hx
    obtain ⟨q, hq, hchar⟩ := List.mem_filterMap.mp hx
    cases q with
    | surrogate offset => cases hchar
    | char y =>
      cases hchar
      exact hrest _ hq

theorem IsModuleFile.ne_dots {name : String} (h : IsModuleFile name) : name ≠ ".." := by
  rintro rfl
  obtain ⟨first, rest, heq, hfirst, _⟩ := h
  have hlist := congrArg String.toList heq
  simp only [String.toList_append, String.toList_ofList, List.cons_append] at hlist
  obtain rfl : first = '.' := (List.cons.inj hlist).1.symm
  cases hfirst

theorem Writing.perform_eq_ok {writing : Writing} {fs after : FileSystem}
    (h : writing.perform fs = (after, .ok ())) (hname : writing.name ≠ "..") :
    ∃ content, writing.text.toString? = some content ∧
      fs.Stores writing.directory writing.name content.toUTF8 after := by
  rw [perform] at h
  split at h
  · cases h
  next middle directory hmake =>
    split at h
    · cases h
    next hcheck => exact FileSystem.stores_of_writeText hname hcheck hmake h

/-- What a run with a report of its own does to a file system. With status one it leaves it as it was.
With status zero it has compiled the workflow; it either prints the code and leaves the file system
as it was, or stores the code in one file. The name of the file is a plain one in the directory for
the code, whatever the module is called. -/
theorem runIn_effect {fs after : FileSystem} {arguments : List String} {result : Result}
    (h : runIn fs arguments = (.finished result, after)) :
    result.status = 1 ∧ after = fs ∨
    result.status = 0 ∧ ∃ settings workflow source,
      Compiles fs.find arguments settings workflow source ∧
      (settings.printOnly = true → result.output = source ∧ after = fs) ∧
      (settings.printOnly = false → result.output = [] ∧ ∃ directory name content,
        directoryOf settings = .ok directory ∧ IsModuleFile name ∧
        source.toString? = some content ∧ fs.Stores directory name content.toUTF8 after) := by
  rw [runIn] at h
  split at h
  next report hrun =>
    rcases run_eq_finished hrun with ⟨hone, hnone⟩ | ⟨hzero, settings, workflow, source, hcompiles,
      hdelivers⟩
    · rw [hnone] at h
      cases h
      exact Or.inl ⟨hone, rfl⟩
    rcases hdelivers with ⟨hprint, houtput, hnone⟩ | ⟨hprint, houtput, directory, hdirectory, hsome⟩
    · rw [hnone] at h
      cases h
      refine Or.inr ⟨hzero, settings, workflow, source, hcompiles, fun _ => ⟨houtput, rfl⟩, ?_⟩
      simp [hprint]
    · rw [hsome] at h
      dsimp only at h
      split at h
      · cases h
      next hperform =>
        cases h
        have hname := isModuleFile_fileName (moduleNameOf settings workflow)
        obtain ⟨content, hcontent, hstores⟩ := Writing.perform_eq_ok hperform hname.ne_dots
        refine Or.inr ⟨hzero, settings, workflow, source, hcompiles, by simp [hprint], fun _ => ?_⟩
        exact ⟨houtput, directory, _, content, hdirectory, hname, hcontent, hstores⟩
  next hother => exact absurd (Prod.mk.inj h).1 (hother result)

/-- A workflow of one step in a home directory. -/
def soleWorkflow : FileSystem where
  root := .directory [("home", .directory [("w.json",
    .file "\x7b\"nodes\": [\x7b\"id\": \"i\", \"type\": \"input\"\x7d], \"edges\": []\x7d".toUTF8)])]
  workingDirectory := ["home"]

/-- Arguments that name a module like a path out of the directory for the code. -/
def strayingArguments : List String := ["w.json", "--module", "../A/b.", "--out", "x/../y"]

def Ending.succeeds : Ending → Bool
  | .finished result => result.status == 0
  | .stopped _ | .crashed _ => false

theorem runIn_effect_soleWorkflow : ∃ result after name content,
    runIn soleWorkflow strayingArguments = (.finished result, after) ∧ IsModuleFile name ∧
    soleWorkflow.Stores (Path.ofText "x/../y") name content after := by
  have hsucceeds : (runIn soleWorkflow strayingArguments).1.succeeds = true := by decide +kernel
  have hparse : parse strayingArguments = .ok
      { workflow := "w.json", moduleName := .value "../A/b.", out := .value "x/../y" } := rfl
  rcases hrun : runIn soleWorkflow strayingArguments with ⟨ending, after⟩
  rw [hrun] at hsucceeds
  cases ending with
  | stopped stop => cases hsucceeds
  | crashed crash => cases hsucceeds
  | finished result =>
    rcases runIn_effect hrun with ⟨hone, _⟩ | ⟨_, settings, workflow, source, hcompiles, _, hwrites⟩
    · simp [Ending.succeeds, hone] at hsucceeds
    · obtain rfl := Except.ok.inj (hcompiles.parsed.symm.trans hparse)
      obtain ⟨_, directory, name, content, hdirectory, hname, _, hstores⟩ := hwrites rfl
      obtain rfl := Except.ok.inj hdirectory
      exact ⟨result, after, name, _, rfl, hname, hstores⟩

end WorkflowCompiler.CommandLine
