import Mathlib
import WorkflowCompiler.Proofs.Fault
import WorkflowCompiler.Storage.FileSystem

/-! # What actions change in a file system

Making directories changes nothing that is there, and adds directories on the way of a path only.
Writing a text changes one file only. Wherever directories were made, the path to them can be
followed afterwards.
-/
namespace WorkflowCompiler

namespace FileTree

theorem lookup_filter_of_ne {name other : String} (h : other ≠ name)
    (children : List (String × FileTree)) :
    (children.filter (·.1 != name)).lookup other = children.lookup other := by
  induction children with
  | nil => rfl
  | cons child rest ih =>
    obtain ⟨key, tree⟩ := child
    by_cases hkey : key = name
    · have hother : (other == key) = false := by simpa [hkey] using h
      simp [hkey, List.lookup_cons, ih, hkey ▸ hother]
    · simp [hkey, List.lookup_cons, ih]

theorem child?_setChild (children : List (String × FileTree)) (name other : String)
    (child : FileTree) : ((directory children).setChild name child).child? other =
      if other = name then some child else (directory children).child? other := by
  rw [setChild, child?, List.lookup_cons]
  split
  next heq => simp [beq_iff_eq.mp heq]
  next hne => simp [beq_eq_false_iff_ne.mp hne, child?, lookup_filter_of_ne]

theorem eq_directory_of_entry {tree : FileTree} (h : tree.entry = .directory) :
    ∃ children, tree = .directory children := by
  cases tree with
  | file content => cases h
  | directory children => exact ⟨children, rfl⟩

theorem get?_cons (tree : FileTree) (name : String) (rest : List String) :
    tree.get? (name :: rest) = (tree.child? name).bind (·.get? rest) := by
  rw [get?]
  cases tree.child? name <;> rfl

theorem get?_of_append {tree : FileTree} {names : List String} {name : String}
    {rest : List String} {e : FileEntry} (h : tree.get? (names ++ name :: rest) = some e) :
    tree.get? names = some .directory := by
  induction names generalizing tree with
  | nil =>
    cases tree with
    | file content => cases h
    | directory children => rfl
  | cons first names ih =>
    rw [List.cons_append, get?_cons] at h
    obtain ⟨child, hchild, h⟩ := Option.bind_eq_some_iff.mp h
    rw [get?_cons, hchild]
    exact ih h

/-- To put a file or an empty directory where no directory is changes nothing else. -/
theorem get?_put {tree new : FileTree} {here : List String} {part : String}
    (hhere : tree.get? here = some .directory)
    (hpart : tree.get? (here ++ [part]) ≠ some .directory) (hnew : ∀ name, new.child? name = none)
    (names : List String) : (tree.put (here ++ [part]) new).get? names =
      if names = here ++ [part] then some new.entry else tree.get? names := by
  -- along the way to the place every directory keeps its other children
  induction here generalizing tree names with
  | nil =>
    obtain ⟨children, rfl⟩ := eq_directory_of_entry (Option.some.inj hhere)
    cases names with
    | nil => rfl
    | cons name rest =>
      rw [List.nil_append, put, put, get?_cons, child?_setChild]
      by_cases hname : name = part
      · rw [if_pos hname, Option.bind_some, hname]
        cases rest with
        | nil => rw [if_pos rfl, get?]
        | cons next rest =>
          have hnone : (directory children).get? (part :: next :: rest) = none := by
            refine Option.eq_none_iff_forall_ne_some.mpr fun e he => hpart ?_
            have hbehind : (directory children).get? ([part] ++ next :: rest) = some e := he
            exact get?_of_append hbehind
          rw [get?_cons, hnew, hnone, if_neg (by simp)]
          rfl
      · rw [if_neg hname, if_neg (by simp [hname]), get?_cons]
  | cons first here ih =>
    rw [get?_cons] at hhere
    obtain ⟨child, hchild, hinner⟩ := Option.bind_eq_some_iff.mp hhere
    rw [List.cons_append, get?_cons, hchild, Option.bind_some] at hpart
    cases tree with
    | file content => cases hchild
    | directory children =>
      rw [List.cons_append, put, hchild, Option.getD_some]
      cases names with
      | nil => rfl
      | cons name rest =>
        rw [get?_cons, child?_setChild, get?_cons]
        by_cases hname : name = first
        · rw [if_pos hname, hname, hchild, Option.bind_some, Option.bind_some, ih hinner hpart]
          simp
        · rw [if_neg hname, if_neg (by simp [hname])]

end FileTree

namespace FileSystem

/-- A name can be looked for exactly in a directory, and if it is not too long. -/
theorem enter_eq_ok_iff {fs : FileSystem} {here : List String} {name : String} :
    fs.enter here name = .ok () ↔
      fs.get? here = some .directory ∧ name.utf8ByteSize ≤ maxNameBytes := by
  rw [enter]
  split
  next h => simp [h]
  next h => simp [h]
  next h =>
    split
    next hlong => simp [h, hlong]
    next hshort => simp [h, Nat.not_lt.mp hshort]

theorem get?_dropLast {fs : FileSystem} {names : List String}
    (h : fs.get? names = some .directory) : fs.get? names.dropLast = some .directory := by
  induction names using List.reverseRecOn with
  | nil => exact h
  | append_singleton names name _ =>
    rw [List.dropLast_concat]
    exact FileTree.get?_of_append h

theorem get?_put {fs : FileSystem} {new : FileTree} {here : List String} {part : String}
    (hhere : fs.get? here = some .directory)
    (hpart : fs.get? (here ++ [part]) ≠ some .directory) (hnew : ∀ name, new.child? name = none)
    (names : List String) : (fs.put (here ++ [part]) new).get? names =
      if names = here ++ [part] then some new.entry else fs.get? names :=
  FileTree.get?_put hhere hpart hnew names

/-- Nothing has changed, except that there are new directories in some places. -/
structure Grown (fs after : FileSystem) (places : List String → Prop) : Prop where
  workingDirectory : after.workingDirectory = fs.workingDirectory
  entries : ∀ names, after.get? names = fs.get? names ∨
    fs.get? names = none ∧ after.get? names = some .directory ∧ places names

theorem Grown.refl (fs : FileSystem) (places : List String → Prop) : Grown fs fs places :=
  ⟨rfl, fun _ => Or.inl rfl⟩

theorem Grown.keeps {fs after : FileSystem} {places : List String → Prop}
    (h : Grown fs after places) {names : List String} {e : FileEntry}
    (he : fs.get? names = some e) : after.get? names = some e := by
  rcases h.entries names with heq | ⟨hnone, _⟩
  · rw [heq, he]
  · rw [hnone] at he
    cases he

theorem Grown.trans {fs middle after : FileSystem} {places : List String → Prop}
    (h : Grown fs middle places) (h' : Grown middle after places) : Grown fs after places where
  workingDirectory := h'.workingDirectory.trans h.workingDirectory
  entries names := by
    rcases h'.entries names with heq | ⟨hnone, hnew⟩
    · rw [heq]
      exact h.entries names
    · rcases h.entries names with heq | ⟨_, hdirectory, _⟩
      · exact Or.inr ⟨heq ▸ hnone, hnew⟩
      · rw [hdirectory] at hnone
        cases hnone

theorem Grown.mono {fs after : FileSystem} {places places' : List String → Prop}
    (h : Grown fs after places) (hp : ∀ names, places names → places' names) :
    Grown fs after places' where
  workingDirectory := h.workingDirectory
  entries names := (h.entries names).imp_right fun hn => ⟨hn.1, hn.2.1, hp names hn.2.2⟩

/-- The places on the way along some names. -/
def OnWay (here parts names : List String) : Prop :=
  ∃ segment, segment <+: parts ∧ names = segment.foldl step here

theorem OnWay.cons {here rest names : List String} {part : String}
    (h : OnWay (step here part) rest names) : OnWay here (part :: rest) names := by
  obtain ⟨segment, hsegment, rfl⟩ := h
  exact ⟨part :: segment, (List.prefix_cons_inj part).mpr hsegment, rfl⟩

/-- A directory that is missing behind another one is made without changing anything else. -/
theorem grown_put {fs : FileSystem} {here : List String} {part : String}
    (hhere : fs.get? here = some .directory) (hnone : fs.get? (step here part) = none)
    (rest : List String) :
    Grown fs (fs.put (step here part) (.directory [])) (OnWay here (part :: rest)) := by
  have hstep : step here part = here ++ [part] := by
    rw [step]
    refine if_neg fun hup => ?_
    rw [step, if_pos hup, get?_dropLast hhere] at hnone
    cases hnone
  refine ⟨rfl, fun names => ?_⟩
  rw [hstep] at hnone ⊢
  rw [get?_put hhere (by simp [hnone]) fun _ => rfl]
  split
  next heq =>
    refine Or.inr ⟨heq ▸ hnone, rfl, [part], List.prefix_append [part] rest, ?_⟩
    rw [heq, ← hstep]
    rfl
  next => exact Or.inl rfl

/-- Directories are made on the way only, whether or not all of them can be made. -/
theorem grown_makeFrom (fs : FileSystem) (made : Bool) (here parts : List String) :
    Grown fs (fs.makeFrom made here parts).1 (OnWay here parts) := by
  induction parts generalizing fs made here with
  | nil => exact .refl _ _
  | cons part rest ih =>
    rw [makeFrom]
    split
    · exact .refl _ _
    next hok =>
      dsimp only
      split
      · exact (ih fs made (step here part)).mono fun _ => OnWay.cons
      · exact .refl _ _
      next hnone =>
        refine (grown_put (enter_eq_ok_iff.mp hok).1 hnone rest).trans ?_
        exact (ih _ true (step here part)).mono fun _ => OnWay.cons

theorem follow_keeps {fs after : FileSystem} {here parts there : List String}
    (hkeeps : ∀ names, fs.get? names = some .directory → after.get? names = some .directory)
    (h : fs.follow here parts = .ok there) : after.follow here parts = .ok there := by
  induction parts generalizing here with
  | nil => exact h
  | cons part rest ih =>
    obtain ⟨⟨⟩, henter, h⟩ := exists_of_bind_eq_ok h
    obtain ⟨hhere, hshort⟩ := enter_eq_ok_iff.mp henter
    rw [follow, enter_eq_ok_iff.mpr ⟨hkeeps here hhere, hshort⟩]
    exact ih h

/-- Once the directories along some names are made, the names can be followed. -/
theorem follow_makeFrom {fs after : FileSystem} {made : Bool} {here parts there : List String}
    (h : fs.makeFrom made here parts = (after, .ok there)) :
    there = parts.foldl step here ∧ after.follow here parts = .ok there := by
  induction parts generalizing fs made here with
  | nil =>
    cases h
    exact ⟨rfl, rfl⟩
  | cons part rest ih =>
    have hgrown := grown_makeFrom fs made here (part :: rest)
    rw [h] at hgrown
    rw [makeFrom] at h
    split at h
    · cases h
    next hok =>
      obtain ⟨hhere, hshort⟩ := enter_eq_ok_iff.mp hok
      have hrest : there = rest.foldl step (step here part) ∧
          after.follow (step here part) rest = .ok there := by
        dsimp only at h
        split at h
        · exact ih h
        · cases h
        · exact ih h
      refine ⟨hrest.1, ?_⟩
      rw [follow, enter_eq_ok_iff.mpr ⟨hgrown.keeps hhere, hshort⟩]
      exact hrest.2

theorem follow_append {fs : FileSystem} {here xs there : List String}
    (h : fs.follow here xs = .ok there) (ys : List String) :
    fs.follow here (xs ++ ys) = fs.follow there ys := by
  induction xs generalizing here with
  | nil =>
    cases h
    rfl
  | cons part rest ih =>
    obtain ⟨⟨⟩, henter, h⟩ := exists_of_bind_eq_ok h
    rw [List.cons_append, follow, henter]
    exact ih h

def OnPath (fs : FileSystem) (path : Path) (names : List String) : Prop :=
  ∃ parts, parts <+: path.parts ∧ names = fs.place { path with parts }

theorem makeDirectory_eq_ok {fs after : FileSystem} {path : Path} {directory : List String}
    (h : fs.makeDirectory path = (after, .ok directory)) :
    directory = fs.place path ∧ Grown fs after (fs.OnPath path) ∧
      after.follow (after.start path) path.parts = .ok directory := by
  rw [makeDirectory] at h
  split at h
  · cases h
  · have hgrown := fs.grown_makeFrom false (fs.start path) path.parts
    rw [h] at hgrown
    have hstart : after.start path = fs.start path := by rw [start, start, hgrown.workingDirectory]
    obtain ⟨hplace, hfollow⟩ := follow_makeFrom h
    exact ⟨hplace, hgrown.mono fun _ => id, hstart ▸ hfollow⟩

theorem place_join (fs : FileSystem) (path : Path) {name : String} (h : name ≠ "..") :
    fs.place (path.join name) = fs.place path ++ [name] := by
  rw [place, Path.join, List.foldl_append, List.foldl_cons, List.foldl_nil, step, if_neg h]
  rfl

theorem get?_put_file {fs : FileSystem} {directory : List String} {name : String}
    (henter : fs.enter directory name = .ok ())
    (hother : fs.get? (directory ++ [name]) ≠ some .directory) (content : ByteArray)
    (names : List String) : (fs.put (directory ++ [name]) (.file content)).get? names =
      if names = directory ++ [name] then some (.file content) else fs.get? names :=
  get?_put (enter_eq_ok_iff.mp henter).1 hother (fun _ => rfl) names

/-- A file that is put where no directory is can be found by the path to it. -/
theorem find_put_file {fs : FileSystem} {path : Path} {name : String} {content : ByteArray}
    {directory : List String} (hname : name ≠ "..") (hcheck : check (path.join name) = .ok ())
    (hfollow : fs.follow (fs.start path) path.parts = .ok directory)
    (henter : fs.enter directory name = .ok ())
    (hother : fs.get? (directory ++ [name]) ≠ some .directory) :
    (fs.put (directory ++ [name]) (.file content)).find (path.join name) = .ok (.file content) := by
  obtain ⟨hhere, hshort⟩ := enter_eq_ok_iff.mp henter
  have hentry := get?_put_file henter hother content
  have hkeeps : ∀ names, fs.get? names = some .directory →
      (fs.put (directory ++ [name]) (.file content)).get? names = some .directory := by
    intro names hnames
    have hne : names ≠ directory ++ [name] := fun heq => hother (heq ▸ hnames)
    rw [hentry, if_neg hne, hnames]
  have hfile : (fs.put (directory ++ [name]) (.file content)).follow (fs.start path)
      (path.parts ++ [name]) = .ok (directory ++ [name]) := by
    rw [follow_append (follow_keeps hkeeps hfollow), follow,
      enter_eq_ok_iff.mpr ⟨hkeeps directory hhere, hshort⟩, step, if_neg hname]
    rfl
  have hstart : (fs.put (directory ++ [name]) (.file content)).start (path.join name) =
      fs.start path := rfl
  rw [find, hcheck, hstart, Path.join, hfile]
  simp [bind, Except.bind, hentry, pure, Except.pure]

/-- A text that is written is one that can be, and goes where no directory is. -/
theorem writeText_eq_ok {fs after : FileSystem} {directory : List String} {name : String}
    {text : Text} (h : fs.writeText directory name text = (after, .ok ())) :
    ∃ content, text.toString? = some content ∧ fs.enter directory name = .ok () ∧
      fs.get? (directory ++ [name]) ≠ some .directory ∧
      after = fs.put (directory ++ [name]) (.file content.toUTF8) := by
  rw [writeText] at h
  split at h
  · cases h
  next henter =>
    split at h
    · cases h
    next hother =>
      split at h
      · cases h
      next content hcontent =>
        cases h
        exact ⟨content, hcontent, henter, hother, rfl⟩

/-- A file has been stored in a directory, and can be found there. Nothing else has changed, except
that directories on the way may be new. -/
structure Stores (fs : FileSystem) (directory : Path) (name : String) (content : ByteArray)
    (after : FileSystem) : Prop where
  found : after.find (directory.join name) = .ok (.file content)
  stored : after.get? (fs.place (directory.join name)) = some (.file content)
  workingDirectory : after.workingDirectory = fs.workingDirectory
  others : ∀ names, names ≠ fs.place (directory.join name) →
    after.get? names = fs.get? names ∨
    fs.get? names = none ∧ after.get? names = some .directory ∧ fs.OnPath directory names

theorem stores_of_writeText {fs middle after : FileSystem} {path : Path} {directory : List String}
    {name : String} {text : Text} (hname : name ≠ "..") (hcheck : check (path.join name) = .ok ())
    (hmake : fs.makeDirectory path = (middle, .ok directory))
    (hwrite : middle.writeText directory name text = (after, .ok ())) :
    ∃ content, text.toString? = some content ∧ fs.Stores path name content.toUTF8 after := by
  obtain ⟨rfl, hgrown, hfollow⟩ := makeDirectory_eq_ok hmake
  obtain ⟨content, hcontent, henter, hother, rfl⟩ := writeText_eq_ok hwrite
  have hentry := get?_put_file henter hother content.toUTF8
  refine ⟨content, hcontent, find_put_file hname hcheck hfollow henter hother, ?_,
    hgrown.workingDirectory, fun names hne => ?_⟩
  · rw [place_join fs path hname, hentry, if_pos rfl]
  · rw [place_join fs path hname] at hne
    rw [hentry, if_neg hne]
    exact hgrown.entries names

end FileSystem

end WorkflowCompiler
