import Mathlib
import WorkflowCompiler.Document.Load
import WorkflowCompiler.Proofs.Decimal.Range
import WorkflowCompiler.Proofs.Fault
import WorkflowCompiler.Proofs.Value.Members

/-! # The grammar of workflow documents

Which values are documents is said here without reference to the check of shapes. The check refuses
exactly the others, and its message names the first defect: the root before the nodes, the nodes
before the edges, and each list in order. Reading, which looks at no shape, finds in a document what
it asks for: it gives a node and an edge for each element of the lists, unless an integer coordinate
lies beyond the numbers.
-/
namespace WorkflowCompiler

theorem NodeKind.ofWire?_wireName (kind : NodeKind) : ofWire? kind.wireName = some kind := by
  cases kind <;> decide

theorem NodeKind.ofWire?_eq_some_iff {type : Text} {kind : NodeKind} :
    ofWire? type = some kind ↔ type = kind.wireName := by
  constructor
  · intro h
    have hname := List.find?_some h
    exact (eq_of_beq hname).symm
  · rintro rfl
    exact kind.ofWire?_wireName

namespace Document

/-! ## Shapes -/

/-- A number. Truth values are none. -/
def IsNumber (v : Value) : Prop := (∃ n, v = .int n) ∨ ∃ x, v = .float x

/-- A member that may be absent or null and is a text otherwise. -/
def TextOrNull (ms : Members) (field : Text) : Prop :=
  ms.get field = .null ∨ ∃ s, ms.get field = .str s

/-- An object with members of some shape. -/
def ObjectWith (shape : Members → Prop) (v : Value) : Prop := ∃ ms, v = .object ms ∧ shape ms

structure NodeShape (spec : Members) : Prop where
  id : ∃ id, spec.get "id" = .str id ∧ id ≠ []
  kind : ∃ kind : NodeKind, spec.get "type" = .str kind.wireName
  data : spec.get "data" = .null ∨ ∃ data, spec.get "data" = .object data
  position : spec.get "position" = .null ∨
    ∃ p : Members, spec.get "position" = .object p ∧ IsNumber (p.get "x") ∧ IsNumber (p.get "y")

structure EdgeShape (spec : Members) : Prop where
  id : ∃ id, spec.get "id" = .str id
  source : ∃ source, spec.get "source" = .str source
  target : ∃ target, spec.get "target" = .str target
  sourceHandle : TextOrNull spec "sourceHandle"
  targetHandle : TextOrNull spec "targetHandle"

structure RootShape (root : Members) : Prop where
  nodes : ∃ nodes, root.get "nodes" = .list nodes
  edges : ∃ edges, root.get "edges" = .list edges
  id : TextOrNull root "id"
  name : TextOrNull root "name"

def nodeValues (v : Value) : List Value :=
  match v with
  | .object root =>
    match Members.get root "nodes" with
    | .list nodes => nodes
    | _ => []
  | _ => []

def edgeValues (v : Value) : List Value :=
  match v with
  | .object root =>
    match Members.get root "edges" with
    | .list edges => edges
    | _ => []
  | _ => []

structure WellFormed (v : Value) : Prop where
  root : ObjectWith RootShape v
  nodes : ∀ u ∈ nodeValues v, ObjectWith NodeShape u
  edges : ∀ u ∈ edgeValues v, ObjectWith EdgeShape u

/-! ## Defects -/

inductive Subject where
  | root
  | node (index : Nat)
  | edge (index : Nat)

def Fault.subject : Fault → Subject
  | .rootNotObject | .rootField _ | .notList _ | .notText _ => .root
  | .nodeNotObject i | .nodeField i _ | .nodeId i | .nodeType i | .unknownType i _ | .nodeData i
  | .nodePosition i | .nodeAxis i _ => .node i
  | .edgeNotObject i | .edgeField i _ | .edgeText i _ | .edgePort i _ => .edge i

/-- A message about a node or an edge starts with its place, and no other message does so. -/
def Subject.Named (message : Text) : Subject → Prop
  | .root => ∀ i, ¬nodePlace i <+: message ∧ ¬edgePlace i <+: message
  | .node i => nodePlace i <+: message
  | .edge i => edgePlace i <+: message

/-- The first element of a list that is not of some shape stands at an index. -/
def FirstOutside (shape : Value → Prop) (vs : List Value) (i : Nat) : Prop :=
  ∃ before u after, vs = before ++ u :: after ∧ before.length = i ∧ (∀ v ∈ before, shape v) ∧
    ¬shape u

/-- Where a value that is no document is defective first. -/
inductive FirstDefect (v : Value) : Subject → Prop where
  | root (h : ¬ObjectWith RootShape v) : FirstDefect v .root
  | node (i : Nat) (hroot : ObjectWith RootShape v)
      (h : FirstOutside (ObjectWith NodeShape) (nodeValues v) i) : FirstDefect v (.node i)
  | edge (i : Nat) (hroot : ObjectWith RootShape v)
      (hnodes : ∀ u ∈ nodeValues v, ObjectWith NodeShape u)
      (h : FirstOutside (ObjectWith EdgeShape) (edgeValues v) i) : FirstDefect v (.edge i)

theorem FirstDefect.not_wellFormed {v : Value} {subject : Subject} (h : FirstDefect v subject) :
    ¬WellFormed v := by
  intro hv
  cases h with
  | root h => exact h hv.root
  | node i _ h =>
    obtain ⟨before, u, after, heq, -, -, hu⟩ := h
    exact hu (hv.nodes u (by simp [heq]))
  | edge i _ _ h =>
    obtain ⟨before, u, after, heq, -, -, hu⟩ := h
    exact hu (hv.edges u (by simp [heq]))

/-! ## Results -/

/-- The port that a handle names. An empty text names none. -/
def portOf : Value → Option Text
  | .str s => if s = [] then none else some s
  | _ => none

def numberOf? : Value → Option Float
  | .int n => Decimal.ofInt? n
  | .float x => some x
  | _ => none

/-- A node that holds what its members say. -/
structure NodeOf (spec : Members) (node : Node) : Prop where
  id : spec.get "id" = .str node.id
  kind : spec.get "type" = .str node.kind.wireName
  config : ∃ data, (spec.get "data" = .null ∧ data = [] ∨ spec.get "data" = .object data) ∧
    node.config = configOf spec data
  position : spec.get "position" = .null ∧ node.position = none ∨
    ∃ (p : Members) (x y : Float), spec.get "position" = .object p ∧
      numberOf? (p.get "x") = some x ∧ numberOf? (p.get "y") = some y ∧ node.position = some (x, y)

/-- An edge that holds what its members say. -/
structure EdgeOf (spec : Members) (e : Edge) : Prop where
  id : spec.get "id" = .str e.id
  source : spec.get "source" = .str e.source
  target : spec.get "target" = .str e.target
  sourcePort : e.sourcePort = portOf (spec.get "sourceHandle")
  targetPort : e.targetPort = portOf (spec.get "targetHandle")

/-- An integer without a number near to it. -/
def Beyond (v : Value) : Prop := ∃ n, v = .int n ∧ Decimal.overflowBound ≤ n.natAbs

/-- A node that stands beyond the numbers. -/
def Far (spec : Members) : Prop :=
  ∃ p : Members, spec.get "position" = .object p ∧ (Beyond (p.get "x") ∨ Beyond (p.get "y"))

/-! ## The check of shapes -/

section Require
variable {condition : Bool} {fault fault' : Fault} {ms : Members} {fields : List Text}
  {faultOf : Text → Fault}

@[simp] theorem require_eq_ok_iff : require condition fault = .ok () ↔ condition = true := by
  cases condition <;> simp [require]

theorem require_eq_error (h : require condition fault = .error fault') : fault = fault' := by
  cases condition <;> simp_all [require]

theorem requireFields_eq_ok_iff :
    requireFields ms fields faultOf = .ok () ↔ ∀ field ∈ fields, ms.has field = true := by
  have habsent : absent? ms fields = none ↔ ∀ field ∈ fields, ms.has field = true := by
    simp [absent?, List.find?_eq_none]
  unfold requireFields
  cases h : absent? ms fields with
  | none => simpa using habsent.mp h
  | some field => simpa [h] using habsent.not

theorem requireFields_eq_error (h : requireFields ms fields faultOf = .error fault) :
    ∃ field ∈ fields, fault = faultOf field := by
  unfold requireFields at h
  cases habsent : absent? ms fields with
  | none => simp [habsent] at h
  | some field =>
    simp only [habsent, Except.error.injEq] at h
    exact ⟨field, List.mem_of_find?_eq_some habsent, h.symm⟩

end Require

section Shapes
variable {v : Value} {ms : Members} {field : Text}

theorem isText_iff : isText v = true ↔ ∃ s, v = .str s := by
  cases v <;> simp [isText]

theorem isNumber_iff : isNumber v = true ↔ IsNumber v := by
  cases v <;> simp [isNumber, IsNumber]

theorem isNull_iff : v.isNull = true ↔ v = .null := by
  cases v <;> simp [Value.isNull]

theorem isTextOrNull_iff : isTextOrNull ms field = true ↔ TextOrNull ms field := by
  simp [isTextOrNull, TextOrNull, isNull_iff, isText_iff]

theorem has_of_get {value : Value} (h : ms.get field = value) (hne : value ≠ .null) :
    ms.has field = true := Members.has_iff.mpr ⟨_, Members.get?_of_get h hne⟩

end Shapes

theorem checkPosition_eq_ok_iff {index : Nat} {v : Value} :
    checkPosition index v = .ok () ↔
      v = .null ∨ ∃ p : Members, v = .object p ∧ IsNumber (p.get "x") ∧ IsNumber (p.get "y") := by
  cases v with
  | null => simp [checkPosition]
  | object p => simp [checkPosition, check_bind_eq_ok_iff, isNumber_iff]
  | _ => simp [checkPosition]

theorem checkNode_eq_ok_iff (index : Nat) (v : Value) :
    checkNode index v = .ok () ↔ ObjectWith NodeShape v := by
  cases v with
  | object spec =>
    simp only [ObjectWith, Value.object.injEq, exists_eq_left', checkNode, check_bind_eq_ok_iff,
      requireFields_eq_ok_iff, require_eq_ok_iff]
    constructor
    · rintro ⟨-, hid, h⟩
      split at h
      next type htype =>
        simp only [check_bind_eq_ok_iff, require_eq_ok_iff, checkPosition_eq_ok_iff] at h
        obtain ⟨hkind, hdata, hposition⟩ := h
        obtain ⟨kind, hkind⟩ := Option.isSome_iff_exists.mp hkind
        obtain ⟨id, hid'⟩ := isText_iff.mp (Bool.and_eq_true_iff.mp hid).1
        refine ⟨⟨id, hid', ?_⟩, ⟨kind, ?_⟩, ?_, hposition⟩
        · rintro rfl
          simp [hid', Value.isGiven] at hid
        · rw [htype, NodeKind.ofWire?_eq_some_iff.mp hkind]
        · revert hdata
          cases Members.get spec "data" <;> simp [Value.isNull, Value.members?]
      next => cases h
    · intro hspec
      obtain ⟨id, hid, hne⟩ := hspec.id
      obtain ⟨kind, hkind⟩ := hspec.kind
      refine ⟨?_, ?_, ?_⟩
      · simp [has_of_get hid, has_of_get hkind]
      · simp [hid, isText, Value.isGiven, hne]
      · simp only [hkind, check_bind_eq_ok_iff, require_eq_ok_iff, checkPosition_eq_ok_iff,
          kind.ofWire?_wireName]
        refine ⟨rfl, ?_, hspec.position⟩
        rcases hspec.data with hdata | ⟨data, hdata⟩
        · simp [hdata, Value.isNull]
        · simp [hdata, Value.members?]
  | _ => simp [checkNode, ObjectWith]

theorem checkEdge_eq_ok_iff (index : Nat) (v : Value) :
    checkEdge index v = .ok () ↔ ObjectWith EdgeShape v := by
  cases v with
  | object spec =>
    simp only [ObjectWith, Value.object.injEq, exists_eq_left', checkEdge, check_bind_eq_ok_iff,
      requireFields_eq_ok_iff, require_eq_ok_iff, isText_iff, isTextOrNull_iff]
    constructor
    · rintro ⟨-, hid, hsource, htarget, hsourceHandle, htargetHandle⟩
      exact ⟨hid, hsource, htarget, hsourceHandle, htargetHandle⟩
    · intro hspec
      refine ⟨?_, hspec.id, hspec.source, hspec.target, hspec.sourceHandle, hspec.targetHandle⟩
      obtain ⟨⟨id, hid⟩, ⟨source, hsource⟩, ⟨target, htarget⟩, -, -⟩ := hspec
      simp [has_of_get hid, has_of_get hsource, has_of_get htarget]
  | _ => simp [checkEdge, ObjectWith]

theorem subject_of_checkPosition {index : Nat} {v : Value} {fault : Fault}
    (h : checkPosition index v = .error fault) : fault.subject = .node index := by
  cases v with
  | null => cases h
  | object p =>
    rcases bind_eq_error_iff.mp h with h | ⟨-, -, h⟩
    · exact require_eq_error h ▸ rfl
    · exact require_eq_error h ▸ rfl
  | _ =>
    cases h
    rfl

theorem subject_of_checkNode {index : Nat} {v : Value} {fault : Fault}
    (h : checkNode index v = .error fault) : fault.subject = .node index := by
  cases v with
  | object spec =>
    rcases bind_eq_error_iff.mp h with h | ⟨-, -, h⟩
    · obtain ⟨field, -, rfl⟩ := requireFields_eq_error h
      rfl
    rcases bind_eq_error_iff.mp h with h | ⟨-, -, h⟩
    · exact require_eq_error h ▸ rfl
    split at h
    next type _ =>
      rcases bind_eq_error_iff.mp h with h | ⟨-, -, h⟩
      · exact require_eq_error h ▸ rfl
      rcases bind_eq_error_iff.mp h with h | ⟨-, -, h⟩
      · exact require_eq_error h ▸ rfl
      · exact subject_of_checkPosition h
    next =>
      cases h
      rfl
  | _ =>
    cases h
    rfl

theorem subject_of_checkEdge {index : Nat} {v : Value} {fault : Fault}
    (h : checkEdge index v = .error fault) : fault.subject = .edge index := by
  cases v with
  | object spec =>
    rcases bind_eq_error_iff.mp h with h | ⟨-, -, h⟩
    · obtain ⟨field, -, rfl⟩ := requireFields_eq_error h
      rfl
    rcases bind_eq_error_iff.mp h with h | ⟨-, -, h⟩
    · exact require_eq_error h ▸ rfl
    rcases bind_eq_error_iff.mp h with h | ⟨-, -, h⟩
    · exact require_eq_error h ▸ rfl
    rcases bind_eq_error_iff.mp h with h | ⟨-, -, h⟩
    · exact require_eq_error h ▸ rfl
    rcases bind_eq_error_iff.mp h with h | ⟨-, -, h⟩
    · exact require_eq_error h ▸ rfl
    · exact require_eq_error h ▸ rfl
  | _ =>
    cases h
    rfl

section CheckAll
variable {check : Nat → Value → Except Fault Unit} {shape : Value → Prop} {index : Nat}
  {vs : List Value}

theorem checkAll_eq_ok_iff (hcheck : ∀ i v, check i v = .ok () ↔ shape v) :
    checkAll check index vs = .ok () ↔ ∀ v ∈ vs, shape v := by
  induction vs generalizing index with
  | nil => simp [checkAll]
  | cons v rest ih => rw [checkAll, check_bind_eq_ok_iff, hcheck, ih, List.forall_mem_cons]

theorem exists_of_checkAll_error (hcheck : ∀ i v, check i v = .ok () ↔ shape v) {fault : Fault}
    (h : checkAll check index vs = .error fault) :
    ∃ i u, FirstOutside shape vs i ∧ check (index + i) u = .error fault := by
  induction vs generalizing index with
  | nil => cases h
  | cons v rest ih =>
    rcases bind_eq_error_iff.mp h with hv | ⟨_, hv, hrest⟩
    · have hshape : ¬shape v := by
        rw [← hcheck index v, hv]
        simp
      exact ⟨0, v, ⟨[], v, rest, rfl, rfl, by simp, hshape⟩, hv⟩
    · obtain ⟨i, u, ⟨before, w, after, rfl, hlength, hbefore, hw⟩, hu⟩ := ih hrest
      refine ⟨i + 1, u, ⟨v :: before, w, after, rfl, by simp [hlength], ?_, hw⟩, ?_⟩
      · exact List.forall_mem_cons.mpr ⟨(hcheck index v).mp hv, hbefore⟩
      · rwa [Nat.add_comm i 1, ← Nat.add_assoc]

end CheckAll

theorem named_root {message : Text}
    (h : message.take 6 ≠ "nodes[" ∧ message.take 6 ≠ "edges[") : Subject.root.Named message := by
  have htake : ∀ place : Text, ∀ i : Nat, place.length = 6 →
      place ++ Text.ofString (toString i) ++ Text.ofString "]" <+: message →
      message.take 6 = place := by
    intro place i hlength hplace
    rw [List.append_assoc] at hplace
    rw [← hlength]
    exact (List.prefix_iff_eq_take.mp ((List.prefix_append place _).trans hplace)).symm
  exact fun i => ⟨fun hnode => h.1 (htake _ i rfl hnode), fun hedge => h.2 (htake _ i rfl hedge)⟩

theorem named_message {fault : Fault} (h : fault.subject ≠ .root) :
    fault.subject.Named fault.message := by
  cases fault <;> simp [Fault.subject] at h <;>
    simp [Fault.subject, Subject.Named, Fault.message, missing]

theorem check_of_root {v : Value} (h : ObjectWith RootShape v) :
    check v = checkAll checkNode 0 (nodeValues v) >>= fun _ =>
      checkAll checkEdge 0 (edgeValues v) := by
  obtain ⟨root, rfl, hroot⟩ := h
  obtain ⟨nodes, hnodes⟩ := hroot.nodes
  obtain ⟨edges, hedges⟩ := hroot.edges
  have hfields : requireFields root ["nodes", "edges"] Fault.rootField = .ok () :=
    requireFields_eq_ok_iff.mpr (by simp [has_of_get hnodes, has_of_get hedges])
  simp only [check, hfields, hnodes, hedges, nodeValues, edgeValues, require,
    isTextOrNull_iff.mpr hroot.id, isTextOrNull_iff.mpr hroot.name]
  rfl

theorem check_of_not_root {v : Value} (h : ¬ObjectWith RootShape v) :
    ∃ fault, check v = .error fault ∧ fault.subject = .root ∧
      Subject.root.Named fault.message := by
  cases v with
  | object root =>
    cases hfields : requireFields root ["nodes", "edges"] Fault.rootField with
    | error fault =>
      obtain ⟨field, hfield, rfl⟩ := requireFields_eq_error hfields
      refine ⟨.rootField field, by simp only [check, hfields]; rfl, rfl, named_root ?_⟩
      fin_cases hfield <;> decide
    | ok _ =>
      simp only [check, hfields]
      split
      next nodes hnodes =>
        split
        next edges hedges =>
          by_cases hid : isTextOrNull root "id" = true
          · by_cases hname : isTextOrNull root "name" = true
            · exact absurd ⟨root, rfl, ⟨nodes, hnodes⟩, ⟨edges, hedges⟩, isTextOrNull_iff.mp hid,
                isTextOrNull_iff.mp hname⟩ h
            · refine ⟨.notText "name", ?_, rfl, named_root (by decide)⟩
              simp only [require, hid, hname]
              rfl
          · refine ⟨.notText "id", ?_, rfl, named_root (by decide)⟩
            simp only [require, hid]
            rfl
        next => exact ⟨_, rfl, rfl, named_root (by decide)⟩
      next => exact ⟨_, rfl, rfl, named_root (by decide)⟩
  | _ => exact ⟨_, rfl, rfl, named_root (by decide)⟩

theorem check_eq_ok_iff {v : Value} : check v = .ok () ↔ WellFormed v := by
  by_cases hroot : ObjectWith RootShape v
  · rw [check_of_root hroot, check_bind_eq_ok_iff, checkAll_eq_ok_iff checkNode_eq_ok_iff,
      checkAll_eq_ok_iff checkEdge_eq_ok_iff]
    exact ⟨fun ⟨hnodes, hedges⟩ => ⟨hroot, hnodes, hedges⟩, fun h => ⟨h.nodes, h.edges⟩⟩
  · obtain ⟨fault, hfault, -⟩ := check_of_not_root hroot
    rw [hfault]
    exact ⟨nofun, fun h => absurd h.root hroot⟩

/-- A value is refused for its first defect. -/
theorem firstDefect_of_check {v : Value} {fault : Fault} (h : check v = .error fault) :
    FirstDefect v fault.subject ∧ fault.subject.Named fault.message := by
  by_cases hroot : ObjectWith RootShape v
  · rw [check_of_root hroot] at h
    rcases bind_eq_error_iff.mp h with hnodes | ⟨_, hnodes, hedges⟩
    · obtain ⟨i, u, hfirst, hu⟩ := exists_of_checkAll_error checkNode_eq_ok_iff hnodes
      rw [Nat.zero_add] at hu
      have hsubject := subject_of_checkNode hu
      exact ⟨hsubject ▸ .node i hroot hfirst, named_message (by simp [hsubject])⟩
    · have hshape := (checkAll_eq_ok_iff checkNode_eq_ok_iff).mp hnodes
      obtain ⟨i, u, hfirst, hu⟩ := exists_of_checkAll_error checkEdge_eq_ok_iff hedges
      rw [Nat.zero_add] at hu
      have hsubject := subject_of_checkEdge hu
      exact ⟨hsubject ▸ .edge i hroot hshape hfirst, named_message (by simp [hsubject])⟩
  · obtain ⟨fault', hfault, hsubject, hnamed⟩ := check_of_not_root hroot
    cases hfault.symm.trans h
    exact ⟨hsubject ▸ .root hroot, hsubject ▸ hnamed⟩

/-! ## Reading -/

section Access
variable {ms : Members} {field : Text} {v : Value}

theorem memberOf_of_get {value : Value} (h : ms.get field = value) (hne : value ≠ .null) :
    memberOf ms field = .ok value := by
  rw [memberOf, Members.get?_of_get h hne]

theorem memberOf_text {s : Text} (h : ms.get field = .str s) :
    (memberOf ms field >>= textOf) = .ok s := by
  rw [memberOf_of_get h (by simp)]
  rfl

theorem givenOf_text (h : v = .null ∨ ∃ s, v = .str s) : givenOf textOf v = .ok (portOf v) := by
  rcases h with rfl | ⟨s, rfl⟩
  · rfl
  · by_cases hs : s = []
    · simp [givenOf, Value.isGiven, portOf, hs]
    · simp [givenOf, Value.isGiven, portOf, hs, textOf, Except.map]

theorem numberOf_of_far (h : Beyond v) : numberOf v = .error .coordinate := by
  obtain ⟨n, rfl, hn⟩ := h
  rw [numberOf, (Decimal.ofInt?_eq_none_iff n).mpr hn]
  rfl

theorem numberOf_of_near (hv : IsNumber v) (h : ¬Beyond v) :
    ∃ x, numberOf v = .ok x ∧ numberOf? v = some x := by
  obtain ⟨n, rfl⟩ | ⟨x, rfl⟩ := hv
  · have hn : Decimal.ofInt? n ≠ none := fun hnone =>
      h ⟨n, rfl, (Decimal.ofInt?_eq_none_iff n).mp hnone⟩
    obtain ⟨x, hx⟩ := Option.ne_none_iff_exists'.mp hn
    exact ⟨x, by rw [numberOf, hx]; rfl, hx⟩
  · exact ⟨x, rfl, rfl⟩

end Access

section Nodes
variable {spec : Members}

theorem exists_givenOf_data (h : spec.get "data" = .null ∨ ∃ data, spec.get "data" = .object data) :
    ∃ data : Option Members, givenOf membersOf (spec.get "data") = .ok data ∧
      (spec.get "data" = .null ∧ data.getD [] = [] ∨ spec.get "data" = .object (data.getD [])) := by
  rcases h with h | ⟨data, h⟩
  · exact ⟨none, by rw [h]; rfl, Or.inl ⟨h, rfl⟩⟩
  · cases data with
    | nil => exact ⟨none, by rw [h]; rfl, Or.inr h⟩
    | cons m rest => exact ⟨some (m :: rest), by rw [h]; rfl, Or.inr h⟩

theorem positionOf_object {p : Members} (hx : IsNumber (p.get "x")) (hy : IsNumber (p.get "y")) :
    positionOf (.object p) = numberOf (p.get "x") >>= fun x => numberOf (p.get "y") >>= fun y =>
      .ok (some (x, y)) := by
  have hmember : ∀ axis, IsNumber (p.get axis) → memberOf p axis = .ok (p.get axis) := by
    intro axis haxis
    refine memberOf_of_get rfl fun hnull => ?_
    simp [IsNumber, hnull] at haxis
  simp only [positionOf, Value.isNull, Bool.false_eq_true, if_false, membersOf, ok_bind,
    hmember _ hx, hmember _ hy]

theorem positionOf_of_far (hspec : NodeShape spec) (h : Far spec) :
    positionOf (spec.get "position") = .error .coordinate := by
  obtain ⟨p, hp, hfar⟩ := h
  rcases hspec.position with hnull | ⟨q, hq, hx, hy⟩
  · cases hnull.symm.trans hp
  cases hq.symm.trans hp
  rw [hp, positionOf_object hx hy]
  by_cases hbx : Beyond (p.get "x")
  · rw [numberOf_of_far hbx, error_bind]
  · obtain ⟨x, hx', -⟩ := numberOf_of_near hx hbx
    rw [hx', ok_bind, numberOf_of_far (hfar.resolve_left hbx), error_bind]

theorem positionOf_of_near (hspec : NodeShape spec) (h : ¬Far spec) :
    ∃ position, positionOf (spec.get "position") = .ok position ∧
      (spec.get "position" = .null ∧ position = none ∨
        ∃ (p : Members) (x y : Float), spec.get "position" = .object p ∧
          numberOf? (p.get "x") = some x ∧ numberOf? (p.get "y") = some y ∧
          position = some (x, y)) := by
  rcases hspec.position with hnull | ⟨p, hp, hx, hy⟩
  · exact ⟨none, by rw [hnull]; rfl, Or.inl ⟨hnull, rfl⟩⟩
  · obtain ⟨x, hx', hnx⟩ := numberOf_of_near hx fun hb => h ⟨p, hp, Or.inl hb⟩
    obtain ⟨y, hy', hny⟩ := numberOf_of_near hy fun hb => h ⟨p, hp, Or.inr hb⟩
    refine ⟨some (x, y), ?_, Or.inr ⟨p, x, y, hp, hnx, hny, rfl⟩⟩
    rw [hp, positionOf_object hx hy, hx', ok_bind, hy', ok_bind]

/-- A node that stands beyond the numbers is the only one that cannot be read. -/
theorem readNode_of_far (hspec : NodeShape spec) (h : Far spec) :
    readNode (.object spec) = .error .coordinate := by
  obtain ⟨data, hdata, -⟩ := exists_givenOf_data hspec.data
  simp only [readNode, membersOf, ok_bind, hdata, positionOf_of_far hspec h, error_bind]

theorem readNode_of_near (hspec : NodeShape spec) (h : ¬Far spec) :
    ∃ node, readNode (.object spec) = .ok node ∧ NodeOf spec node := by
  obtain ⟨data, hdata, hmembers⟩ := exists_givenOf_data hspec.data
  obtain ⟨position, hposition, hnumbers⟩ := positionOf_of_near hspec h
  obtain ⟨id, hid, -⟩ := hspec.id
  obtain ⟨kind, hkind⟩ := hspec.kind
  have hread : (memberOf spec "type" >>= kindOf) = .ok kind := by
    rw [memberOf_of_get hkind (by simp), ok_bind]
    simp [kindOf, Value.str?, kind.ofWire?_wireName]
  refine ⟨⟨id, kind, configOf spec (data.getD []), position⟩, ?_, hid, hkind,
    ⟨_, hmembers, rfl⟩, hnumbers⟩
  simp only [readNode, membersOf, ok_bind, hdata, hposition, memberOf_text hid, hread]

theorem readEdge_of_shape (hspec : EdgeShape spec) :
    ∃ e, readEdge (.object spec) = .ok e ∧ EdgeOf spec e := by
  obtain ⟨id, hid⟩ := hspec.id
  obtain ⟨source, hsource⟩ := hspec.source
  obtain ⟨target, htarget⟩ := hspec.target
  refine ⟨⟨id, source, target, portOf (spec.get "sourceHandle"), portOf (spec.get "targetHandle")⟩,
    ?_, hid, hsource, htarget, rfl, rfl⟩
  simp only [readEdge, membersOf, ok_bind, memberOf_text hid, memberOf_text hsource,
    memberOf_text htarget, givenOf_text hspec.sourceHandle, givenOf_text hspec.targetHandle]

end Nodes

theorem ne_nil_of_portOf {v : Value} {s : Text} (h : portOf v = some s) : s ≠ [] := by
  cases v with
  | str t =>
    rw [portOf] at h
    split at h
    next => cases h
    next hne => exact Option.some.inj h ▸ hne
  | _ => cases h

theorem exists_nameOf {root : Members} (h : RootShape root) :
    ∃ name, nameOf root = .ok name ∧ name ≠ [] := by
  simp only [nameOf, givenOf_text h.name, givenOf_text h.id, ok_bind]
  cases hname : portOf (root.get "name") with
  | some name => exact ⟨name, rfl, ne_nil_of_portOf hname⟩
  | none =>
    refine ⟨_, rfl, ?_⟩
    cases hid : portOf (root.get "id") with
    | some id => exact ne_nil_of_portOf hid
    | none => decide

theorem read_of_wellFormed {v : Value} (h : WellFormed v) :
    ∃ name, name ≠ [] ∧ read v = (nodeValues v).mapM readNode >>= fun nodes =>
      (edgeValues v).mapM readEdge >>= fun edges =>
        .ok { graph := { nodes, edges }, name } := by
  obtain ⟨root, rfl, hroot⟩ := h.root
  obtain ⟨nodes, hnodes⟩ := hroot.nodes
  obtain ⟨edges, hedges⟩ := hroot.edges
  obtain ⟨name, hname, hne⟩ := exists_nameOf hroot
  refine ⟨name, hne, ?_⟩
  simp only [read, membersOf, nodeValues, edgeValues, hnodes, hedges, hname, ok_bind, elementsOf,
    memberOf_of_get hnodes (by simp), memberOf_of_get hedges (by simp)]

theorem read_of_far {v : Value} (h : WellFormed v) (hfar : ∃ u ∈ nodeValues v, ObjectWith Far u) :
    read v = .error .coordinate := by
  obtain ⟨name, -, hread⟩ := read_of_wellFormed h
  have hnodes : (nodeValues v).mapM readNode = .error .coordinate := by
    refine mapM_eq_error (fun u hu => ?_) ?_
    · obtain ⟨spec, rfl, hspec⟩ := h.nodes u hu
      by_cases hfar : Far spec
      · exact Or.inl (readNode_of_far hspec hfar)
      · obtain ⟨node, hnode, -⟩ := readNode_of_near hspec hfar
        exact Or.inr ⟨node, hnode⟩
    · obtain ⟨u, hu, spec, rfl, hfar⟩ := hfar
      obtain ⟨spec', heq, hspec⟩ := h.nodes _ hu
      cases heq
      exact ⟨_, hu, readNode_of_far hspec hfar⟩
  rw [hread, hnodes]
  rfl

theorem read_of_near {v : Value} (h : WellFormed v)
    (hnear : ¬∃ u ∈ nodeValues v, ObjectWith Far u) : ∃ w, read v = .ok w ∧ w.name ≠ [] ∧
      List.Forall₂ (fun u node => ObjectWith (NodeOf · node) u) (nodeValues v) w.graph.nodes ∧
      List.Forall₂ (fun u e => ObjectWith (EdgeOf · e) u) (edgeValues v) w.graph.edges := by
  obtain ⟨name, hname, hread⟩ := read_of_wellFormed h
  obtain ⟨nodes, hnodes⟩ : ∃ nodes, List.Forall₂ (fun u node => readNode u = .ok node ∧
      ObjectWith (NodeOf · node) u) (nodeValues v) nodes := by
    refine exists_forall₂ fun u hu => ?_
    obtain ⟨spec, rfl, hspec⟩ := h.nodes u hu
    obtain ⟨node, hnode, hof⟩ := readNode_of_near hspec fun hfar => hnear ⟨_, hu, spec, rfl, hfar⟩
    exact ⟨node, hnode, spec, rfl, hof⟩
  obtain ⟨edges, hedges⟩ : ∃ edges, List.Forall₂ (fun u e => readEdge u = .ok e ∧
      ObjectWith (EdgeOf · e) u) (edgeValues v) edges := by
    refine exists_forall₂ fun u hu => ?_
    obtain ⟨spec, rfl, hspec⟩ := h.edges u hu
    obtain ⟨e, he, hof⟩ := readEdge_of_shape hspec
    exact ⟨e, he, spec, rfl, hof⟩
  refine ⟨⟨⟨nodes, edges⟩, name⟩, ?_, hname, hnodes.imp fun _ _ => And.right,
    hedges.imp fun _ _ => And.right⟩
  rw [hread, mapM_eq_ok_iff.mpr (hnodes.imp fun _ _ => And.left), ok_bind,
    mapM_eq_ok_iff.mpr (hedges.imp fun _ _ => And.left), ok_bind]

/-- Loading refuses exactly the values that are no documents, each for its first defect. From a
document it makes a node and an edge for each element in order, unless a node stands beyond the
numbers. -/
theorem load_grammar (v : Value) :
    ((∃ fault, load v = .error (.shape fault)) ↔ ¬WellFormed v) ∧
    (∀ fault, load v = .error (.shape fault) →
      FirstDefect v fault.subject ∧ fault.subject.Named fault.message) ∧
    (WellFormed v → (∃ u ∈ nodeValues v, ObjectWith Far u) → load v = .error .coordinate) ∧
    (WellFormed v → (¬∃ u ∈ nodeValues v, ObjectWith Far u) → ∃ w, load v = .ok w ∧
      List.Forall₂ (fun u node => ObjectWith (NodeOf · node) u) (nodeValues v) w.graph.nodes ∧
      List.Forall₂ (fun u e => ObjectWith (EdgeOf · e) u) (edgeValues v) w.graph.edges) := by
  cases hcheck : check v with
  | error fault =>
    have hload : load v = .error (.shape fault) := by rw [load, hcheck]
    have hdefect := firstDefect_of_check hcheck
    have hv := hdefect.1.not_wellFormed
    refine ⟨iff_of_true ⟨fault, hload⟩ hv, ?_, fun h => absurd h hv, fun h => absurd h hv⟩
    intro fault' h
    cases hload.symm.trans h
    exact hdefect
  | ok _ =>
    have hv : WellFormed v := check_eq_ok_iff.mp hcheck
    have hload : load v = read v := by rw [load, hcheck]
    have hshape : ∀ fault, read v ≠ .error (.shape fault) := by
      intro fault h
      by_cases hfar : ∃ u ∈ nodeValues v, ObjectWith Far u
      · cases (read_of_far hv hfar).symm.trans h
      · obtain ⟨w, hw, -⟩ := read_of_near hv hfar
        cases hw.symm.trans h
    rw [hload]
    refine ⟨iff_of_false (not_exists.mpr hshape) (not_not_intro hv),
      fun fault h => absurd h (hshape fault), fun _ => read_of_far hv, fun _ hnear => ?_⟩
    obtain ⟨w, hw, -, hnodes, hedges⟩ := read_of_near hv hnear
    exact ⟨w, hw, hnodes, hedges⟩

/-- Two nodes with an edge, where the second node stands at an abscissa. -/
def standing (x : Value) : Value :=
  .object [
    ("nodes", .list [
      .object [("id", .str "a"), ("type", .str "input")],
      .object [("id", .str "b"), ("type", .str "output"),
        ("position", .object [("x", x), ("y", .int 0)])]]),
    ("edges", .list [
      .object [("id", .str "e"), ("source", .str "a"), ("target", .str "b"),
        ("sourceHandle", .str "")]])]

theorem wellFormed_standing {x : Value} (h : IsNumber x) : WellFormed (standing x) where
  root := ⟨_, rfl, ⟨_, rfl⟩, ⟨_, rfl⟩, Or.inl rfl, Or.inl rfl⟩
  nodes := List.forall_mem_cons.mpr ⟨
    ⟨_, rfl, ⟨_, rfl, by decide⟩, ⟨.input, rfl⟩, Or.inl rfl, Or.inl rfl⟩,
    List.forall_mem_singleton.mpr ⟨_, rfl, ⟨_, rfl, by decide⟩, ⟨.output, rfl⟩, Or.inl rfl,
      Or.inr ⟨_, rfl, h, Or.inl ⟨0, rfl⟩⟩⟩⟩
  edges := List.forall_mem_singleton.mpr
    ⟨_, rfl, ⟨_, rfl⟩, ⟨_, rfl⟩, ⟨_, rfl⟩, Or.inr ⟨_, rfl⟩, Or.inl rfl⟩

theorem far_standing_iff {x : Value} :
    (∃ u ∈ nodeValues (standing x), ObjectWith Far u) ↔ Beyond x := by
  constructor
  · rintro ⟨u, hu, spec, rfl, p, hp, hfar⟩
    rcases List.mem_pair.mp hu with h | h
    · cases h
      cases hp
    · cases h
      cases hp
      rcases hfar with hx | ⟨n, hy, hn⟩
      · exact hx
      · cases hy
        exact absurd hn (by decide +kernel)
  · intro h
    exact ⟨_, List.mem_pair.mpr (Or.inr rfl), _, rfl, _, rfl, Or.inl h⟩

/-- A truth value for an abscissa is a defect of the node, a large integer is none and yet gives no
number, and any other integer is read. -/
theorem load_grammar_standing :
    FirstDefect (standing (.bool true)) (.node 1) ∧
    load (standing (.int (2 ^ 1024))) = .error .coordinate ∧
    ∃ w, load (standing (.int 7)) = .ok w ∧ w.graph.nodes.length = 2 ∧
      w.graph.edges.length = 1 := by
  refine ⟨?_, ?_, ?_⟩
  · exact ((load_grammar _).2.1 (.nodeAxis 1 "x") rfl).1
  · exact (load_grammar _).2.2.1 (wellFormed_standing (Or.inl ⟨_, rfl⟩))
      (far_standing_iff.mpr ⟨_, rfl, by decide +kernel⟩)
  · have hnear : ¬Beyond (.int 7) := by
      rintro ⟨n, hn, h⟩
      cases hn
      revert h
      decide +kernel
    obtain ⟨w, hload, hnodes, hedges⟩ := (load_grammar (standing (.int 7))).2.2.2
      (wellFormed_standing (Or.inl ⟨_, rfl⟩)) (far_standing_iff.not.mpr hnear)
    exact ⟨w, hload, hnodes.length_eq.symm, hedges.length_eq.symm⟩

end Document

end WorkflowCompiler
