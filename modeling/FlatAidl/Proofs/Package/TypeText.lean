import FlatAidl.Proofs.Catalogue.Chain
import FlatAidl.Proofs.Catalogue.Names
import FlatAidl.Proofs.Package.References
import FlatAidl.Proofs.Text.Cuts
import FlatAidl.Proofs.Text.Trimming
import Mathlib.Logic.Function.Iterate

/-!
Type texts and the depth of their vectors. Every text is in one way an element's text inside a number
of `vec<` and `>`, with blanks around each level, and it refers to as many vectors around what the
element's text refers to; AIDL writes a pair of brackets for each.
-/

namespace FlatAidl

namespace Primitive

theorem read?_eq_none_iff {t : Text} : read? t = none ↔ ∀ kind, t ≠ hidl kind := by
  have hall : ∀ kind : Primitive, kind ∈ all := by
    intro kind
    cases kind <;> decide
  rw [read?, List.find?_eq_none]
  constructor
  · intro h kind heq
    exact h kind (hall kind) (beq_iff_eq.2 heq.symm)
  · intro h kind _ heq
    exact h kind (beq_iff_eq.1 heq).symm

end Primitive

namespace Catalogue

open Text

def vectorText (element : Text) : Text :=
  ofString "vec<" ++ element ++ ['>']

theorem vectorElement?_eq_some_iff {t element : Text} :
    vectorElement? t = some element ↔ t = vectorText element := by
  rw [vectorElement?, vectorText]
  constructor
  · intro h
    obtain ⟨rest, hlead, htail⟩ := Option.bind_eq_some_iff.1 h
    rw [dropLead?_eq_some hlead, dropTail?_eq_some htail, List.append_assoc]
  · rintro rfl
    rw [List.append_assoc, dropLead?_append, Option.bind_some, dropTail?_append]

theorem trim_vectorText (element : Text) : trim (vectorText element) = vectorText element := by
  have hstart : trimStart (vectorText element) = vectorText element := if_neg (by decide)
  rw [trim, hstart, vectorText]
  exact trimEnd_append (by decide) (List.cons_ne_nil _ _)

variable {c : Catalogue} {path : Path} {scope : QualifiedName}

theorem resolveType_of_vector {t element : Text} (h : trim t = vectorText element) :
    c.resolveType path scope t = (c.resolveType path scope element).map .vector := by
  have helement := vectorElement?_eq_some_iff.2 h
  rw [resolveType]
  split
  · next other hother =>
    rw [helement] at hother
    cases hother
    rfl
  · next hnone =>
    rw [helement] at hnone
    cases hnone

theorem resolveType_of_leaf {t : Text} (h : ∀ element, trim t ≠ vectorText element) :
    c.resolveType path scope t = c.resolveLeaf path scope (trim t) := by
  rw [resolveType]
  split
  · next element helement => exact absurd (vectorElement?_eq_some_iff.1 helement) (h element)
  · rfl

theorem resolveType_surrounded {front back : Text} (hfront : ∀ c ∈ front, isBlank c = true)
    (hback : ∀ c ∈ back, isBlank c = true) (t : Text) :
    c.resolveType path scope (front ++ t ++ back) = c.resolveType path scope t := by
  have htrim := trim_surrounded hfront hback t
  by_cases h : ∃ element, trim t = vectorText element
  · obtain ⟨element, helement⟩ := h
    rw [resolveType_of_vector helement, resolveType_of_vector (htrim.trans helement)]
  · rw [not_exists] at h
    rw [resolveType_of_leaf h, resolveType_of_leaf (by rw [htrim]; exact h), htrim]

/-- The text of a number of vectors around an element's text, with any blanks around each level. -/
inductive VectorText (t : Text) : Nat → Text → Prop
  | element {front back : Text} (hfront : ∀ c ∈ front, isBlank c = true)
      (hback : ∀ c ∈ back, isBlank c = true) : VectorText t 0 (front ++ t ++ back)
  | vector {n : Nat} {w front back : Text} (inner : VectorText t n w)
      (hfront : ∀ c ∈ front, isBlank c = true) (hback : ∀ c ∈ back, isBlank c = true) :
      VectorText t (n + 1) (front ++ vectorText w ++ back)

theorem resolveType_of_vectorText {n : Nat} {t w : Text} (h : VectorText t n w) :
    c.resolveType path scope w = (c.resolveType path scope t).map TypeRef.vector^[n] := by
  induction h with
  | element hfront hback =>
    rw [resolveType_surrounded hfront hback]
    cases c.resolveType path scope t with
    | error e => rfl
    | ok type => rfl
  | @vector n w _ _ _ hfront hback ih =>
    rw [resolveType_surrounded hfront hback, resolveType_of_vector (trim_vectorText w), ih]
    cases c.resolveType path scope t with
    | error e => rfl
    | ok type =>
      rw [Function.iterate_succ']
      rfl

/-- Every text has an innermost element's text. -/
theorem exists_vectorText (w : Text) :
    ∃ n t, VectorText t n w ∧ ∀ element, trim t ≠ vectorText element := by
  induction hlength : w.length using Nat.strong_induction_on generalizing w with
  | _ length ih =>
    subst hlength
    obtain ⟨front, back, hw, hfront, hback⟩ := exists_surrounded w
    by_cases h : ∃ element, trim w = vectorText element
    · obtain ⟨element, helement⟩ := h
      have hshort : element.length < w.length :=
        vectorElement?_length (vectorElement?_eq_some_iff.2 helement)
      obtain ⟨n, t, htext, ht⟩ := ih element.length hshort element rfl
      rw [helement] at hw
      exact ⟨n + 1, t, hw ▸ htext.vector hfront hback, ht⟩
    · rw [not_exists] at h
      have hbare : ∀ c ∈ ([] : Text), isBlank c = true := fun c hc => absurd hc List.not_mem_nil
      have htext : VectorText w 0 w := by
        simpa using VectorText.element (t := w) hbare hbare
      exact ⟨0, w, htext, h⟩

/-! ### Names of resolved types -/

/-- The AIDL name of a type that is no vector: a built-in one with a counterpart, or a declaration. -/
inductive LeafName (c : Catalogue) : TypeRef → Text → Prop
  | primitive {kind : Primitive} {name : Text} (usable : kind ≠ .pointer)
      (counterpart : kind.aidl? = some name) : LeafName c (.primitive kind) name
  | named {id : DeclId} {name : QualifiedName} (declared : c.name? id = some name) :
      LeafName c (.named id) name.aidl

theorem exists_leafName {t : Text} {leaf : TypeRef}
    (h : c.resolveLeaf path scope t = .ok leaf) : ∃ name, c.LeafName leaf name := by
  unfold resolveLeaf at h
  split at h
  · cases h
  · next kind hne _ =>
    cases h
    have husable : kind ≠ .pointer := fun heq => hne heq
    obtain ⟨name, hname⟩ := Primitive.exists_aidl? husable
    exact ⟨name, .primitive husable hname⟩
  · obtain ⟨id, hid, rfl⟩ := Outcome.map_eq_ok.1 h
    obtain ⟨d, hd⟩ := exists_get? (lt_size_of_resolveName hid)
    exact ⟨d.name.aidl, .named (name?_of_get? hd)⟩

theorem LeafName.aidlType_eq {ast : Catalogue} {leaf : TypeRef} {name : Text}
    (h : c.LeafName leaf name)
    (hkeep : ∀ id name, c.name? id = some name → ast.name? id = some name) :
    ast.aidlType leaf = .ok name := by
  cases h with
  | primitive _ counterpart => rw [aidlType, counterpart]
  | named declared =>
    obtain ⟨d, hd, hname⟩ := Option.map_eq_some_iff.1 (hkeep _ _ declared)
    rw [aidlType, aidlName, fetch_eq_ok.2 hd, ← hname]
    rfl

theorem aidlType_vectors {leaf : TypeRef} {name : Text} (h : c.aidlType leaf = .ok name) (n : Nat) :
    c.aidlType (TypeRef.vector^[n] leaf) =
      .ok (name ++ (List.replicate n (ofString "[]")).flatten) := by
  induction n with
  | zero => simpa using h
  | succ n ih =>
    rw [Function.iterate_succ_apply', aidlType, ih, List.replicate_succ', List.flatten_append]
    simp [Except.map]

/-- In every state of building, a text of vectors is resolved as its innermost element's text is, with
as many vectors around the result; what is refused there is refused here for the same cause. Every
text has such an element's text, which is of no vector's form itself, and what that gives is a
built-in type other than the raw pointer or a declaration. In a catalogue that is finished then or
after further operations, AIDL writes its name and a pair of brackets for each vector. -/
theorem build_resolves_vectors (ops : List Operation) (path : Path) (scope : QualifiedName) :
    (∀ n t w, VectorText t n w → (build ops).resolveType path scope w =
      ((build ops).resolveType path scope t).map TypeRef.vector^[n]) ∧
    ∀ w, ∃ n t, VectorText t n w ∧ (∀ element, trim t ≠ ofString "vec<" ++ element ++ ['>']) ∧
      ∀ type, (build ops).resolveType path scope w = .ok type →
        ∃ leaf name, (build ops).resolveType path scope t = .ok leaf ∧
          type = TypeRef.vector^[n] leaf ∧ (build ops).LeafName leaf name ∧
          ∀ more ast, (build (ops ++ more)).finish = .ok ast →
            ast.aidlType type = .ok (name ++ (List.replicate n (ofString "[]")).flatten) := by
  refine ⟨fun n t w h => resolveType_of_vectorText h, fun w => ?_⟩
  obtain ⟨n, t, htext, ht⟩ := exists_vectorText w
  refine ⟨n, t, htext, ht, fun type htype => ?_⟩
  rw [resolveType_of_vectorText htext] at htype
  obtain ⟨leaf, hleaf, rfl⟩ := Outcome.map_eq_ok.1 htype
  have hresolved := hleaf
  rw [resolveType_of_leaf ht] at hresolved
  obtain ⟨name, hname⟩ := exists_leafName hresolved
  refine ⟨leaf, name, hleaf, rfl, hname, fun more ast hfinish => ?_⟩
  obtain ⟨rfl, _⟩ := finish_eq_ok_iff.1 hfinish
  exact aidlType_vectors (hname.aidlType_eq fun _ _ => name?_build_append more) n

def crateName : QualifiedName :=
  ⟨ofString "hw.crate", ⟨1, 0⟩, [ofString "ICrate"]⟩

/-- A crate with a lid nested in it. -/
def crateOps : List Operation :=
  [.declareInterface crateName none,
    .declareCompound .struct { crateName with names := [ofString "ICrate", ofString "Lid"] } (some 1)]

/-- Lids are found at any depth, with blanks around the levels; a raw pointer is refused at any. -/
theorem crateOps_resolve_vectors :
    (build crateOps).resolveType [] crateName (ofString " vec< vec<Lid> >") =
        .ok (.vector (.vector (.named 2))) ∧
      (build crateOps).resolveType [] crateName (ofString "vec<pointer>") =
        .error (.unsupportedType [] (ofString "pointer")) ∧
      ∃ ast name, (build crateOps).finish = .ok ast ∧ name = ofString "hw.crate.ICrateLid" ∧
        ast.aidlType (.vector (.vector (.named 2))) = .ok (name ++ ofString "[][]") := by
  obtain ⟨hvectors, _⟩ := build_resolves_vectors crateOps [] crateName
  have hblank : ∀ x ∈ [' '], isBlank x = true := List.forall_mem_singleton.2 rfl
  have hnone : ∀ x ∈ ([] : Text), isBlank x = true := fun x hx => absurd hx List.not_mem_nil
  have hleaf : ∀ t, vectorElement? (trim t) = none → ∀ element, trim t ≠ vectorText element := by
    intro t hread element helement
    rw [vectorElement?_eq_some_iff.2 helement] at hread
    cases hread
  have hlid : VectorText (ofString "Lid") 2 (ofString " vec< vec<Lid> >") :=
    .vector (w := ofString " vec<Lid> ") (.vector (.element hnone hnone) hblank hblank) hblank hnone
  have hpointer : VectorText (ofString "pointer") 1 (ofString "vec<pointer>") :=
    .vector (.element hnone hnone) hnone hnone
  refine ⟨?_, ?_, build crateOps, ofString "hw.crate.ICrateLid", by decide, rfl, by decide⟩
  · rw [hvectors 2 _ _ hlid, resolveType_of_leaf (hleaf _ (by decide))]
    decide
  · rw [hvectors 1 _ _ hpointer, resolveType_of_leaf (hleaf _ (by decide))]
    decide

end Catalogue

end FlatAidl
