import FlatAidl.Catalogue.Inheritance
import FlatAidl.Package.Resolution
import FlatAidl.Proofs.Catalogue.Rooted

/-!
References to types. A sound reference has no raw pointer at its leaf and leads to a declaration of
its catalogue, so it has an AIDL form. Every type text that is resolved gives a sound reference, and
in a catalogue all of whose operations bring sound references only, each reference is sound.
-/

namespace FlatAidl

namespace TypeRef

/-- Whether the leaf of a type is a built-in type other than the raw pointer, or a declaration. -/
def Sound (c : Catalogue) : TypeRef → Prop
  | primitive kind => kind ≠ .pointer
  | vector element => element.Sound c
  | named id => id < c.size

theorem Sound.mono {c c' : Catalogue} (hsize : c.size ≤ c'.size) {t : TypeRef} (h : t.Sound c) :
    t.Sound c' := by
  induction t with
  | primitive kind => exact h
  | vector element ih => exact ih h
  | named id => exact Nat.lt_of_lt_of_le h hsize

theorem Sound.lt_size {c : Catalogue} {t : TypeRef} (h : t.Sound c) {id : DeclId}
    (hid : id ∈ t.namedTypes) : id < c.size := by
  induction t with
  | primitive kind => cases hid
  | vector element ih => exact ih h hid
  | named k =>
    obtain rfl : id = k := List.mem_singleton.1 hid
    exact h

end TypeRef

namespace Primitive

theorem exists_aidl? {kind : Primitive} (h : kind ≠ .pointer) : ∃ name, kind.aidl? = some name := by
  cases kind with
  | pointer => exact absurd rfl h
  | _ => exact ⟨_, rfl⟩

end Primitive

namespace Catalogue

variable {c : Catalogue}

theorem exists_aidlName {id : DeclId} (h : id < c.size) : ∃ name, c.aidlName id = .ok name := by
  obtain ⟨d, hd⟩ := exists_get? h
  exact ⟨d.name.aidl, Outcome.map_eq_ok.2 ⟨d, fetch_eq_ok.2 hd, rfl⟩⟩

theorem exists_aidlType {t : TypeRef} (h : t.Sound c) : ∃ name, c.aidlType t = .ok name := by
  induction t with
  | primitive kind =>
    obtain ⟨name, hname⟩ := Primitive.exists_aidl? h
    exact ⟨name, by rw [aidlType, hname]⟩
  | vector element ih =>
    obtain ⟨name, hname⟩ := ih h
    exact ⟨name ++ Text.ofString "[]", by rw [aidlType, hname]; rfl⟩
  | named id => exact exists_aidlName h

/-! ### Resolution -/

theorem lt_size_of_lookup {name : QualifiedName} {id : DeclId} (h : c.lookup name = some id) :
    id < c.size :=
  (List.findIdx?_eq_some_iff_getElem.1 h).1

theorem lt_size_of_resolveName {path : Path} {scope : QualifiedName} {name : Text} {id : DeclId}
    (h : c.resolveName path scope name = .ok id) : id < c.size := by
  unfold resolveName at h
  split at h
  · split at h
    · cases h
    · next full _ =>
      cases hl : c.lookup full with
      | none => simp [hl] at h
      | some k =>
        simp only [hl, Except.ok.injEq] at h
        rw [← h]
        exact lt_size_of_lookup hl
  · cases hs : c.searchOutward scope name with
    | none => simp [hs] at h
    | some k =>
      simp only [hs, Except.ok.injEq] at h
      obtain ⟨enclosing, _, hl⟩ := List.exists_of_findSome?_eq_some hs
      rw [← h]
      exact lt_size_of_lookup hl

theorem sound_of_resolveLeaf {path : Path} {scope : QualifiedName} {t : Text} {type : TypeRef}
    (h : c.resolveLeaf path scope t = .ok type) : type.Sound c := by
  unfold resolveLeaf at h
  split at h
  · cases h
  · next kind hne _ =>
    cases h
    exact fun heq => hne heq
  · obtain ⟨id, hid, rfl⟩ := Outcome.map_eq_ok.1 h
    exact lt_size_of_resolveName hid

/-- A resolved type text gives a sound reference, below any number of vectors. -/
theorem sound_of_resolveType {path : Path} {scope : QualifiedName} {t : Text} {type : TypeRef}
    (h : c.resolveType path scope t = .ok type) : type.Sound c := by
  fun_induction resolveType c path scope t generalizing type with
  | case1 t element _ ih =>
    obtain ⟨inner, hinner, rfl⟩ := Outcome.map_eq_ok.1 h
    have hsound : inner.Sound c := ih hinner
    exact hsound
  | case2 t _ => exact sound_of_resolveLeaf h

/-! ### The references of a catalogue -/

/-- An operation brings sound references only. -/
def Resolved (c : Catalogue) (op : Operation) : Prop :=
  ∀ t ∈ op.references, t.Sound c

theorem resolved_of_nil {op : Operation} (h : op.references = []) : Resolved c op := by
  intro t ht
  rw [h] at ht
  cases ht

/-- All references of a catalogue's declarations are sound. -/
def SoundReferences (c : Catalogue) : Prop :=
  ∀ id d, c.get? id = some d → ∀ t ∈ d.body.references, t.Sound c

theorem SoundReferences.append (hs : SoundReferences c) {name : QualifiedName}
    {parent : Option DeclId} {body : Body} (fresh : body.references = [])
    (hp : ∀ p, parent = some p → p < c.size) : SoundReferences (c.append name parent body) := by
  intro k d hd t ht
  have hmono : c.size ≤ (c.append name parent body).size := by
    rw [size_append]
    exact Nat.le_succ _
  by_cases hk : k = c.size
  · rw [hk, get?_append_size c name body hp] at hd
    cases hd
    rw [fresh] at ht
    cases ht
  · rw [get?_append_of_ne c name parent body hk] at hd
    by_cases hparent : parent = some k
    · rw [if_pos hparent] at hd
      obtain ⟨e, he, rfl⟩ := Option.map_eq_some_iff.1 hd
      exact (hs k e he t ht).mono hmono
    · rw [if_neg hparent] at hd
      exact (hs k d hd t ht).mono hmono

theorem SoundReferences.update (hs : SoundReferences c) {id : DeclId} {d' : Declaration}
    (hd' : ∀ t ∈ d'.body.references, t.Sound c) : SoundReferences (c.update id fun _ => d') := by
  intro k e he t ht
  have hsame : (c.update id fun _ => d').size = c.size := size_update ..
  rw [get?_update] at he
  by_cases hk : id = k
  · rw [if_pos hk] at he
    obtain ⟨_, _, rfl⟩ := Option.map_eq_some_iff.1 he
    exact (hd' t ht).mono (Nat.le_of_eq hsame.symm)
  · rw [if_neg hk] at he
    exact (hs k e he t ht).mono (Nat.le_of_eq hsame.symm)

theorem SoundReferences.apply {c' : Catalogue} {op : Operation} (hs : SoundReferences c)
    (hr : Resolved c op) (h : op.apply c = .ok c') : SoundReferences c' := by
  cases op with
  | declareInterface name parent =>
    obtain ⟨_, _, hnesting, rfl⟩ := declare_eq_ok h
    exact hs.append rfl (parent_lt_of_checkNesting hnesting)
  | declareCompound kind name parent =>
    obtain ⟨_, _, hnesting, rfl⟩ := declare_eq_ok h
    exact hs.append rfl (parent_lt_of_checkNesting hnesting)
  | setDoc id doc =>
    obtain ⟨d, hd, rfl⟩ := Outcome.map_eq_ok.1 h
    have hget := target_eq_ok.1 hd
    rw [setDoc, update_eq_of_get? _ hget]
    exact hs.update (hs id d hget)
  | setSuper id super =>
    obtain ⟨_, _, h⟩ := setSuper_eq_ok h
    obtain ⟨d, members, hget, hbody, _, rfl⟩ := updateInterface_eq_ok h
    refine hs.update fun t ht => hs id d hget t ?_
    rw [hbody]
    exact ht
  | addMethod id method =>
    obtain ⟨d, members, hget, hbody, _, rfl⟩ := updateInterface_eq_ok h
    refine hs.update fun t ht => ?_
    rw [Body.references, List.flatMap_append, List.mem_append] at ht
    rcases ht with ht | ht
    · refine hs id d hget t ?_
      rw [hbody]
      exact ht
    · rw [List.flatMap_singleton] at ht
      exact hr t ht
  | addField id field =>
    obtain ⟨d, members, hget, hbody, rfl⟩ := addField_eq_ok h
    refine hs.update fun t ht => ?_
    rw [Body.references, List.map_append, List.mem_append] at ht
    rcases ht with ht | ht
    · refine hs id d hget t ?_
      rw [hbody]
      exact ht
    · exact hr t ht

theorem Built.soundReferences (h : Built Resolved c) : SoundReferences c := by
  induction h with
  | initial =>
    intro id d hd t ht
    obtain rfl : id = 0 := Nat.lt_one_iff.1 (lt_size_of_get? hd)
    cases hd
    cases ht
  | step _ permit granted ih => exact ih.apply permit granted

end Catalogue

end FlatAidl
