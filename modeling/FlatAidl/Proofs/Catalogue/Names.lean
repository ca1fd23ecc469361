import FlatAidl.Name.Reading
import FlatAidl.Proofs.Catalogue.Rooted
import Mathlib.Data.List.Nodup

/-!
Names in every built catalogue. No two declarations have the same name, so the look-up of a name and
the name of a place are inverse to each other. Packages come from texts.
-/

namespace FlatAidl

namespace Catalogue

variable {c : Catalogue}

theorem name?_of_get? {id : DeclId} {d : Declaration} (h : c.get? id = some d) :
    c.name? id = some d.name := by
  rw [name?, h]
  rfl

theorem lt_size_of_name? {id : DeclId} {name : QualifiedName} (h : c.name? id = some name) :
    id < c.size := by
  obtain ⟨d, hd, _⟩ := Option.map_eq_some_iff.1 h
  exact lt_size_of_get? hd

theorem name?_eq_getElem? (id : DeclId) :
    c.name? id = (c.decls.map Declaration.name)[id]? := by
  rw [name?, get?, List.getElem?_map]

theorem lookup_eq_findIdx? (n : QualifiedName) :
    c.lookup n = (c.decls.map Declaration.name).findIdx? fun m => decide (m = n) := by
  rw [lookup, List.findIdx?_map]
  rfl

/-! ### Names after further operations -/

theorem name?_update {id : DeclId} {d d' : Declaration} (hd : c.get? id = some d)
    (hsame : d'.name = d.name) (k : DeclId) :
    (c.update id fun _ => d').name? k = c.name? k := by
  rw [name?, get?_update]
  by_cases hk : id = k
  · subst hk
    rw [if_pos rfl, name?, hd]
    exact congrArg some hsame
  · rw [if_neg hk, name?]

theorem name?_append {name : QualifiedName} {parent : Option DeclId} {body : Body}
    (hp : ∀ p, parent = some p → p < c.size) (k : DeclId) :
    (c.append name parent body).name? k = if k = c.size then some name else c.name? k := by
  by_cases hk : k = c.size
  · rw [if_pos hk, name?, hk, get?_append_size c name body hp]
    rfl
  · rw [if_neg hk, name?, get?_append_of_ne c name parent body hk, name?]
    split
    · cases c.get? k with
      | none => rfl
      | some d => rfl
    · rfl

theorem Change.name_eq {id : DeclId} {d d' : Declaration} (h : Change c id d d') :
    d'.name = d.name := by
  cases h <;> rfl

theorem Step.keeps_name {c' : Catalogue} (h : Step c c') {id : DeclId} {name : QualifiedName}
    (hname : c.name? id = some name) : c'.name? id = some name := by
  cases h with
  | append _ _ _ nesting =>
    rw [name?_append (parent_lt_of_checkNesting nesting),
      if_neg (Nat.ne_of_lt (lt_size_of_name? hname))]
    exact hname
  | revise found change =>
    rw [name?_update found change.name_eq]
    exact hname

theorem name?_build_append {ops : List Operation} (more : List Operation) {id : DeclId}
    {name : QualifiedName} (h : (build ops).name? id = some name) :
    (build (ops ++ more)).name? id = some name := by
  induction more using List.reverseRecOn with
  | nil => rwa [List.append_nil]
  | append_singleton more op ih =>
    rw [← List.append_assoc, build, List.foldl_concat]
    change (op.perform (build (ops ++ more))).name? id = some name
    rw [Operation.perform]
    split
    · next after hafter => exact (Operation.apply_step hafter).keeps_name ih
    · exact ih

/-! ### The invariant -/

/-- No two places have the same name. -/
def DistinctNames (c : Catalogue) : Prop :=
  ∀ i j name, c.name? i = some name → c.name? j = some name → i = j

theorem distinctNames_initial : DistinctNames initial := by
  intro i j name hi hj
  have hi' : i = 0 := Nat.lt_one_iff.1 (lt_size_of_name? hi)
  have hj' : j = 0 := Nat.lt_one_iff.1 (lt_size_of_name? hj)
  rw [hi', hj']

theorem lookup_eq_none_iff {name : QualifiedName} :
    c.lookup name = none ↔ ∀ id, c.name? id ≠ some name := by
  rw [lookup, List.findIdx?_eq_none_iff]
  constructor
  · intro h id hid
    obtain ⟨d, hd, rfl⟩ := Option.map_eq_some_iff.1 hid
    simpa using h d (List.mem_of_getElem? hd)
  · intro h d hd
    obtain ⟨id, hid⟩ := List.mem_iff_getElem?.1 hd
    simpa using fun heq => h id ((name?_of_get? hid).trans (congrArg some heq))

theorem DistinctNames.step {c' : Catalogue} (hc : DistinctNames c) (h : Step c c') :
    DistinctNames c' := by
  intro i j name hi hj
  cases h with
  | @append new parent body _ _ fresh nesting =>
    rw [name?_append (parent_lt_of_checkNesting nesting)] at hi hj
    have hnew : ∀ k, c.name? k ≠ some new := lookup_eq_none_iff.1 fresh
    by_cases his : i = c.size
    · by_cases hjs : j = c.size
      · rw [his, hjs]
      · rw [if_pos his] at hi
        rw [if_neg hjs, ← hi] at hj
        exact absurd hj (hnew j)
    · rw [if_neg his] at hi
      by_cases hjs : j = c.size
      · rw [if_pos hjs, ← hi] at hj
        exact absurd hj.symm (hnew i)
      · rw [if_neg hjs] at hj
        exact hc i j name hi hj
  | revise found change =>
    rw [name?_update found change.name_eq] at hi hj
    exact hc i j name hi hj

theorem Built.distinctNames {allowed : Catalogue → Operation → Prop} (h : Built allowed c) :
    DistinctNames c :=
  h.induction distinctNames_initial fun _ _ hc hs => hc.step hs

theorem name?_of_lookup {name : QualifiedName} {id : DeclId} (h : c.lookup name = some id) :
    c.name? id = some name := by
  obtain ⟨hlt, hname, _⟩ := List.findIdx?_eq_some_iff_getElem.1 h
  have hd : c.get? id = some c.decls[id] := List.getElem?_eq_getElem hlt
  rw [name?_of_get? hd]
  exact congrArg some (of_decide_eq_true hname)

theorem DistinctNames.lookup_eq_some_iff (hc : DistinctNames c) {name : QualifiedName}
    {id : DeclId} : c.lookup name = some id ↔ c.name? id = some name := by
  constructor
  · exact name?_of_lookup
  · intro h
    cases hl : c.lookup name with
    | none => exact absurd h (lookup_eq_none_iff.1 hl id)
    | some k => rw [hc k id name (name?_of_lookup hl) h]

/-! ### Packages -/

/-- Whether the package and the version of every declared name were read from a text. Names that are
read are so, and those made of them by going outwards and by nesting. -/
def PackagesRead (c : Catalogue) : Prop :=
  ∀ id n, c.name? id = some n → ∃ t, QualifiedName.read t = .ok n.packageOnly

end Catalogue

end FlatAidl
