import FlatAidl.Catalogue.Building
import Mathlib.Data.List.Basic

/-!
What stands at which place of a catalogue after each of its two changes: a declaration that is
replaced in place, and one that is added at the end and listed in the one around it. All later
proofs read a changed catalogue through these equations.
-/

namespace FlatAidl

namespace Catalogue

/-! ### Places -/

theorem lt_size_of_get? {c : Catalogue} {id : DeclId} {d : Declaration}
    (h : c.get? id = some d) : id < c.size :=
  (List.getElem?_eq_some_iff.1 h).1

theorem exists_get? {c : Catalogue} {id : DeclId} (h : id < c.size) :
    ∃ d, c.get? id = some d :=
  ⟨c.decls[id], List.getElem?_eq_getElem h⟩

theorem get?_eq_none {c : Catalogue} {id : DeclId} (h : c.size ≤ id) : c.get? id = none :=
  List.getElem?_eq_none h

theorem target_eq_ok {c : Catalogue} {id : DeclId} {d : Declaration} :
    c.target id = .ok d ↔ c.get? id = some d := by
  unfold target
  cases c.get? id with
  | none => simp
  | some e => simp

theorem fetch_eq_ok {c : Catalogue} {id : DeclId} {d : Declaration} :
    c.fetch id = .ok d ↔ c.get? id = some d := by
  unfold fetch
  cases c.get? id with
  | none => simp
  | some e => simp

/-! ### Replacement -/

@[simp] theorem size_update (c : Catalogue) (id : DeclId) (f : Declaration → Declaration) :
    (c.update id f).size = c.size := by
  simp only [size, update, List.length_modify]

theorem get?_update (c : Catalogue) (id k : DeclId) (f : Declaration → Declaration) :
    (c.update id f).get? k = if id = k then (c.get? k).map f else c.get? k := by
  simp only [get?, update, List.getElem?_modify]
  by_cases h : id = k
  · simp [h]
  · simp [h]

/-- A declaration that is replaced by a function of it may as well be replaced by the value. -/
theorem update_eq_of_get? {c : Catalogue} {id : DeclId} {d : Declaration}
    (f : Declaration → Declaration) (h : c.get? id = some d) :
    c.update id f = c.update id fun _ => f d := by
  have hlist : c.decls.modify id f = c.decls.modify id fun _ => f d := by
    apply List.ext_getElem?
    intro k
    have hd : c.decls[id]? = some d := h
    by_cases hk : id = k
    · subst hk
      simp [hd]
    · simp [hk]
  simp only [update, hlist]

/-! ### Addition -/

@[simp] theorem size_push (c : Catalogue) (d : Declaration) : (c.push d).size = c.size + 1 := by
  simp only [size, push, List.length_append, List.length_singleton]

theorem get?_push (c : Catalogue) (d : Declaration) (k : DeclId) :
    (c.push d).get? k = if k = c.size then some d else c.get? k := by
  show (c.decls ++ [d])[k]? = if k = c.decls.length then some d else c.decls[k]?
  rcases Nat.lt_trichotomy k c.decls.length with hlt | heq | hgt
  · rw [List.getElem?_append_left hlt, if_neg (Nat.ne_of_lt hlt)]
  · rw [if_pos heq, heq, List.getElem?_append_right (Nat.le_refl _)]
    simp
  · have hlong : (c.decls ++ [d]).length ≤ k := by
      simp only [List.length_append, List.length_singleton]
      omega
    rw [List.getElem?_eq_none hlong, if_neg (Nat.ne_of_gt hgt),
      List.getElem?_eq_none (Nat.le_of_lt hgt)]

@[simp] theorem size_append (c : Catalogue) (name : QualifiedName) (parent : Option DeclId)
    (body : Body) : (c.append name parent body).size = c.size + 1 := by
  cases parent with
  | none => simp [append]
  | some p => simp [append]

theorem get?_append_size (c : Catalogue) (name : QualifiedName) {parent : Option DeclId}
    (body : Body) (hp : ∀ p, parent = some p → p < c.size) :
    (c.append name parent body).get? c.size = some ⟨name, none, body, [], parent⟩ := by
  cases parent with
  | none => simp [append, get?_push]
  | some p =>
    have hne : p ≠ c.size := Nat.ne_of_lt (hp p rfl)
    simp [append, get?_update, get?_push, hne]

/-- An addition changes no other declaration than the one around it, which lists it at its end. -/
theorem get?_append_of_ne (c : Catalogue) (name : QualifiedName) (parent : Option DeclId)
    (body : Body) {k : DeclId} (hk : k ≠ c.size) :
    (c.append name parent body).get? k =
      if parent = some k then
        (c.get? k).map fun d => { d with nested := d.nested ++ [c.size] }
      else c.get? k := by
  cases parent with
  | none => simp [append, get?_push, hk]
  | some p =>
    by_cases hpk : p = k
    · simp [append, get?_update, get?_push, hk, hpk]
    · simp [append, get?_update, get?_push, hk, hpk]

end Catalogue

end FlatAidl
