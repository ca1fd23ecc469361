import FlatAidl.Emission.Basic
import FlatAidl.Proofs.Catalogue.Rooted
import Mathlib.Logic.Relation

/-!
Nesting in every built catalogue. A declaration lists exactly those that name it as the one around
them, in the order of their places, and stands in front of them. So nesting ends, and the order of
emission, which gives up below a depth, reaches everything nested in a declaration.
-/

namespace FlatAidl

namespace Catalogue

variable {c : Catalogue}

/-- The declarations nested directly in the one at a place. -/
def nestedIn (c : Catalogue) (id : DeclId) : List DeclId :=
  match c.get? id with
  | some d => d.nested
  | none => []

theorem nestedIn_of_get? {id : DeclId} {d : Declaration} (h : c.get? id = some d) :
    c.nestedIn id = d.nested := by
  simp only [nestedIn, h]

theorem lt_size_of_parent? {id p : DeclId} (h : c.parent? id = some p) : id < c.size := by
  obtain ⟨d, hd, _⟩ := Option.bind_eq_some_iff.1 h
  exact lt_size_of_get? hd

/-! ### Nesting after one operation -/

theorem parent?_append {name : QualifiedName} {parent : Option DeclId} {body : Body}
    (hp : ∀ p, parent = some p → p < c.size) (k : DeclId) :
    (c.append name parent body).parent? k = if k = c.size then parent else c.parent? k := by
  by_cases hk : k = c.size
  · rw [if_pos hk, parent?, hk, get?_append_size c name body hp]
    rfl
  · rw [if_neg hk, parent?, get?_append_of_ne c name parent body hk, parent?]
    split
    · cases c.get? k with
      | none => rfl
      | some d => rfl
    · rfl

theorem nestedIn_append {name : QualifiedName} {parent : Option DeclId} {body : Body}
    (hp : ∀ p, parent = some p → p < c.size) (k : DeclId) :
    (c.append name parent body).nestedIn k =
      if parent = some k then c.nestedIn k ++ [c.size] else c.nestedIn k := by
  by_cases hk : k = c.size
  · have hne : parent ≠ some k := by
      intro heq
      exact Nat.ne_of_lt (hp k heq) hk
    rw [if_neg hne, hk, nestedIn_of_get? (get?_append_size c name body hp), nestedIn,
      get?_eq_none (Nat.le_refl _)]
  · by_cases hparent : parent = some k
    · obtain ⟨d, hd⟩ := exists_get? (hp k hparent)
      have hget : (c.append name parent body).get? k =
          some { d with nested := d.nested ++ [c.size] } := by
        rw [get?_append_of_ne c name parent body hk, if_pos hparent, hd]
        rfl
      rw [if_pos hparent, nestedIn_of_get? hget, nestedIn_of_get? hd]
    · rw [if_neg hparent, nestedIn, get?_append_of_ne c name parent body hk, if_neg hparent,
        nestedIn]

theorem parent?_update {id : DeclId} {d d' : Declaration} (hd : c.get? id = some d)
    (hsame : d'.parent = d.parent) (k : DeclId) :
    (c.update id fun _ => d').parent? k = c.parent? k := by
  rw [parent?, get?_update]
  by_cases hk : id = k
  · subst hk
    rw [if_pos rfl, parent?, hd]
    exact hsame
  · rw [if_neg hk, parent?]

theorem nestedIn_update {id : DeclId} {d d' : Declaration} (hd : c.get? id = some d)
    (hsame : d'.nested = d.nested) (k : DeclId) :
    (c.update id fun _ => d').nestedIn k = c.nestedIn k := by
  rw [nestedIn, get?_update]
  by_cases hk : id = k
  · subst hk
    rw [if_pos rfl, nestedIn, hd]
    exact hsame
  · rw [if_neg hk, nestedIn]

/-! ### The invariant -/

/-- Nesting by lists and nesting by the one around agree, and go from smaller to greater places. -/
structure Nested (c : Catalogue) : Prop where
  mem_nestedIn : ∀ p k, k ∈ c.nestedIn p ↔ c.parent? k = some p
  parent_lt : ∀ k p, c.parent? k = some p → p < k
  increasing : ∀ p, (c.nestedIn p).Pairwise (· < ·)

theorem nested_initial : Nested initial where
  mem_nestedIn := by
    intro p k
    have hlist : initial.nestedIn p = [] := by
      cases p with
      | zero => rfl
      | succ p => rfl
    have hparent : initial.parent? k = none := by
      cases k with
      | zero => rfl
      | succ k => rfl
    simp [hlist, hparent]
  parent_lt := by
    intro k p h
    obtain rfl : k = 0 := Nat.lt_one_iff.1 (lt_size_of_parent? h)
    cases h
  increasing := by
    intro p
    cases p with
    | zero => exact List.Pairwise.nil
    | succ p => exact List.Pairwise.nil

theorem Nested.lt_size {p k : DeclId} (hn : Nested c) (h : k ∈ c.nestedIn p) : k < c.size :=
  lt_size_of_parent? ((hn.mem_nestedIn p k).1 h)

theorem Nested.lt {p k : DeclId} (hn : Nested c) (h : k ∈ c.nestedIn p) : p < k :=
  hn.parent_lt k p ((hn.mem_nestedIn p k).1 h)

theorem Nested.append {name : QualifiedName} {parent : Option DeclId} {body : Body}
    (hn : Nested c) (hp : ∀ p, parent = some p → p < c.size) :
    Nested (c.append name parent body) where
  mem_nestedIn := by
    intro p k
    rw [nestedIn_append hp, parent?_append hp]
    by_cases hk : k = c.size
    · rw [if_pos hk]
      by_cases hparent : parent = some p
      · simp [hparent, hk]
      · rw [if_neg hparent]
        constructor
        · intro hmem
          exact absurd hk (Nat.ne_of_lt (hn.lt_size hmem))
        · intro heq
          exact absurd heq hparent
    · rw [if_neg hk, ← hn.mem_nestedIn]
      by_cases hparent : parent = some p
      · simp [hparent, hk]
      · rw [if_neg hparent]
  parent_lt := by
    intro k p h
    rw [parent?_append hp] at h
    by_cases hk : k = c.size
    · rw [if_pos hk] at h
      rw [hk]
      exact hp p h
    · rw [if_neg hk] at h
      exact hn.parent_lt k p h
  increasing := by
    intro p
    rw [nestedIn_append hp]
    by_cases hparent : parent = some p
    · rw [if_pos hparent]
      refine List.pairwise_append.2 ⟨hn.increasing p, List.pairwise_singleton _ _, ?_⟩
      intro a ha b hb
      rw [List.mem_singleton.1 hb]
      exact hn.lt_size ha
    · rw [if_neg hparent]
      exact hn.increasing p

theorem Nested.step {c' : Catalogue} (hn : Nested c) (h : Step c c') : Nested c' := by
  cases h with
  | append _ _ _ nesting => exact hn.append (parent_lt_of_checkNesting nesting)
  | revise found change =>
    have hparent := parent?_update found change.parent_eq
    have hlist := nestedIn_update found change.nested_eq
    constructor
    · intro p k
      rw [hlist, hparent]
      exact hn.mem_nestedIn p k
    · intro k p hk
      rw [hparent] at hk
      exact hn.parent_lt k p hk
    · intro p
      rw [hlist]
      exact hn.increasing p

theorem Built.nested {allowed : Catalogue → Operation → Prop} (h : Built allowed c) : Nested c :=
  h.induction nested_initial fun _ _ hn hs => hn.step hs

/-! ### Everything nested in a declaration -/

/-- Whether a declaration is nested directly in another one. -/
def Encloses (c : Catalogue) (outer inner : DeclId) : Prop :=
  inner ∈ c.nestedIn outer

/-- Whether a declaration is another one or nested in it at any depth. -/
def Within (c : Catalogue) (root id : DeclId) : Prop :=
  Relation.ReflTransGen c.Encloses root id

theorem Nested.within_lt_size {root id : DeclId} (hn : Nested c) (hroot : root < c.size)
    (h : c.Within root id) : id < c.size := by
  induction h with
  | refl => exact hroot
  | tail _ hlast _ => exact hn.lt_size hlast

theorem within_iff {root id : DeclId} :
    c.Within root id ↔ root = id ∨ ∃ k ∈ c.nestedIn root, c.Within k id := by
  constructor
  · intro h
    rcases Relation.ReflTransGen.cases_head h with heq | ⟨k, hk, hrest⟩
    · exact Or.inl heq
    · exact Or.inr ⟨k, hk, hrest⟩
  · rintro (rfl | ⟨k, hk, hrest⟩)
    · exact .refl
    · exact .head hk hrest

theorem visitsWithin_succ (room : Nat) (outer : List DeclId) (id : DeclId) :
    c.visitsWithin (room + 1) outer id =
      (c.nestedIn id).flatMap (c.visitsWithin room (outer ++ [id])) ++ [(outer, id)] := by
  rw [visitsWithin, nestedIn]
  cases c.get? id with
  | none => rfl
  | some d => rfl

/-- Places grow inwards, so as much room as there are places behind a declaration is enough. -/
theorem Nested.mem_visitsWithin (hn : Nested c) {room : Nat} {outer : List DeclId} {root id : DeclId}
    (hroom : c.size - root ≤ room) (hpos : 0 < room) :
    id ∈ (c.visitsWithin room outer root).map Prod.snd ↔ c.Within root id := by
  induction room generalizing outer root with
  | zero => omega
  | succ room ih =>
    have hinner : ∀ k ∈ c.nestedIn root,
        (id ∈ (c.visitsWithin room (outer ++ [root]) k).map Prod.snd ↔ c.Within k id) := by
      intro k hk
      have hlt := hn.lt hk
      have hsize := hn.lt_size hk
      have hless := Nat.sub_lt_sub_left (Nat.lt_trans hlt hsize) hlt
      have hrest : c.size - k ≤ room := Nat.le_of_lt_succ (Nat.lt_of_lt_of_le hless hroom)
      exact ih hrest (Nat.lt_of_lt_of_le (Nat.sub_pos_of_lt hsize) hrest)
    rw [visitsWithin_succ, within_iff, List.map_append, List.mem_append, List.map_flatMap,
      List.mem_flatMap, Or.comm]
    constructor
    · rintro (h | ⟨k, hk, h⟩)
      · exact Or.inl (List.mem_singleton.1 h).symm
      · exact Or.inr ⟨k, hk, (hinner k hk).1 h⟩
    · rintro (h | ⟨k, hk, h⟩)
      · exact Or.inl (List.mem_singleton.2 h.symm)
      · exact Or.inr ⟨k, hk, (hinner k hk).2 h⟩

/-- The order of emission reaches exactly what is nested in a declaration, and itself. -/
theorem Nested.mem_emissionOrder (hn : Nested c) (hsize : 0 < c.size) {root id : DeclId} :
    id ∈ c.emissionOrder root ↔ c.Within root id :=
  hn.mem_visitsWithin (Nat.sub_le ..) hsize

end Catalogue

end FlatAidl
