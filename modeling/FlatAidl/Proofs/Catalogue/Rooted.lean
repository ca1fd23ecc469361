import FlatAidl.Proofs.Catalogue.History

/-!
What inheritance looks like in every built catalogue. Only the base interface extends nothing, and
what an interface extends is an interface.
-/

namespace FlatAidl

namespace Catalogue

/-! ### Interfaces by place -/

theorem interface?_eq_some {c : Catalogue} {id : DeclId} {members : Interface} :
    c.interface? id = some members ↔
      ∃ d, c.get? id = some d ∧ d.body = .interface members := by
  unfold interface?
  cases hd : c.get? id with
  | none => simp
  | some d =>
    cases hb : d.body with
    | interface m => simp [Declaration.interface?, hb]
    | compound m => simp [Declaration.interface?, hb]

theorem isInterface_iff {c : Catalogue} {id : DeclId} :
    c.isInterface id = true ↔ ∃ members, c.interface? id = some members := by
  rw [isInterface, Option.isSome_iff_exists]

theorem lt_size_of_isInterface {c : Catalogue} {id : DeclId} (h : c.isInterface id = true) :
    id < c.size := by
  obtain ⟨members, h⟩ := isInterface_iff.1 h
  obtain ⟨d, hd, _⟩ := interface?_eq_some.1 h
  exact lt_size_of_get? hd

theorem super?_eq_some {c : Catalogue} {id s : DeclId} :
    c.super? id = some s ↔ ∃ members, c.interface? id = some members ∧ members.super = some s := by
  rw [super?, Option.bind_eq_some_iff]

theorem isInterface_of_super? {c : Catalogue} {id s : DeclId} (h : c.super? id = some s) :
    c.isInterface id = true := by
  obtain ⟨members, hm, _⟩ := super?_eq_some.1 h
  exact isInterface_iff.2 ⟨members, hm⟩

theorem super?_of_interface? {c : Catalogue} {id : DeclId} {members : Interface}
    (h : c.interface? id = some members) : c.super? id = members.super := by
  rw [super?, h]
  rfl

/-! ### Interfaces after one operation -/

theorem parent_lt_of_checkNesting {c : Catalogue} {name : QualifiedName} {parent : Option DeclId}
    (h : c.checkNesting name parent = .ok ()) : ∀ p, parent = some p → p < c.size := by
  rintro p rfl
  obtain ⟨d, hd, _⟩ := Outcome.bind_eq_ok.1 h
  exact lt_size_of_get? (target_eq_ok.1 hd)

theorem interface?_append {c : Catalogue} {name : QualifiedName} {parent : Option DeclId}
    {body : Body} (hp : ∀ p, parent = some p → p < c.size) (k : DeclId) :
    (c.append name parent body).interface? k =
      if k = c.size then Declaration.interface? ⟨name, none, body, [], parent⟩
      else c.interface? k := by
  by_cases hk : k = c.size
  · rw [if_pos hk, interface?, hk, get?_append_size c name body hp]
    rfl
  · rw [if_neg hk, interface?, get?_append_of_ne c name parent body hk, interface?]
    split
    · cases c.get? k with
      | none => rfl
      | some d => rfl
    · rfl

theorem interface?_update {c : Catalogue} {id : DeclId} {d d' : Declaration}
    (hd : c.get? id = some d) (k : DeclId) :
    (c.update id fun _ => d').interface? k =
      if id = k then d'.interface? else c.interface? k := by
  rw [interface?, get?_update]
  by_cases hk : id = k
  · subst hk
    rw [if_pos rfl, if_pos rfl, hd]
    rfl
  · rw [if_neg hk, if_neg hk, interface?]

theorem Step.isInterface {c c' : Catalogue} (h : Step c c') {k : DeclId}
    (hk : c.isInterface k = true) : c'.isInterface k = true := by
  cases h with
  | append fresh _ _ nesting =>
    have hne : k ≠ c.size := Nat.ne_of_lt (lt_size_of_isInterface hk)
    rw [Catalogue.isInterface, interface?_append (parent_lt_of_checkNesting nesting), if_neg hne]
    exact hk
  | @revise id d d' found change =>
    rw [Catalogue.isInterface, interface?_update found]
    by_cases hid : id = k
    · subst hid
      obtain ⟨members, hm⟩ := isInterface_iff.1 hk
      obtain ⟨e, he, hbody⟩ := interface?_eq_some.1 hm
      obtain rfl : d = e := Option.some.inj (found.symm.trans he)
      have hd' : d'.isInterface = true := by
        rw [change.isInterface_eq, Declaration.isInterface, hbody]
      cases hb : d'.body with
      | interface m => simp [Declaration.interface?, hb]
      | compound m => simp [Declaration.isInterface, hb] at hd'
    · rw [if_neg hid]
      exact hk

/-! ### The invariant -/

/-- Every interface extends an interface, but for the base interface, which extends nothing. -/
structure Rooted (c : Catalogue) : Prop where
  base_isInterface : c.isInterface base = true
  base_super : c.super? base = none
  super_exists : ∀ id, c.isInterface id = true → id ≠ base → ∃ s, c.super? id = some s
  super_isInterface : ∀ id s, c.super? id = some s → c.isInterface s = true

theorem rooted_initial : Rooted initial where
  base_isInterface := rfl
  base_super := rfl
  super_exists := by
    intro id hid hne
    have hlt : id < initial.size := lt_size_of_isInterface hid
    exact absurd (Nat.lt_one_iff.1 hlt) hne
  super_isInterface := by
    intro id s h
    have hlt : id < initial.size := lt_size_of_isInterface (isInterface_of_super? h)
    obtain rfl : id = base := Nat.lt_one_iff.1 hlt
    cases h

/-- What an interface extends after an operation: the same as before, or another interface if it is
not the base interface. -/
theorem Rooted.super_cases {c c' : Catalogue} (hr : Rooted c) (h : Step c c') {k : DeclId}
    {members' : Interface} (hk : c'.interface? k = some members') :
    (∃ members, c.interface? k = some members ∧ members'.super = members.super) ∨
      k ≠ base ∧ ∃ s, members'.super = some s ∧ c.isInterface s = true := by
  cases h with
  | append fresh _ _ nesting =>
    rw [interface?_append (parent_lt_of_checkNesting nesting)] at hk
    by_cases hsize : k = c.size
    · have hbase : k ≠ base := by
        rw [hsize]
        exact Nat.ne_of_gt (lt_size_of_isInterface hr.base_isInterface)
      rw [if_pos hsize] at hk
      cases fresh with
      | compound kind => cases hk
      | interface =>
        cases hk
        exact Or.inr ⟨hbase, base, rfl, hr.base_isInterface⟩
    · rw [if_neg hsize] at hk
      exact Or.inl ⟨members', hk, rfl⟩
  | @revise id d d' found change =>
    rw [interface?_update found] at hk
    by_cases hid : id = k
    · subst hid
      rw [if_pos rfl] at hk
      cases change with
      | comment doc =>
        have hold : c.interface? id = some members' := by
          rw [interface?, found]
          exact hk
        exact Or.inl ⟨members', hold, rfl⟩
      | super s body proper other target =>
        cases hk
        exact Or.inr ⟨proper, s, rfl, target⟩
      | @method members m body proper =>
        cases hk
        exact Or.inl ⟨members, interface?_eq_some.2 ⟨d, found, body⟩, rfl⟩
      | field f body => cases hk
    · rw [if_neg hid] at hk
      exact Or.inl ⟨members', hk, rfl⟩

theorem Rooted.step {c c' : Catalogue} (hr : Rooted c) (h : Step c c') : Rooted c' where
  base_isInterface := h.isInterface hr.base_isInterface
  base_super := by
    obtain ⟨members', hm'⟩ := isInterface_iff.1 (h.isInterface hr.base_isInterface)
    rcases hr.super_cases h hm' with ⟨members, hm, heq⟩ | ⟨hne, _⟩
    · rw [super?_of_interface? hm', heq, ← super?_of_interface? hm, hr.base_super]
    · exact absurd rfl hne
  super_exists := by
    intro id hid hne
    obtain ⟨members', hm'⟩ := isInterface_iff.1 hid
    rw [super?_of_interface? hm']
    rcases hr.super_cases h hm' with ⟨members, hm, heq⟩ | ⟨_, s, hs, _⟩
    · rw [heq, ← super?_of_interface? hm]
      exact hr.super_exists id (isInterface_iff.2 ⟨members, hm⟩) hne
    · exact ⟨s, hs⟩
  super_isInterface := by
    intro id s hs
    obtain ⟨members', hm', hsuper⟩ := super?_eq_some.1 hs
    rcases hr.super_cases h hm' with ⟨members, hm, heq⟩ | ⟨_, s', hs', hi⟩
    · have hold : c.super? id = some s := by rw [super?_of_interface? hm, ← heq, hsuper]
      exact h.isInterface (hr.super_isInterface id s hold)
    · obtain rfl : s = s' := Option.some.inj (hsuper.symm.trans hs')
      exact h.isInterface hi

theorem Built.rooted {allowed : Catalogue → Operation → Prop} {c : Catalogue}
    (h : Built allowed c) : Rooted c :=
  h.induction rooted_initial fun _ _ hr hs => hr.step hs

end Catalogue

end FlatAidl
