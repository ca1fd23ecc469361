import FlatAidl.Flattening.Merge
import Mathlib.Data.List.Basic

/-!
The candidates of a chain by their places: the level of the interface in the chain, and the place of
the method in its interface. The walk meets them by level and then by place.
-/

namespace FlatAidl

namespace Candidate

/-- Whether the walk meets one of two placed candidates before the other one. -/
def Precedes (a b : Candidate × Nat) : Prop :=
  a.1.depth < b.1.depth ∨ a.1.depth = b.1.depth ∧ a.2 < b.2

end Candidate

namespace Catalogue

variable {c : Catalogue}

theorem exists_of_mem_candidatesAt {id : DeclId} {depth : Nat} {k : Candidate}
    (h : k ∈ c.candidatesAt id depth) :
    ∃ d members method, c.get? id = some d ∧ d.body = .interface members ∧
      method ∈ members.methods ∧ k = Candidate.ofMethod id d.name.version depth method := by
  unfold candidatesAt at h
  cases hd : c.get? id with
  | none => simp [hd] at h
  | some d =>
    cases hb : d.body with
    | compound members => simp [hd, hb] at h
    | interface members =>
      simp only [hd, hb] at h
      obtain ⟨method, hmethod, rfl⟩ := List.mem_map.1 h
      exact ⟨d, members, method, rfl, hb, hmethod, rfl⟩

theorem exists_of_mem_candidatesFrom {depth : Nat} {chain : List DeclId} {k : Candidate}
    (h : k ∈ c.candidatesFrom depth chain) :
    ∃ d members, c.get? k.declaredIn = some d ∧ d.body = .interface members ∧
      k.method ∈ members.methods := by
  induction chain generalizing depth with
  | nil => cases h
  | cons id rest ih =>
    rcases List.mem_append.1 h with h | h
    · obtain ⟨d, members, method, hd, hb, hmethod, rfl⟩ := exists_of_mem_candidatesAt h
      exact ⟨d, members, hd, hb, hmethod⟩
    · exact ih h

theorem name_of_mem_candidatesFrom {depth : Nat} {chain : List DeclId} {k : Candidate}
    (h : k ∈ c.candidatesFrom depth chain) :
    k.name = Candidate.canonicalName k.method.name := by
  induction chain generalizing depth with
  | nil => cases h
  | cons id rest ih =>
    rcases List.mem_append.1 h with h | h
    · obtain ⟨_, _, _, _, _, _, rfl⟩ := exists_of_mem_candidatesAt h
      rfl
    · exact ih h

/-! ### Places -/

/-- The candidates of a chain from a depth on, each with its place in its interface. -/
def placedFrom (c : Catalogue) (depth : Nat) : List DeclId → List (Candidate × Nat)
  | [] => []
  | id :: rest => (c.candidatesAt id depth).zipIdx ++ c.placedFrom (depth + 1) rest

theorem map_fst_placedFrom (depth : Nat) (chain : List DeclId) :
    (c.placedFrom depth chain).map Prod.fst = c.candidatesFrom depth chain := by
  induction chain generalizing depth with
  | nil => rfl
  | cons id rest ih =>
    rw [placedFrom, candidatesFrom, List.map_append, List.zipIdx_map_fst, ih]

theorem candidatesAt_getElem? (id : DeclId) (depth index : Nat) :
    (c.candidatesAt id depth)[index]? = do
      let d ← c.get? id
      let members ← d.interface?
      let method ← members.methods[index]?
      return Candidate.ofMethod id d.name.version depth method := by
  unfold candidatesAt
  cases c.get? id with
  | none => rfl
  | some d =>
    cases hb : d.body with
    | compound members => simp [Declaration.interface?, hb]
    | interface members =>
      simp only [Option.bind_eq_bind, Option.bind_some, Declaration.interface?, hb,
        List.getElem?_map]
      cases members.methods[index]? with
      | none => rfl
      | some method => rfl

theorem depth_of_mem_candidatesAt {id : DeclId} {depth : Nat} {k : Candidate}
    (h : k ∈ c.candidatesAt id depth) : k.depth = depth := by
  obtain ⟨d, members, method, _, _, _, rfl⟩ := exists_of_mem_candidatesAt h
  rfl

theorem mem_placedFrom {depth : Nat} {chain : List DeclId} {k : Candidate} {index : Nat} :
    (k, index) ∈ c.placedFrom depth chain ↔
      ∃ level id, chain[level]? = some id ∧ (c.candidatesAt id (depth + level))[index]? = some k := by
  induction chain generalizing depth with
  | nil => simp [placedFrom]
  | cons first rest ih =>
    rw [placedFrom, List.mem_append, List.mem_zipIdx_iff_getElem?, ih]
    constructor
    · rintro (h | ⟨level, id, hid, h⟩)
      · exact ⟨0, first, rfl, h⟩
      · refine ⟨level + 1, id, hid, ?_⟩
        rwa [Nat.add_assoc, Nat.add_comm 1 level] at h
    · rintro ⟨level, id, hid, h⟩
      cases level with
      | zero =>
        obtain rfl : first = id := Option.some.inj hid
        exact Or.inl h
      | succ level =>
        refine Or.inr ⟨level, id, hid, ?_⟩
        rwa [Nat.add_assoc, Nat.add_comm 1 level]

theorem le_depth_of_mem_placedFrom {depth : Nat} {chain : List DeclId} {e : Candidate × Nat}
    (h : e ∈ c.placedFrom depth chain) : depth ≤ e.1.depth := by
  obtain ⟨level, id, _, hk⟩ := mem_placedFrom.1 h
  rw [depth_of_mem_candidatesAt (List.mem_of_getElem? hk)]
  exact Nat.le_add_right _ _

theorem pairwise_zipIdx {α : Type} (l : List α) (start : Nat) :
    (l.zipIdx start).Pairwise fun a b => a.2 < b.2 := by
  induction l generalizing start with
  | nil => exact List.Pairwise.nil
  | cons a l ih =>
    rw [List.zipIdx_cons, List.pairwise_cons]
    refine ⟨?_, ih (start + 1)⟩
    intro b hb
    exact List.le_snd_of_mem_zipIdx hb

/-- The walk meets the candidates of a chain by depth and then by place. -/
theorem pairwise_placedFrom (depth : Nat) (chain : List DeclId) :
    (c.placedFrom depth chain).Pairwise Candidate.Precedes := by
  induction chain generalizing depth with
  | nil => exact List.Pairwise.nil
  | cons id rest ih =>
    have hdepth : ∀ e ∈ (c.candidatesAt id depth).zipIdx, e.1.depth = depth := fun e he =>
      depth_of_mem_candidatesAt (List.fst_mem_of_mem_zipIdx he)
    refine List.pairwise_append.2 ⟨?_, ih (depth + 1), ?_⟩
    · refine (pairwise_zipIdx _ 0).imp_of_mem fun ha hb hlt => Or.inr ⟨?_, hlt⟩
      rw [hdepth _ ha, hdepth _ hb]
    · intro a ha b hb
      have hb' := le_depth_of_mem_placedFrom hb
      have ha' := hdepth a ha
      exact Or.inl (by omega)

end Catalogue

end FlatAidl
