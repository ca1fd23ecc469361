import FlatAidl.Package.Targets
import FlatAidl.Proofs.Catalogue.Nesting
import Mathlib.Data.List.Nodup

/-!
Nesting as a forest. Each declaration is nested directly in one other at most, so of two
declarations around a third one is around the other. Main statements: the order of emission of a
declaration reaches nothing twice, declarations of which none is around another one share nothing,
and the search for a requested declaration around a place finds every one there is.
-/

namespace FlatAidl

namespace Catalogue

variable {c : Catalogue}

/-- Whether a declaration is nested in another one, directly or at any depth. -/
def Inside (c : Catalogue) : DeclId → DeclId → Prop :=
  Relation.TransGen c.Encloses

theorem encloses_iff (hn : Nested c) {outer inner : DeclId} :
    c.Encloses outer inner ↔ c.parent? inner = some outer :=
  hn.mem_nestedIn outer inner

theorem Nested.lt_of_inside (hn : Nested c) {outer inner : DeclId} (h : c.Inside outer inner) :
    outer < inner := by
  induction h with
  | single h => exact hn.lt h
  | tail _ h ih => exact Nat.lt_trans ih (hn.lt h)

theorem inside_or_eq_of_within {outer inner : DeclId} (h : c.Within outer inner) :
    inner = outer ∨ c.Inside outer inner :=
  Relation.reflTransGen_iff_eq_or_transGen.1 h

/-- Of two declarations around a third one is around the other. -/
theorem Nested.within_total (hn : Nested c) {a b id : DeclId} (ha : c.Within a id)
    (hb : c.Within b id) : c.Within a b ∨ c.Within b a := by
  induction ha with
  | refl => exact Or.inr hb
  | @tail p k hp hk ih =>
    rcases Relation.ReflTransGen.cases_tail hb with heq | ⟨q, hq, hqk⟩
    · exact Or.inl (heq ▸ .tail hp hk)
    · have hsame : q = p :=
        Option.some.inj (((encloses_iff hn).1 hqk).symm.trans ((encloses_iff hn).1 hk))
      rw [hsame] at hq
      exact ih hq

/-- Two declarations that are nested directly in the same one share nothing. -/
theorem Nested.eq_of_siblings (hn : Nested c) {root a b id : DeclId} (ha : a ∈ c.nestedIn root)
    (hb : b ∈ c.nestedIn root) (hida : c.Within a id) (hidb : c.Within b id) : a = b := by
  have hapart : ∀ {x y : DeclId}, x ∈ c.nestedIn root → y ∈ c.nestedIn root → c.Within x y →
      y = x := by
    intro x y hx hy hxy
    rcases Relation.ReflTransGen.cases_tail hxy with heq | ⟨p, hp, hpy⟩
    · exact heq
    · have hroot : p = root :=
        Option.some.inj (((encloses_iff hn).1 hpy).symm.trans ((encloses_iff hn).1 hy))
      rw [hroot] at hp
      have hlt : root < x := hn.lt hx
      rcases inside_or_eq_of_within hp with heq | hinside
      · exact absurd hlt (heq ▸ Nat.lt_irrefl _)
      · exact absurd (hn.lt_of_inside hinside) (Nat.lt_asymm hlt)
  rcases hn.within_total hida hidb with hab | hba
  · exact (hapart ha hb hab).symm
  · exact hapart hb ha hba

/-! ### The order of emission -/

theorem within_of_mem_visitsWithin {room : Nat} {outer : List DeclId} {root id : DeclId}
    (h : id ∈ (c.visitsWithin room outer root).map Prod.snd) : c.Within root id := by
  induction room generalizing outer root with
  | zero => cases h
  | succ room ih =>
    rw [visitsWithin_succ, List.map_append, List.map_flatMap, List.mem_append,
      List.mem_flatMap] at h
    rcases h with ⟨k, hk, hid⟩ | hid
    · exact .head hk (ih hid)
    · rw [List.mem_singleton.1 hid]
      exact .refl

theorem Nested.nodup_visitsWithin (hn : Nested c) (room : Nat) (outer : List DeclId)
    (root : DeclId) : ((c.visitsWithin room outer root).map Prod.snd).Nodup := by
  induction room generalizing outer root with
  | zero => exact List.nodup_nil
  | succ room ih =>
    rw [visitsWithin_succ, List.map_append, List.map_flatMap]
    refine List.nodup_append.2 ⟨List.nodup_flatMap.2 ⟨fun k _ => ih _ k, ?_⟩,
      List.nodup_singleton _, ?_⟩
    · refine (hn.increasing root).imp_of_mem ?_
      intro a b ha hb hlt id hida hidb
      have hsame := hn.eq_of_siblings ha hb (within_of_mem_visitsWithin hida)
        (within_of_mem_visitsWithin hidb)
      exact Nat.ne_of_lt hlt hsame
    · rintro id hid _ hroot rfl
      obtain ⟨k, hk, hid⟩ := List.mem_flatMap.1 hid
      rw [List.mem_singleton.1 hroot] at hid
      rcases inside_or_eq_of_within (within_of_mem_visitsWithin hid) with heq | hinside
      · exact absurd (hn.lt hk) (heq ▸ Nat.lt_irrefl _)
      · exact absurd (hn.lt hk) (Nat.lt_asymm (hn.lt_of_inside hinside))

theorem Nested.nodup_emissionOrder (hn : Nested c) (root : DeclId) :
    (c.emissionOrder root).Nodup :=
  hn.nodup_visitsWithin c.size [] root

/-- Room beyond what the places behind a declaration need changes nothing. -/
theorem Nested.map_snd_visitsWithin (hn : Nested c) {room room' : Nat} (outer outer' : List DeclId)
    {root : DeclId} (hroot : root < c.size) (h : c.size - root ≤ room)
    (h' : c.size - root ≤ room') :
    (c.visitsWithin room outer root).map Prod.snd =
      (c.visitsWithin room' outer' root).map Prod.snd := by
  have hpos : 0 < c.size - root := Nat.sub_pos_of_lt hroot
  induction room generalizing room' outer outer' root with
  | zero => exact absurd hpos (Nat.not_lt.2 h)
  | succ room ih =>
    cases room' with
    | zero => exact absurd hpos (Nat.not_lt.2 h')
    | succ room' =>
      rw [visitsWithin_succ, visitsWithin_succ, List.map_append, List.map_append,
        List.map_flatMap, List.map_flatMap]
      refine congrArg (· ++ [root]) (List.flatMap_congr fun k hk => ?_)
      have hsize : k < c.size := hn.lt_size hk
      have hless := Nat.sub_lt_sub_left hroot (hn.lt hk)
      exact ih _ _ hsize (Nat.le_of_lt_succ (Nat.lt_of_lt_of_le hless h))
        (Nat.le_of_lt_succ (Nat.lt_of_lt_of_le hless h')) (Nat.sub_pos_of_lt hsize)

/-- Everything nested in a declaration comes first, one directly nested declaration after another,
and then the declaration itself. -/
theorem Nested.emissionOrder_eq (hn : Nested c) {root : DeclId} (hroot : root < c.size) :
    c.emissionOrder root = (c.nestedIn root).flatMap c.emissionOrder ++ [root] := by
  have hsucc : c.emissionOrder root = (c.visitsWithin (c.size + 1) [] root).map Prod.snd :=
    hn.map_snd_visitsWithin [] [] hroot (Nat.sub_le ..)
      (Nat.le_trans (Nat.sub_le ..) (Nat.le_succ _))
  rw [hsucc, visitsWithin_succ, List.map_append, List.map_flatMap]
  refine congrArg (· ++ [root]) (List.flatMap_congr fun k hk => ?_)
  exact hn.map_snd_visitsWithin _ _ (hn.lt_size hk) (Nat.sub_le ..) (Nat.sub_le ..)

/-- Declarations of which none is around another one are emitted without a repetition. -/
theorem Nested.nodup_flatMap_emissionOrder (hn : Nested c) {roots : List DeclId}
    (hnodup : roots.Nodup) (happart : ∀ a ∈ roots, ∀ b ∈ roots, ¬ c.Inside a b) :
    (roots.flatMap c.emissionOrder).Nodup := by
  refine List.nodup_flatMap.2 ⟨fun root _ => hn.nodup_emissionOrder root, ?_⟩
  refine hnodup.imp_of_mem ?_
  intro a b ha hb hne id hida hidb
  rcases hn.within_total (within_of_mem_visitsWithin hida) (within_of_mem_visitsWithin hidb)
    with hab | hba
  · rcases inside_or_eq_of_within hab with heq | hinside
    · exact hne heq.symm
    · exact happart a ha b hb hinside
  · rcases inside_or_eq_of_within hba with heq | hinside
    · exact hne heq
    · exact happart b hb a ha hinside

/-! ### The search outwards -/

/-- Places shrink outwards, so as much room as the place itself is enough. -/
theorem Nested.isInsideWithin_iff (hn : Nested c) (seen : List DeclId) {room : Nat} {id : DeclId}
    (hroom : id ≤ room) :
    c.isInsideWithin seen room id = true ↔ ∃ outer ∈ seen, c.Inside outer id := by
  induction room generalizing id with
  | zero =>
    have hzero : id = 0 := Nat.le_zero.1 hroom
    constructor
    · intro h
      cases h
    · rintro ⟨outer, _, h⟩
      have hlt := hn.lt_of_inside h
      rw [hzero] at hlt
      exact absurd hlt (Nat.not_lt_zero _)
  | succ room ih =>
    rw [isInsideWithin]
    cases hp : c.parent? id with
    | none =>
      constructor
      · intro h
        cases h
      · rintro ⟨outer, _, h⟩
        obtain ⟨p, _, hlast⟩ := Relation.TransGen.tail'_iff.1 h
        rw [encloses_iff hn, hp] at hlast
        cases hlast
    | some p =>
      have hlt : p < id := hn.parent_lt id p hp
      have hstep : c.Encloses p id := (encloses_iff hn).2 hp
      simp only [Bool.or_eq_true, List.contains_iff_mem]
      rw [ih (Nat.le_of_lt_succ (Nat.lt_of_lt_of_le hlt hroom))]
      constructor
      · rintro (hmem | ⟨outer, hmem, hin⟩)
        · exact ⟨p, hmem, .single hstep⟩
        · exact ⟨outer, hmem, .tail hin hstep⟩
      · rintro ⟨outer, hmem, h⟩
        obtain ⟨q, hq, hlast⟩ := Relation.TransGen.tail'_iff.1 h
        have hsame : q = p :=
          Option.some.inj (((encloses_iff hn).1 hlast).symm.trans hp)
        rw [hsame] at hq
        rcases inside_or_eq_of_within hq with heq | hinside
        · exact Or.inl (heq ▸ hmem)
        · exact Or.inr ⟨outer, hmem, hinside⟩

theorem Nested.isInside_iff (hn : Nested c) (seen : List DeclId) {id : DeclId} (hid : id < c.size) :
    c.isInside seen id = true ↔ ∃ outer ∈ seen, c.Inside outer id :=
  hn.isInsideWithin_iff seen (Nat.le_of_lt hid)

/-- Around every declaration of a kind stands an outermost one of that kind, or it is that one. -/
theorem Nested.exists_outermost (hn : Nested c) {P : DeclId → Prop} {id : DeclId} (h : P id) :
    ∃ outer, P outer ∧ c.Within outer id ∧ ∀ k, P k → ¬ c.Inside k outer := by
  induction id using Nat.strongRecOn with
  | ind id ih =>
    by_cases hout : ∃ k, P k ∧ c.Inside k id
    · obtain ⟨k, hk, hinside⟩ := hout
      obtain ⟨outer, houter, hwithin, hlast⟩ := ih k (hn.lt_of_inside hinside) hk
      exact ⟨outer, houter, hwithin.trans hinside.to_reflTransGen, hlast⟩
    · exact ⟨id, h, .refl, fun k hk hinside => hout ⟨k, hk, hinside⟩⟩

end Catalogue

end FlatAidl
