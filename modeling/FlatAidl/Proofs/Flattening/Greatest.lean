import FlatAidl.Proofs.Catalogue.Chain
import FlatAidl.Proofs.Flattening.Suffixes
import Mathlib.Data.Prod.Lex
import Mathlib.Order.Nat

/-!
Which candidate a name goes to. The walk meets the members of a chain in order and the methods of a
member in order, so comparing each candidate with the current holder of its name only finds the
greatest one by version, then depth, then place. Main statement: of all methods of a chain with one
canonical name the merge keeps exactly the greatest.
-/

namespace FlatAidl

namespace Version

theorem newer_iff {v w : Version} :
    v.newer w = true ↔ toLex (w.major, w.minor) < toLex (v.major, v.minor) := by
  rw [Prod.Lex.toLex_lt_toLex]
  simp only [newer, Bool.or_eq_true, Bool.and_eq_true, decide_eq_true_eq, beq_iff_eq]
  constructor
  · rintro (h | ⟨h, h'⟩)
    · exact Or.inl h
    · exact Or.inr ⟨h.symm, h'⟩
  · rintro (h | ⟨h, h'⟩)
    · exact Or.inl h
    · exact Or.inr ⟨h.symm, h'⟩

end Version

namespace Candidate

/-- What candidates of one name are compared by: the newer version is greater, then the more derived
interface, then the later place among the methods of one interface. -/
def rank (k : Candidate) (index : Nat) : (ℕ ×ₗ ℕ) ×ₗ ℕᵒᵈ ×ₗ ℕ :=
  toLex (toLex (k.version.major, k.version.minor), toLex (OrderDual.toDual k.depth, index))

theorem rank_lt_rank {a b : Candidate} {i j : Nat} :
    a.rank i < b.rank j ↔
      b.version.newer a.version = true ∨
        a.version = b.version ∧ (b.depth < a.depth ∨ a.depth = b.depth ∧ i < j) := by
  have hversion : toLex (a.version.major, a.version.minor) =
      toLex (b.version.major, b.version.minor) ↔ a.version = b.version := by
    cases a.version
    cases b.version
    simp
  have hplace : toLex (OrderDual.toDual a.depth, i) < toLex (OrderDual.toDual b.depth, j) ↔
      b.depth < a.depth ∨ a.depth = b.depth ∧ i < j := by
    rw [Prod.Lex.toLex_lt_toLex]
    rfl
  rw [rank, rank, Prod.Lex.toLex_lt_toLex, Version.newer_iff, hversion, hplace]

/-- The comparison of the walk, where the earlier candidate holds the name. -/
theorem supersedes_iff {a b : Candidate × Nat} (h : Precedes a b) :
    b.1.supersedes a.1 = true ↔ a.1.rank a.2 < b.1.rank b.2 := by
  rw [rank_lt_rank, supersedes]
  by_cases hv : b.1.version = a.1.version
  · have hnot : a.1.version.newer a.1.version = false := by simp [Version.newer]
    rw [if_pos hv, hv, hnot, decide_eq_true_iff]
    rcases h with hlt | ⟨heq, hlt⟩
    · constructor
      · intro hle
        omega
      · rintro (hf | ⟨_, hlt' | ⟨heq, _⟩⟩)
        · cases hf
        · omega
        · omega
    · constructor
      · intro _
        exact Or.inr ⟨rfl, Or.inr ⟨heq, hlt⟩⟩
      · intro _
        omega
  · rw [if_neg hv]
    constructor
    · exact Or.inl
    · rintro (hn | ⟨heq, _⟩)
      · exact hn
      · exact absurd heq.symm hv

theorem rank_ne_rank {a b : Candidate × Nat} (h : Precedes a b) :
    a.1.rank a.2 ≠ b.1.rank b.2 := by
  intro heq
  have hdepth : a.1.depth = b.1.depth := congrArg (fun r => (ofLex (ofLex r).2).1) heq
  have hindex : a.2 = b.2 := congrArg (fun r => (ofLex (ofLex r).2).2) heq
  rcases h with hlt | ⟨_, hlt⟩
  · omega
  · omega

end Candidate

namespace Merge

open Candidate

/-- Among candidates in the order of the walk, a name goes to the greatest of them. -/
theorem winner?_greatest {es : List (Candidate × Nat)} (h : es.Pairwise Precedes) {name : Text}
    (hname : ∃ e ∈ es, e.1.name = name) :
    ∃ w ∈ es, w.1.name = name ∧ (ofCandidates (es.map Prod.fst)).winner? name = some w.1 ∧
      ∀ e ∈ es, e.1.name = name → e = w ∨ e.1.rank e.2 < w.1.rank w.2 := by
  induction es using List.reverseRecOn with
  | nil =>
    obtain ⟨e, he, _⟩ := hname
    cases he
  | append_singleton es x ih =>
    obtain ⟨hes, _, hlast⟩ := List.pairwise_append.1 h
    have hbefore : ∀ e ∈ es, Precedes e x := fun e he => hlast e he x (List.mem_singleton_self x)
    rw [List.map_append, List.map_singleton, ofCandidates_concat, winner?_insert]
    by_cases hx : x.1.name = name
    · rw [if_pos hx]
      by_cases hearlier : ∃ e ∈ es, e.1.name = name
      · obtain ⟨w, hw, hwname, hwinner, hgreatest⟩ := ih hes hearlier
        rw [hwinner]
        cases hs : x.1.supersedes w.1 with
        | true =>
          have hlt := (supersedes_iff (hbefore w hw)).1 hs
          refine ⟨x, by simp, hx, by simp [hs], ?_⟩
          intro e he hename
          rcases List.mem_append.1 he with he | he
          · rcases hgreatest e he hename with rfl | hlower
            · exact Or.inr hlt
            · exact Or.inr (lt_trans hlower hlt)
          · exact Or.inl (List.mem_singleton.1 he)
        | false =>
          have hnot : ¬ w.1.rank w.2 < x.1.rank x.2 := fun hlt => by
            rw [← supersedes_iff (hbefore w hw), hs] at hlt
            cases hlt
          refine ⟨w, by simp [hw], hwname, by simp [hs], ?_⟩
          intro e he hename
          rcases List.mem_append.1 he with he | he
          · exact hgreatest e he hename
          · obtain rfl : e = x := List.mem_singleton.1 he
            exact Or.inr (lt_of_le_of_ne (not_lt.1 hnot) (Ne.symm (rank_ne_rank (hbefore w hw))))
      · -- The name is new: the walk has met no candidate that could hold it.
        have hnone : (ofCandidates (es.map Prod.fst)).winner? name = none := by
          rw [winner?_eq_none_iff]
          intro hmem
          obtain ⟨k, hk, hkname⟩ := List.mem_map.1 hmem
          obtain ⟨e, he, rfl⟩ := List.mem_map.1 (mem_of_mem_winners hk)
          exact hearlier ⟨e, he, hkname⟩
        rw [hnone]
        refine ⟨x, by simp, hx, rfl, ?_⟩
        intro e he hename
        rcases List.mem_append.1 he with he | he
        · exact absurd ⟨e, he, hename⟩ hearlier
        · exact Or.inl (List.mem_singleton.1 he)
    · rw [if_neg hx]
      have hother : ∀ e ∈ es ++ [x], e.1.name = name → e ∈ es := by
        intro e he hename
        rcases List.mem_append.1 he with he | he
        · exact he
        · rw [List.mem_singleton.1 he] at hename
          exact absurd hename hx
      obtain ⟨e, he, hename⟩ := hname
      obtain ⟨w, hw, hwname, hwinner, hgreatest⟩ := ih hes ⟨e, hother e he hename, hename⟩
      refine ⟨w, List.mem_append_left _ hw, hwname, hwinner, ?_⟩
      intro e he hename
      exact hgreatest e (hother e he hename) hename

end Merge

namespace Catalogue

variable {c : Catalogue}

/-- Whether a candidate is the method at a place of one level of a chain, under the name and the
version that this method competes with. -/
structure CompetesAt (c : Catalogue) (chain : List DeclId) (level index : Nat) (k : Candidate) :
    Prop where
  declared : chain[level]? = some k.declaredIn
  depth : k.depth = level
  method : ∃ members, c.interface? k.declaredIn = some members ∧
    members.methods[index]? = some k.method
  competes : c.Competes k

theorem competesAt_iff {chain : List DeclId} {level index : Nat} {k : Candidate} :
    c.CompetesAt chain level index k ↔
      ∃ id, chain[level]? = some id ∧ (c.candidatesAt id level)[index]? = some k := by
  simp only [candidatesAt_getElem?, Option.bind_eq_bind, Option.bind_eq_some_iff, pure,
    Option.some.injEq]
  constructor
  · rintro ⟨hid, hdepth, ⟨members, hmembers, hmethod⟩, ⟨d, hd, hcompetes⟩⟩
    obtain ⟨hname, hversion⟩ := Candidate.competesAs_iff.1 hcompetes
    rw [interface?, hd, Option.bind_some] at hmembers
    refine ⟨k.declaredIn, hid, d, hd, members, hmembers, k.method, hmethod, ?_⟩
    rw [Candidate.ofMethod, ← hname, ← hversion, ← hdepth]
  · rintro ⟨id, hid, d, hd, members, hmembers, method, hmethod, rfl⟩
    refine ⟨hid, rfl, ⟨members, ?_, hmethod⟩, d, hd, Candidate.competesAs_iff.2 ⟨rfl, rfl⟩⟩
    change c.interface? id = _
    rw [interface?, hd, Option.bind_some, hmembers]

theorem mem_placedFrom_zero {chain : List DeclId} {k : Candidate} {index : Nat} :
    (k, index) ∈ c.placedFrom 0 chain ↔ ∃ level, c.CompetesAt chain level index k := by
  simp only [mem_placedFrom, Nat.zero_add, competesAt_iff]

/-- Of all methods of an interface's chain with one canonical name the merge keeps exactly the one
that outranks all others: by its version, then by how derived its interface is, then by its place in
the interface. A method has the name and the version that its own name spells, and if it spells none,
this name and the version of its interface. -/
theorem merge_keeps_greatest {ops : List Operation} {c : Catalogue}
    (h : (build ops).finish = .ok c) {id : DeclId} (hid : c.isInterface id = true) :
    ∃ chain m, c.chain id = .ok chain ∧ c.merge id = .ok m ∧
      (m.winners.map Candidate.name).Nodup ∧
        (∀ w ∈ m.winners, ∃ level index, c.CompetesAt chain level index w) ∧
        ∀ name, (∃ level index k, c.CompetesAt chain level index k ∧ k.name = name) →
          ∃ level index w, c.CompetesAt chain level index w ∧ w.name = name ∧
            m.winner? name = some w ∧
              ∀ level' index' k, c.CompetesAt chain level' index' k → k.name = name →
                (level', index') ≠ (level, index) → k.rank index' < w.rank index := by
  obtain ⟨rfl, hacyclic⟩ := finish_eq_ok_iff.1 h
  obtain ⟨chain, hchain, _⟩ := (built_build ops).rooted.exists_chain hacyclic hid
  refine ⟨chain, Merge.ofCandidates ((build ops).candidatesFrom 0 chain), hchain, ?_,
    Merge.nodup_names _, ?_, ?_⟩
  · rw [merge, hchain]
    rfl
  · intro w hw
    have hmem := Merge.mem_of_mem_winners hw
    rw [← map_fst_placedFrom] at hmem
    obtain ⟨⟨_, index⟩, he, rfl⟩ := List.mem_map.1 hmem
    obtain ⟨level, hlevel⟩ := mem_placedFrom_zero.1 he
    exact ⟨level, index, hlevel⟩
  · rintro name ⟨level, index, k, hk, hname⟩
    obtain ⟨⟨w, windex⟩, hw, hwname, hwinner, hgreatest⟩ :=
      Merge.winner?_greatest (pairwise_placedFrom 0 chain)
        ⟨(k, index), mem_placedFrom_zero.2 ⟨level, hk⟩, hname⟩
    rw [map_fst_placedFrom] at hwinner
    obtain ⟨wlevel, hwat⟩ := mem_placedFrom_zero.1 hw
    refine ⟨wlevel, windex, w, hwat, hwname, hwinner, ?_⟩
    intro level' index' k' hk' hname' hne
    rcases hgreatest (k', index') (mem_placedFrom_zero.2 ⟨level', hk'⟩) hname' with heq | hlt
    · -- The same placed candidate stands at one level only, since that is its depth.
      obtain ⟨rfl, rfl⟩ := Prod.mk.inj heq
      have hlevel : level' = wlevel := hk'.depth.symm.trans hwat.depth
      exact absurd (by rw [hlevel]) hne
    · exact hlt

/-- A method without arguments and results. -/
def plainMethod (name : String) : Method :=
  ⟨Text.ofString name, [], [], false, none⟩

/-- Two versions of an interface. The second one repeats both methods of the first, and has a form of
one of them whose name says a version newer than its own. -/
def repeatedOps : List Operation :=
  let package := Text.ofString "hw.foo"
  [.declareInterface ⟨package, ⟨1, 0⟩, [Text.ofString "IFoo"]⟩ none,
    .declareInterface ⟨package, ⟨1, 1⟩, [Text.ofString "IFoo"]⟩ none,
    .setSuper 2 1, .addMethod 1 (plainMethod "get"), .addMethod 1 (plainMethod "reset"),
    .addMethod 2 (plainMethod "get_2_0"), .addMethod 2 (plainMethod "reset"),
    .addMethod 2 (plainMethod "get")]

theorem repeatedOps_keep_greatest :
    (build repeatedOps).finish = .ok (build repeatedOps) ∧
      (build repeatedOps).isInterface 2 = true ∧
        ∃ m index, (build repeatedOps).chain 2 = .ok [2, 1, 0] ∧
          (build repeatedOps).merge 2 = .ok m ∧
          let newest : Candidate := ⟨plainMethod "get_2_0", 2, Text.ofString "get", ⟨2, 0⟩, 0⟩
          let repeated : Candidate := ⟨plainMethod "get", 2, Text.ofString "get", ⟨1, 1⟩, 0⟩
          m.winner? (Text.ofString "get") = some newest ∧
            (build repeatedOps).CompetesAt [2, 1, 0] 0 index newest ∧
            (build repeatedOps).CompetesAt [2, 1, 0] 0 2 repeated ∧
            ∀ level' index' k, (build repeatedOps).CompetesAt [2, 1, 0] level' index' k →
              k.name = Text.ofString "get" → (level', index') ≠ (0, index) →
                k.rank index' < newest.rank index := by
  have hfinish : (build repeatedOps).finish = .ok (build repeatedOps) := by decide
  have hid : (build repeatedOps).isInterface 2 = true := by decide
  obtain ⟨chain, m, hchain, hmerge, _, _, hkeeps⟩ := merge_keeps_greatest hfinish hid
  have hlist : (build repeatedOps).chain 2 = .ok [2, 1, 0] := by decide
  cases hchain.symm.trans hlist
  have hrepeated : (build repeatedOps).CompetesAt [2, 1, 0] 0 2
      ⟨plainMethod "get", 2, Text.ofString "get", ⟨1, 1⟩, 0⟩ :=
    competesAt_iff.2 ⟨2, rfl, by decide⟩
  have hheld : ((build repeatedOps).merge 2).map (fun m => m.winner? (Text.ofString "get")) =
      .ok (some ⟨plainMethod "get_2_0", 2, Text.ofString "get", ⟨2, 0⟩, 0⟩) := by decide
  rw [hmerge] at hheld
  obtain ⟨level, index, w, hw, _, hwinner, hgreatest⟩ :=
    hkeeps (Text.ofString "get") ⟨0, 2, _, hrepeated, rfl⟩
  obtain rfl := Option.some.inj (hwinner.symm.trans (Except.ok.inj hheld))
  obtain rfl : 0 = level := hw.depth
  exact ⟨hfinish, hid, m, index, hchain, hmerge, hwinner, hw, hrepeated, hgreatest⟩

end Catalogue

end FlatAidl
