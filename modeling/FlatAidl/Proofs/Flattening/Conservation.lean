import FlatAidl.Proofs.Flattening.Greatest
import FlatAidl.Proofs.Occurrence
import Mathlib.Data.List.MinMax

/-!
What becomes of all methods of a chain. Every one of them stays or is put aside, and none twice: a
collision moves one of the two candidates that meet to the ignored ones and leaves the key of their
name where it was. Main statement: winners and ignored candidates together are the methods of all
levels, the keys are the canonical names in the order of their first occurrence, and the ignored
candidates are the losers of the collisions in the order in which these happen.
-/

namespace FlatAidl

namespace Merge

/-! ### Names in the order of their first occurrence -/

theorem names_insert (m : Merge) (c : Candidate) :
    (m.insert c).winners.map Candidate.name =
      if c.name ∈ m.winners.map Candidate.name then m.winners.map Candidate.name
      else m.winners.map Candidate.name ++ [c.name] := by
  cases hw : m.winner? c.name with
  | none =>
    rw [insert_of_none hw, if_neg (winner?_eq_none_iff.1 hw), List.map_append, List.map_singleton]
  | some current =>
    have hmem : c.name ∈ m.winners.map Candidate.name := by
      by_contra hnot
      rw [winner?_eq_none_iff.2 hnot] at hw
      cases hw
    rw [if_pos hmem]
    cases hs : c.supersedes current with
    | true => rw [insert_of_supersedes hw hs, names_replace]
    | false => rw [insert_of_not_supersedes hw hs]

/-- Names keep the place of their first candidate, whichever candidates take them over later. -/
theorem names_ofCandidates (cs : List Candidate) :
    (ofCandidates cs).winners.map Candidate.name = (cs.map Candidate.name).eraseDups := by
  induction cs using List.reverseRecOn with
  | nil => rfl
  | append_singleton cs c ih =>
    rw [ofCandidates_concat, names_insert, ih, List.map_append, List.map_singleton,
      Occurrence.eraseDups_concat]
    simp only [List.mem_eraseDups]

/-! ### Keys apart from values -/

/-- A merge whose winners stand under keys of their own. A value that takes the place of another one
takes over its key as it is. -/
structure Keyed where
  entries : List (Text × Candidate)
  ignored : List Candidate

namespace Keyed

def value? (m : Keyed) (key : Text) : Option Candidate :=
  (m.entries.find? fun entry => entry.1 == key).map Prod.snd

def exchange (entries : List (Text × Candidate)) (key : Text) (c : Candidate) :
    List (Text × Candidate) :=
  entries.map fun entry => if entry.1 = key then (entry.1, c) else entry

def insert (m : Keyed) (c : Candidate) : Keyed :=
  match m.value? c.name with
  | none => { m with entries := m.entries ++ [(c.name, c)] }
  | some current =>
    if c.supersedes current then ⟨exchange m.entries c.name c, m.ignored ++ [current]⟩
    else { m with ignored := m.ignored ++ [c] }

def ofCandidates (cs : List Candidate) : Keyed :=
  cs.foldl insert ⟨[], []⟩

end Keyed

def keyed (m : Merge) : Keyed :=
  ⟨m.winners.map fun w => (w.name, w), m.ignored⟩

theorem value?_keyed (m : Merge) (key : Text) : m.keyed.value? key = m.winner? key := by
  simp [Keyed.value?, keyed, winner?, Function.comp_def]

theorem exchange_keyed (ws : List Candidate) (c : Candidate) :
    Keyed.exchange (ws.map fun w => (w.name, w)) c.name c =
      (replace ws c).map fun w => (w.name, w) := by
  rw [Keyed.exchange, replace, List.map_map, List.map_map]
  refine List.map_congr_left fun w _ => ?_
  by_cases hw : w.name = c.name
  · simp [hw]
  · simp [hw]

theorem insert_keyed (m : Merge) (c : Candidate) : m.keyed.insert c = (m.insert c).keyed := by
  rw [Keyed.insert, value?_keyed]
  cases hw : m.winner? c.name with
  | none =>
    rw [insert_of_none hw]
    simp [keyed, ignored]
  | some current =>
    cases hs : c.supersedes current with
    | true =>
      rw [insert_of_supersedes hw hs]
      simp [keyed, ignored, hs, exchange_keyed]
    | false =>
      rw [insert_of_not_supersedes hw hs]
      simp [keyed, ignored, hs]

/-- Keys that are kept apart from the values are the names of the values. -/
theorem keyed_ofCandidates (cs : List Candidate) :
    Keyed.ofCandidates cs = (ofCandidates cs).keyed := by
  induction cs using List.reverseRecOn with
  | nil => rfl
  | append_singleton cs c ih =>
    rw [ofCandidates_concat, ← insert_keyed, ← ih, Keyed.ofCandidates, List.foldl_concat,
      Keyed.ofCandidates]

/-! ### Losers -/

def rankOf (e : Candidate × Nat) : (ℕ ×ₗ ℕ) ×ₗ ℕᵒᵈ ×ₗ ℕ :=
  e.1.rank e.2

/-- Who holds a name after candidates: the greatest of those with this name. -/
def holder? (es : List (Candidate × Nat)) (name : Text) : Option (Candidate × Nat) :=
  (es.filter fun e => e.1.name == name).argmax rankOf

/-- The loser of the collision that the candidate at a place of the walk causes, if one before it
has its name: of the holder of the name and the candidate itself the lesser one. -/
def loser? (es : List (Candidate × Nat)) (place : Nat) : Option Candidate := do
  let e ← es[place]?
  let holder ← holder? (es.take place) e.1.name
  return if rankOf holder < rankOf e then holder.1 else e.1

theorem mem_of_holder? {es : List (Candidate × Nat)} {name : Text} {e : Candidate × Nat}
    (h : holder? es name = some e) : e ∈ es :=
  List.mem_of_mem_filter (List.argmax_mem h)

theorem holder?_concat (es : List (Candidate × Nat)) (e : Candidate × Nat) (name : Text) :
    holder? (es ++ [e]) name =
      if e.1.name = name then
        match holder? es name with
        | none => some e
        | some h => if rankOf h < rankOf e then some e else some h
      else holder? es name := by
  by_cases hn : e.1.name = name
  · have hfilter : (es ++ [e]).filter (fun e => e.1.name == name) =
        (es.filter fun e => e.1.name == name) ++ [e] := by simp [hn]
    rw [holder?, hfilter, List.argmax_concat, if_pos hn, holder?]
    cases List.argmax rankOf (es.filter fun e => e.1.name == name) with
    | none => rfl
    | some h => rfl
  · have hfilter : (es ++ [e]).filter (fun e => e.1.name == name) =
        es.filter fun e => e.1.name == name := by simp [hn]
    rw [holder?, hfilter, if_neg hn, holder?]

open Candidate in
/-- Along the walk the merge keeps for each name the greatest candidate so far. -/
theorem winner?_eq_holder? {es : List (Candidate × Nat)} (h : es.Pairwise Precedes) (name : Text) :
    (ofCandidates (es.map Prod.fst)).winner? name = (holder? es name).map Prod.fst := by
  induction es using List.reverseRecOn with
  | nil => rfl
  | append_singleton es e ih =>
    obtain ⟨hes, _, hlast⟩ := List.pairwise_append.1 h
    rw [List.map_append, List.map_singleton, ofCandidates_concat, winner?_insert, ih hes,
      holder?_concat]
    by_cases hn : e.1.name = name
    · rw [if_pos hn, if_pos hn]
      cases hh : holder? es name with
      | none => rfl
      | some k =>
        have hiff : e.1.supersedes k.1 = true ↔ rankOf k < rankOf e :=
          supersedes_iff (hlast k (mem_of_holder? hh) e (List.mem_singleton_self e))
        by_cases hlt : rankOf k < rankOf e
        · simp [hlt, hiff.2 hlt]
        · simp [hlt, mt hiff.1 hlt]
    · rw [if_neg hn, if_neg hn]

theorem ignored_insert (m : Merge) (c : Candidate) :
    (m.insert c).ignored = m.ignored ++
      ((m.winner? c.name).map fun current =>
        if c.supersedes current then current else c).toList := by
  cases hw : m.winner? c.name with
  | none =>
    rw [insert_of_none hw]
    simp [ignored]
  | some current =>
    cases hs : c.supersedes current with
    | true =>
      rw [insert_of_supersedes hw hs]
      simp [ignored, hs]
    | false =>
      rw [insert_of_not_supersedes hw hs]
      simp [ignored, hs]

theorem loser?_append {es : List (Candidate × Nat)} (rest : List (Candidate × Nat)) {place : Nat}
    (h : place < es.length) : loser? (es ++ rest) place = loser? es place := by
  simp only [loser?, List.getElem?_append_left h, List.take_append_of_le_length (Nat.le_of_lt h)]

theorem loser?_length (es : List (Candidate × Nat)) (e : Candidate × Nat) :
    loser? (es ++ [e]) es.length =
      (holder? es e.1.name).map fun k => if rankOf k < rankOf e then k.1 else e.1 := by
  simp only [loser?, List.getElem?_append_right (Nat.le_refl _), Nat.sub_self,
    List.getElem?_cons_zero, List.take_left, Option.bind_eq_bind, Option.bind_some]
  cases holder? es e.1.name with
  | none => rfl
  | some k => rfl

open Candidate in
/-- Collision by collision the lesser of the two candidates that meet is put aside. -/
theorem ignored_ofCandidates {es : List (Candidate × Nat)} (h : es.Pairwise Precedes) :
    (ofCandidates (es.map Prod.fst)).ignored =
      (List.range es.length).filterMap (loser? es) := by
  induction es using List.reverseRecOn with
  | nil => rfl
  | append_singleton es e ih =>
    obtain ⟨hes, _, hlast⟩ := List.pairwise_append.1 h
    have hbefore : (List.range es.length).filterMap (loser? (es ++ [e])) =
        (List.range es.length).filterMap (loser? es) :=
      List.filterMap_congr fun place hplace => loser?_append [e] (List.mem_range.1 hplace)
    rw [List.map_append, List.map_singleton, ofCandidates_concat, ignored_insert, ih hes,
      winner?_eq_holder? hes, List.length_append, List.length_singleton, List.range_succ,
      List.filterMap_append, hbefore]
    congr 1
    rw [List.filterMap_cons, loser?_length]
    cases hh : holder? es e.1.name with
    | none => rfl
    | some k =>
      have hiff : e.1.supersedes k.1 = true ↔ rankOf k < rankOf e :=
        supersedes_iff (hlast k (mem_of_holder? hh) e (List.mem_singleton_self e))
      by_cases hlt : rankOf k < rankOf e
      · simp [hlt, hiff.2 hlt]
      · simp [hlt, mt hiff.1 hlt]

end Merge

namespace Catalogue

variable {c : Catalogue}

/-! ### The methods of a chain -/

/-- The methods of an interface at a depth, each tagged with the interface, its canonical name, its
effective version and the depth, and numbered in the order of declaration. -/
def taggedAt (c : Catalogue) (id : DeclId) (depth : Nat) : List (Candidate × Nat) :=
  match c.get? id with
  | some ⟨name, _, .interface members, _, _⟩ =>
    members.methods.zipIdx.map fun (method, index) =>
      ({ method, declaredIn := id, name := Candidate.canonicalName method.name,
         version := Candidate.effectiveVersion method.name name.version, depth }, index)
  | _ => []

/-- All methods of a chain with their tags, from the most derived level on. -/
def taggedMethods (c : Catalogue) (chain : List DeclId) : List (Candidate × Nat) :=
  chain.zipIdx.flatMap fun (id, depth) => c.taggedAt id depth

theorem zipIdx_candidatesAt (id : DeclId) (depth : Nat) :
    (c.candidatesAt id depth).zipIdx = c.taggedAt id depth := by
  unfold candidatesAt taggedAt
  cases c.get? id with
  | none => rfl
  | some d =>
    obtain ⟨name, doc, body, nested, parent⟩ := d
    cases body with
    | compound members => rfl
    | interface members => exact List.zipIdx_map

theorem placedFrom_eq (depth : Nat) (chain : List DeclId) :
    c.placedFrom depth chain =
      (chain.zipIdx depth).flatMap fun (id, depth) => c.taggedAt id depth := by
  induction chain generalizing depth with
  | nil => rfl
  | cons id rest ih => rw [placedFrom, zipIdx_candidatesAt, ih, List.zipIdx_cons, List.flatMap_cons]

theorem name_of_mem_taggedMethods {chain : List DeclId} {e : Candidate × Nat}
    (h : e ∈ c.taggedMethods chain) : e.1.name = Candidate.canonicalName e.1.method.name := by
  obtain ⟨⟨id, depth⟩, _, he⟩ := List.mem_flatMap.1 h
  dsimp only [taggedAt] at he
  split at he
  · obtain ⟨⟨method, index⟩, _, rfl⟩ := List.mem_map.1 he
    rfl
  · cases he

/-- The merge of an interface loses and repeats no method. The winners and the ignored candidates
are all methods of the chain with their tags, the names and versions being those that the methods
compete with; the winners stand under keys that are their canonical
names, each once and in the order in which these first occur; and the ignored candidates are the
losers of the collisions, one after another. -/
theorem merge_loses_and_repeats_nothing {ops : List Operation} {c : Catalogue}
    (h : (build ops).finish = .ok c) {id : DeclId} (hid : c.isInterface id = true) :
    ∃ chain m, c.chain id = .ok chain ∧ c.merge id = .ok m ∧
      (∀ k index, (k, index) ∈ c.taggedMethods chain ↔
        ∃ level, c.CompetesAt chain level index k) ∧
      (m.winners ++ m.ignored).Perm ((c.taggedMethods chain).map Prod.fst) ∧
      Merge.Keyed.ofCandidates ((c.taggedMethods chain).map Prod.fst) =
        ⟨m.winners.map fun w => (Candidate.canonicalName w.method.name, w), m.ignored⟩ ∧
      (m.winners.map fun w => Candidate.canonicalName w.method.name).Nodup ∧
      (m.winners.map fun w => Candidate.canonicalName w.method.name) =
        ((c.taggedMethods chain).map fun e =>
          Candidate.canonicalName e.1.method.name).eraseDups ∧
      m.ignored = (List.range (c.taggedMethods chain).length).filterMap
        (Merge.loser? (c.taggedMethods chain)) := by
  obtain ⟨rfl, hacyclic⟩ := finish_eq_ok_iff.1 h
  obtain ⟨chain, hchain, _⟩ := (built_build ops).rooted.exists_chain hacyclic hid
  have htagged : (build ops).placedFrom 0 chain = (build ops).taggedMethods chain :=
    placedFrom_eq 0 chain
  have hcandidates : (build ops).candidatesFrom 0 chain =
      ((build ops).taggedMethods chain).map Prod.fst := by
    rw [← htagged, map_fst_placedFrom]
  have hordered := pairwise_placedFrom (c := build ops) 0 chain
  rw [htagged] at hordered
  have hnames := Merge.names_ofCandidates (((build ops).taggedMethods chain).map Prod.fst)
  have hnodup := Merge.nodup_names (((build ops).taggedMethods chain).map Prod.fst)
  have hperm := Merge.ignored_append_winners_perm (((build ops).taggedMethods chain).map Prod.fst)
  have hkeyed := Merge.keyed_ofCandidates (((build ops).taggedMethods chain).map Prod.fst)
  have hignored := Merge.ignored_ofCandidates hordered
  have hmerge : (build ops).merge id =
      .ok (Merge.ofCandidates (((build ops).taggedMethods chain).map Prod.fst)) := by
    rw [merge, hchain, ← hcandidates]
    rfl
  generalize hm : Merge.ofCandidates (((build ops).taggedMethods chain).map Prod.fst) = m at *
  have hcanonical : ∀ w ∈ m.winners, w.name = Candidate.canonicalName w.method.name := by
    intro w hw
    rw [← hm] at hw
    obtain ⟨e, he, rfl⟩ := List.mem_map.1 (Merge.mem_of_mem_winners hw)
    exact name_of_mem_taggedMethods he
  have hkeys : m.winners.map Candidate.name =
      m.winners.map fun w => Candidate.canonicalName w.method.name :=
    List.map_congr_left hcanonical
  have hplaces : ∀ k index, (k, index) ∈ (build ops).taggedMethods chain ↔
      ∃ level, (build ops).CompetesAt chain level index k := by
    intro k index
    rw [← htagged]
    exact mem_placedFrom_zero
  refine ⟨chain, m, hchain, hmerge, hplaces, List.perm_append_comm.trans hperm, ?_, ?_, ?_, hignored⟩
  · rw [hkeyed, Merge.keyed]
    congr 1
    exact List.map_congr_left fun w hw => by rw [hcanonical w hw]
  · rw [← hkeys]
    exact hnodup
  · rw [← hkeys, hnames, List.map_map]
    congr 1
    exact List.map_congr_left fun e he => name_of_mem_taggedMethods he

theorem repeatedOps_lose_and_repeat_nothing :
    (build repeatedOps).finish = .ok (build repeatedOps) ∧
      (build repeatedOps).isInterface 2 = true ∧
        ∃ m level, (build repeatedOps).merge 2 = .ok m ∧
          (build repeatedOps).CompetesAt [2, 1, 0] level 0
            ⟨plainMethod "get_2_0", 2, Text.ofString "get", ⟨2, 0⟩, 0⟩ ∧
          (m.winners ++ m.ignored).Perm (((build repeatedOps).taggedMethods [2, 1, 0]).map Prod.fst) ∧
          (m.winners.map fun w => Candidate.canonicalName w.method.name) =
            [Text.ofString "get", Text.ofString "reset"] ∧
          (m.ignored.map fun k => (k.method.name, k.declaredIn)) =
            [(Text.ofString "get", 2), (Text.ofString "get", 1), (Text.ofString "reset", 1)] := by
  have hfinish : (build repeatedOps).finish = .ok (build repeatedOps) := by decide
  have hid : (build repeatedOps).isInterface 2 = true := by decide
  obtain ⟨chain, m, hchain, hmerge, hplaces, hperm, _, _, hkeys, hignored⟩ :=
    merge_loses_and_repeats_nothing hfinish hid
  have hlist : (build repeatedOps).chain 2 = .ok [2, 1, 0] := by decide
  cases hchain.symm.trans hlist
  obtain ⟨level, hnewest⟩ :=
    (hplaces ⟨plainMethod "get_2_0", 2, Text.ofString "get", ⟨2, 0⟩, 0⟩ 0).1 (by decide)
  refine ⟨hfinish, hid, m, level, hmerge, hnewest, hperm, ?_, ?_⟩
  · rw [hkeys]
    decide
  · rw [hignored]
    decide

end Catalogue

end FlatAidl
