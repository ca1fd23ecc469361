import FlatAidl.Flattening.Merge
import Mathlib.Data.List.Induction
import Mathlib.Data.List.Nodup

/-!
One insertion into a merge. It changes what is held under the inserted candidate's name only, and of
the two candidates that meet there one goes to the losers. So no name is held twice, and winners and
losers together are the candidates.
-/

namespace FlatAidl

namespace Merge

/-! ### The winner of a name -/

theorem winner?_eq_none_iff {m : Merge} {name : Text} :
    m.winner? name = none ↔ name ∉ m.winners.map Candidate.name := by
  simp [winner?]

theorem find?_replace (ws : List Candidate) (c : Candidate) (name : Text) :
    (replace ws c).find? (fun w => w.name == name) =
      if c.name = name then (ws.find? fun w => w.name == name).map fun _ => c
      else ws.find? fun w => w.name == name := by
  induction ws with
  | nil => simp [replace]
  | cons w ws ih =>
    by_cases hw : w.name = c.name
    · by_cases hn : c.name = name
      · simp [replace, hw, hn]
      · simpa [replace, hw, hn] using ih
    · by_cases hn : w.name = name
      · have hc : c.name ≠ name := fun heq => hw (hn.trans heq.symm)
        simp [replace, hn, hc, Ne.symm hc]
      · simpa [replace, hw, hn] using ih

/-! ### The three cases of an insertion -/

theorem insert_of_none {m : Merge} {c : Candidate} (h : m.winner? c.name = none) :
    m.insert c = ⟨m.winners ++ [c], m.collisions⟩ := by
  simp only [insert, h]

theorem insert_of_supersedes {m : Merge} {c current : Candidate}
    (h : m.winner? c.name = some current) (hs : c.supersedes current = true) :
    m.insert c = ⟨replace m.winners c, m.collisions ++ [⟨current, c, true⟩]⟩ := by
  simp only [insert, h, hs, if_true]

theorem insert_of_not_supersedes {m : Merge} {c current : Candidate}
    (h : m.winner? c.name = some current) (hs : c.supersedes current = false) :
    m.insert c = ⟨m.winners, m.collisions ++ [⟨c, current, false⟩]⟩ := by
  simp only [insert, h, hs, Bool.false_eq_true, if_false]

theorem winner?_insert (m : Merge) (c : Candidate) (name : Text) :
    (m.insert c).winner? name =
      if c.name = name then
        match m.winner? name with
        | none => some c
        | some current => if c.supersedes current then some c else some current
      else m.winner? name := by
  cases hw : m.winner? c.name with
  | none =>
    rw [insert_of_none hw]
    by_cases hn : c.name = name
    · subst hn
      have hfind : m.winners.find? (fun w => w.name == c.name) = none := hw
      simp [winner?, List.find?_append, hfind]
    · simp [winner?, List.find?_append, hn]
  | some current =>
    have hfind : m.winners.find? (fun w => w.name == c.name) = some current := hw
    cases hs : c.supersedes current with
    | true =>
      rw [insert_of_supersedes hw hs]
      by_cases hn : c.name = name
      · subst hn
        simp [winner?, hs, find?_replace, hfind]
      · simp [winner?, find?_replace, hn]
    | false =>
      rw [insert_of_not_supersedes hw hs]
      by_cases hn : c.name = name
      · subst hn
        simp [winner?, hs, hfind]
      · simp [winner?, hn]

/-! ### Names and losers -/

theorem names_replace (ws : List Candidate) (c : Candidate) :
    (replace ws c).map Candidate.name = ws.map Candidate.name := by
  rw [replace, List.map_map]
  apply List.map_congr_left
  intro w _
  by_cases hw : w.name = c.name
  · simp [hw]
  · simp [hw]

theorem nodup_names_insert {m : Merge} (h : (m.winners.map Candidate.name).Nodup) (c : Candidate) :
    ((m.insert c).winners.map Candidate.name).Nodup := by
  cases hw : m.winner? c.name with
  | none =>
    rw [insert_of_none hw, List.map_append, List.map_singleton]
    have hnew : ∀ a ∈ m.winners.map Candidate.name, ∀ b ∈ [c.name], a ≠ b := by
      rintro a ha b hb rfl
      rw [List.mem_singleton.1 hb] at ha
      exact winner?_eq_none_iff.1 hw ha
    exact List.nodup_append.2 ⟨h, List.nodup_singleton _, hnew⟩
  | some current =>
    cases hs : c.supersedes current with
    | true =>
      rw [insert_of_supersedes hw hs, names_replace]
      exact h
    | false =>
      rw [insert_of_not_supersedes hw hs]
      exact h

theorem replace_eq_self {ws : List Candidate} {c : Candidate}
    (h : c.name ∉ ws.map Candidate.name) : replace ws c = ws := by
  calc replace ws c = ws.map id := List.map_congr_left fun w hw => by
        have hne : w.name ≠ c.name := fun heq => h (heq ▸ List.mem_map_of_mem hw)
        simp [hne]
    _ = ws := List.map_id ws

/-- Replacing the holder of a name exchanges it for the new candidate. -/
theorem replace_perm {ws : List Candidate} {c current : Candidate}
    (hnodup : (ws.map Candidate.name).Nodup)
    (h : ws.find? (fun w => w.name == c.name) = some current) :
    (current :: replace ws c).Perm (c :: ws) := by
  induction ws with
  | nil => simp at h
  | cons w ws ih =>
    rw [List.map_cons, List.nodup_cons] at hnodup
    by_cases hw : w.name = c.name
    · obtain rfl : w = current := by simpa [hw] using h
      rw [hw] at hnodup
      have hhead : replace (w :: ws) c = c :: replace ws c := by simp [replace, hw]
      rw [hhead, replace_eq_self hnodup.1]
      exact .swap c w ws
    · have hfind : ws.find? (fun v => v.name == c.name) = some current := by simpa [hw] using h
      have hhead : replace (w :: ws) c = w :: replace ws c := by simp [replace, hw]
      rw [hhead]
      calc List.Perm (current :: w :: replace ws c) (w :: current :: replace ws c) := .swap ..
        List.Perm _ (w :: c :: ws) := .cons w (ih hnodup.2 hfind)
        List.Perm _ (c :: w :: ws) := .swap ..

/-- An insertion loses no candidate and keeps none twice. -/
theorem insert_perm {m : Merge} (hnodup : (m.winners.map Candidate.name).Nodup) (c : Candidate) :
    ((m.insert c).ignored ++ (m.insert c).winners).Perm (m.ignored ++ (c :: m.winners)) := by
  cases hw : m.winner? c.name with
  | none =>
    rw [insert_of_none hw]
    exact List.Perm.append_left _ (List.perm_append_singleton c m.winners)
  | some current =>
    cases hs : c.supersedes current with
    | true =>
      rw [insert_of_supersedes hw hs]
      simp only [ignored, List.map_append, List.map_singleton, List.append_assoc,
        List.singleton_append]
      exact List.Perm.append_left _ (replace_perm hnodup hw)
    | false =>
      rw [insert_of_not_supersedes hw hs]
      simp only [ignored, List.map_append, List.map_singleton, List.append_assoc,
        List.singleton_append]
      exact List.Perm.refl _

/-! ### The merge of candidates -/

theorem ofCandidates_concat (cs : List Candidate) (c : Candidate) :
    ofCandidates (cs ++ [c]) = (ofCandidates cs).insert c := by
  simp only [ofCandidates, List.foldl_concat]

theorem nodup_names (cs : List Candidate) :
    ((ofCandidates cs).winners.map Candidate.name).Nodup := by
  induction cs using List.reverseRecOn with
  | nil => exact List.nodup_nil
  | append_singleton cs c ih =>
    rw [ofCandidates_concat]
    exact nodup_names_insert ih c

/-- Losers and winners together are the candidates. -/
theorem ignored_append_winners_perm (cs : List Candidate) :
    ((ofCandidates cs).ignored ++ (ofCandidates cs).winners).Perm cs := by
  induction cs using List.reverseRecOn with
  | nil => exact List.Perm.refl _
  | append_singleton cs c ih =>
    rw [ofCandidates_concat]
    calc List.Perm _ ((ofCandidates cs).ignored ++ (c :: (ofCandidates cs).winners)) :=
          insert_perm (nodup_names cs) c
      List.Perm _ (c :: ((ofCandidates cs).ignored ++ (ofCandidates cs).winners)) :=
          List.perm_middle
      List.Perm _ (c :: cs) := .cons c ih
      List.Perm _ (cs ++ [c]) := (List.perm_append_singleton c cs).symm

theorem mem_of_mem_winners {cs : List Candidate} {k : Candidate}
    (h : k ∈ (ofCandidates cs).winners) : k ∈ cs :=
  (ignored_append_winners_perm cs).subset (List.mem_append_right _ h)

theorem mem_of_mem_ignored {cs : List Candidate} {k : Candidate}
    (h : k ∈ (ofCandidates cs).ignored) : k ∈ cs :=
  (ignored_append_winners_perm cs).subset (List.mem_append_left _ h)

end Merge

end FlatAidl
