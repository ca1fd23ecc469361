import FlatAidl.Proofs.Flattening.Conservation

/-!
Flattening one interface at a time. The merge of an interface is decided by its own methods and the
merge of the interface that it extends: own names come first, and a method from further up holds a
name against an own one by a newer version only. Main statement: this equation between the two merges,
and what follows from it along the whole chain, that no name is lost and no version goes back.
-/

namespace FlatAidl

theorem Version.newer_iff_lt {v w : Version} :
    v.newer w = true ↔ w.major < v.major ∨ v.major = w.major ∧ w.minor < v.minor := by
  simp [newer]

namespace Candidate

/-- A candidate as the next interface down the chain sees it. -/
def deeper (k : Candidate) : Candidate :=
  { k with depth := k.depth + 1 }

theorem supersedes_deeper (a b : Candidate) : a.deeper.supersedes b.deeper = a.supersedes b := by
  simp [supersedes, deeper]

theorem newer_or_eq_of_supersedes {a b : Candidate} (h : a.supersedes b = true) :
    a.version.newer b.version = true ∨ a.version = b.version := by
  by_cases hv : a.version = b.version
  · exact Or.inr hv
  · rw [supersedes, if_neg hv] at h
    exact Or.inl h

theorem not_newer_of_not_supersedes {a b : Candidate} (h : a.supersedes b = false) :
    a.version.newer b.version = false := by
  by_cases hv : a.version = b.version
  · simp [hv, Version.newer]
  · rw [supersedes, if_neg hv] at h
    exact h

theorem supersedes_of_deeper {a b : Candidate} (h : b.depth < a.depth) :
    a.supersedes b = a.version.newer b.version := by
  rw [supersedes]
  by_cases hv : a.version = b.version
  · have hdepth : ¬ a.depth ≤ b.depth := by omega
    simp [hv, hdepth, Version.newer]
  · rw [if_neg hv]

end Candidate

namespace Merge

open Candidate

/-! ### Candidates from further up -/

/-- Who holds a name after a candidate has met its holder. -/
def contest (k : Candidate) : Option Candidate → Candidate
  | none => k
  | some current => if k.supersedes current then k else current

theorem winner?_insert_self (m : Merge) (k : Candidate) :
    (m.insert k).winner? k.name = some (contest k (m.winner? k.name)) := by
  rw [winner?_insert, if_pos rfl]
  cases m.winner? k.name with
  | none => rfl
  | some current =>
    cases hs : k.supersedes current with
    | true => simp [contest, hs]
    | false => simp [contest, hs]

theorem winner?_insert_other (m : Merge) {k : Candidate} {name : Text} (h : k.name ≠ name) :
    (m.insert k).winner? name = m.winner? name := by
  rw [winner?_insert, if_neg h]

theorem contest_deeper (k : Candidate) (above : Option Candidate) :
    contest k.deeper (above.map deeper) = (contest k above).deeper := by
  cases above with
  | none => rfl
  | some w =>
    cases hs : k.supersedes w with
    | true => simp [contest, supersedes_deeper, hs]
    | false => simp [contest, supersedes_deeper, hs]

theorem winner?_map_deeper (cs : List Candidate) (name : Text) :
    (ofCandidates (cs.map deeper)).winner? name = ((ofCandidates cs).winner? name).map deeper := by
  induction cs using List.reverseRecOn with
  | nil => rfl
  | append_singleton cs k ih =>
    rw [List.map_append, List.map_singleton, ofCandidates_concat, ofCandidates_concat]
    by_cases hk : k.name = name
    · subst hk
      have hself := winner?_insert_self (ofCandidates (cs.map deeper)) k.deeper
      rw [winner?_insert_self, Option.map_some, ← contest_deeper, ← ih]
      exact hself
    · have hk' : k.deeper.name ≠ name := hk
      rw [winner?_insert_other _ hk, winner?_insert_other _ hk', ih]

/-- Who holds a name that an interface and those further up may both have. -/
def holderOf (own above : Option Candidate) : Option Candidate :=
  match own, above with
  | none, above => above
  | some b, none => some b
  | some b, some w => if w.version.newer b.version then some w else some b

/-- One more candidate from further up meets the holder of its name as it meets the others from
there. -/
theorem holderOf_contest {own : Option Candidate} {k : Candidate} (above : Option Candidate)
    (h : ∀ b, own = some b → b.depth < k.depth) :
    some (contest k (holderOf own above)) = holderOf own (some (contest k above)) := by
  cases own with
  | none => rfl
  | some b =>
    have hb : k.supersedes b = k.version.newer b.version := supersedes_of_deeper (h b rfl)
    cases above with
    | none =>
      simp only [holderOf, contest, hb]
      exact apply_ite some _ k b
    | some w =>
      -- Versions are compared in a line, so the newest of the three holds the name either way.
      cases hs : k.supersedes w with
      | true =>
        have hkw := newer_or_eq_of_supersedes hs
        cases hw : w.version.newer b.version with
        | true =>
          have hkb : k.version.newer b.version = true := by
            rcases hkw with hlt | heq
            · rw [Version.newer_iff_lt] at hlt hw ⊢
              omega
            · rw [heq, hw]
          simp [holderOf, contest, hw, hs, hkb]
        | false =>
          simp only [holderOf, contest, hw, hs, hb, if_true, Bool.false_eq_true, if_false]
          exact apply_ite some _ k b
      | false =>
        cases hw : w.version.newer b.version with
        | true => simp [holderOf, contest, hw, hs]
        | false =>
          have hkb : k.version.newer b.version = false := by
            have hkw := not_newer_of_not_supersedes hs
            rw [← Bool.not_eq_true, Version.newer_iff_lt] at hkw hw ⊢
            omega
          simp [holderOf, contest, hw, hs, hb, hkb]

/-- Candidates of two levels, the deeper ones behind the others, are merged level by level. -/
theorem winner?_append {own above : List Candidate}
    (h : ∀ b ∈ own, ∀ k ∈ above, b.depth < k.depth) (name : Text) :
    (ofCandidates (own ++ above)).winner? name =
      holderOf ((ofCandidates own).winner? name) ((ofCandidates above).winner? name) := by
  induction above using List.reverseRecOn with
  | nil =>
    rw [List.append_nil]
    cases (ofCandidates own).winner? name with
    | none => rfl
    | some b => rfl
  | append_singleton above k ih =>
    have hbefore : ∀ b ∈ own, ∀ w ∈ above, b.depth < w.depth := fun b hb w hw =>
      h b hb w (List.mem_append_left _ hw)
    have hown : ∀ b, (ofCandidates own).winner? name = some b → b.depth < k.depth := by
      intro b hb
      have hmem := mem_of_mem_winners (List.mem_of_find?_eq_some hb)
      exact h b hmem k (by simp)
    rw [← List.append_assoc, ofCandidates_concat, ofCandidates_concat]
    by_cases hk : k.name = name
    · subst hk
      rw [winner?_insert_self, winner?_insert_self, ih hbefore, holderOf_contest _ hown]
    · rw [winner?_insert_other _ hk, winner?_insert_other _ hk, ih hbefore]

/-- Whether a merge keeps all names of another one and no older version under any of them. -/
def Upholds (m far : Merge) : Prop :=
  ∀ name w, far.winner? name = some w →
    ∃ w', m.winner? name = some w' ∧ w.version.newer w'.version = false

theorem Upholds.trans {m near far : Merge} (h : m.Upholds near) (h' : near.Upholds far) :
    m.Upholds far := by
  intro name w hw
  obtain ⟨v, hv, hwv⟩ := h' name w hw
  obtain ⟨u, hu, hvu⟩ := h name v hv
  refine ⟨u, hu, ?_⟩
  rw [← Bool.not_eq_true, Version.newer_iff_lt] at hwv hvu ⊢
  omega

end Merge

namespace Catalogue

variable {c : Catalogue}

/-! ### An interface and what it extends -/

theorem candidatesAt_succ (id : DeclId) (depth : Nat) :
    c.candidatesAt id (depth + 1) = (c.candidatesAt id depth).map Candidate.deeper := by
  unfold candidatesAt
  cases c.get? id with
  | none => rfl
  | some d =>
    cases hb : d.body with
    | compound members => simp [hb]
    | interface members =>
      simp only [hb, List.map_map]
      rfl

theorem candidatesFrom_succ (depth : Nat) (chain : List DeclId) :
    c.candidatesFrom (depth + 1) chain = (c.candidatesFrom depth chain).map Candidate.deeper := by
  induction chain generalizing depth with
  | nil => rfl
  | cons id rest ih =>
    rw [candidatesFrom, candidatesFrom, candidatesAt_succ, ih, List.map_append]

/-- The canonical names of an interface's own methods, in the order of declaration. -/
def ownNames (c : Catalogue) (id : DeclId) : List Text :=
  (c.taggedAt id 0).map fun e => e.1.name

/-- The own method of an interface that is the newest of its name, and of several such the last. -/
def IsBestOwn (c : Catalogue) (id : DeclId) (name : Text) (b : Candidate) : Prop :=
  ∃ place, (b, place) ∈ c.taggedAt id 0 ∧ b.name = name ∧
    ∀ e ∈ c.taggedAt id 0, e.1.name = name → e ≠ (b, place) →
      b.version.newer e.1.version = true ∨ e.1.version = b.version ∧ e.2 < place

theorem map_fst_taggedAt (id : DeclId) (depth : Nat) :
    (c.taggedAt id depth).map Prod.fst = c.candidatesAt id depth := by
  rw [← zipIdx_candidatesAt, List.zipIdx_map_fst]

theorem names_candidatesAt (id : DeclId) :
    (c.candidatesAt id 0).map Candidate.name = c.ownNames id := by
  rw [← map_fst_taggedAt, List.map_map, ownNames]
  rfl

theorem depth_of_mem_taggedAt {id : DeclId} {depth : Nat} {e : Candidate × Nat}
    (h : e ∈ c.taggedAt id depth) : e.1.depth = depth := by
  have hmem : e.1 ∈ c.candidatesAt id depth := by
    rw [← map_fst_taggedAt]
    exact List.mem_map_of_mem h
  exact depth_of_mem_candidatesAt hmem

/-- Among its own methods alone an interface's best one of a name holds it. -/
theorem exists_bestOwn {id : DeclId} {name : Text} (h : name ∈ c.ownNames id) :
    ∃ b, c.IsBestOwn id name b ∧
      (Merge.ofCandidates (c.candidatesAt id 0)).winner? name = some b := by
  have hplaced : c.placedFrom 0 [id] = c.taggedAt id 0 := by
    rw [placedFrom, placedFrom, List.append_nil, zipIdx_candidatesAt]
  have hordered := pairwise_placedFrom (c := c) 0 [id]
  rw [hplaced] at hordered
  obtain ⟨e, he, hname⟩ := List.mem_map.1 h
  obtain ⟨w, hw, hwname, hwinner, hgreatest⟩ := Merge.winner?_greatest hordered ⟨e, he, hname⟩
  rw [map_fst_taggedAt] at hwinner
  refine ⟨w.1, ⟨w.2, hw, hwname, fun e he hename hne => ?_⟩, hwinner⟩
  rcases hgreatest e he hename with heq | hlt
  · exact absurd heq hne
  · have hdepth : e.1.depth = w.1.depth := by
      rw [depth_of_mem_taggedAt he, depth_of_mem_taggedAt hw]
    rcases Candidate.rank_lt_rank.1 hlt with hnewer | ⟨hversion, hplace⟩
    · exact Or.inl hnewer
    · exact Or.inr ⟨hversion, by omega⟩

theorem winner?_eq_none_of_not_own {id : DeclId} {name : Text} (h : name ∉ c.ownNames id) :
    (Merge.ofCandidates (c.candidatesAt id 0)).winner? name = none := by
  rw [Merge.winner?_eq_none_iff, Merge.names_ofCandidates, List.mem_eraseDups, names_candidatesAt]
  exact h

/-- The merge of an interface, given the merge of what it extends. -/
theorem merge_of_super? {id p : DeclId} {chain : List DeclId} (hp : c.super? id = some p)
    (h : c.chain id = .ok chain) : ∃ cs, c.merge p = .ok (Merge.ofCandidates cs) ∧
      c.merge id = .ok (Merge.ofCandidates (c.candidatesAt id 0 ++ cs.map Candidate.deeper)) := by
  obtain ⟨rest, hrest, hchain⟩ := exists_chain_of_super? hp h
  refine ⟨c.candidatesFrom 0 rest, ?_, ?_⟩
  · rw [merge, hrest]
    rfl
  · rw [merge, h, hchain, ← candidatesFrom_succ]
    rfl

theorem winner?_of_super? (id : DeclId) (cs : List Candidate) (name : Text) :
    (Merge.ofCandidates (c.candidatesAt id 0 ++ cs.map Candidate.deeper)).winner? name =
      Merge.holderOf ((Merge.ofCandidates (c.candidatesAt id 0)).winner? name)
        (((Merge.ofCandidates cs).winner? name).map Candidate.deeper) := by
  rw [Merge.winner?_append, Merge.winner?_map_deeper]
  intro b hb k hk
  obtain ⟨w, _, rfl⟩ := List.mem_map.1 hk
  rw [depth_of_mem_candidatesAt hb]
  exact Nat.succ_pos w.depth

/-- Under a name of its own an interface has its best own method, unless a newer one is further up. -/
theorem winner?_of_own {id : DeclId} {name : Text} (cs : List Candidate)
    (h : name ∈ c.ownNames id) :
    ∃ b, c.IsBestOwn id name b ∧
      ((∃ w, (Merge.ofCandidates cs).winner? name = some w ∧ w.version.newer b.version = true ∧
          (Merge.ofCandidates (c.candidatesAt id 0 ++ cs.map Candidate.deeper)).winner? name =
            some w.deeper) ∨
        (∀ w, (Merge.ofCandidates cs).winner? name = some w → w.version.newer b.version = false) ∧
          (Merge.ofCandidates (c.candidatesAt id 0 ++ cs.map Candidate.deeper)).winner? name =
            some b) := by
  obtain ⟨b, hbest, hb⟩ := exists_bestOwn h
  refine ⟨b, hbest, ?_⟩
  rw [winner?_of_super?, hb]
  cases (Merge.ofCandidates cs).winner? name with
  | none =>
    refine Or.inr ⟨fun w hw => ?_, rfl⟩
    cases hw
  | some w =>
    have hversion : w.deeper.version = w.version := rfl
    cases hnewer : w.version.newer b.version with
    | true => exact Or.inl ⟨w, rfl, hnewer, by simp [Merge.holderOf, hversion, hnewer]⟩
    | false =>
      refine Or.inr ⟨fun v hv => ?_, by simp [Merge.holderOf, hversion, hnewer]⟩
      rw [← Option.some.inj hv]
      exact hnewer

theorem upholds_of_super? (id : DeclId) (cs : List Candidate) :
    (Merge.ofCandidates (c.candidatesAt id 0 ++ cs.map Candidate.deeper)).Upholds
      (Merge.ofCandidates cs) := by
  intro name w hw
  rw [winner?_of_super?, hw, Option.map_some]
  have hself : w.version.newer w.version = false := by simp [Version.newer]
  cases (Merge.ofCandidates (c.candidatesAt id 0)).winner? name with
  | none => exact ⟨w.deeper, rfl, hself⟩
  | some b =>
    cases hnewer : w.deeper.version.newer b.version with
    | true => exact ⟨w.deeper, by simp [Merge.holderOf, hnewer], hself⟩
    | false => exact ⟨b, by simp [Merge.holderOf, hnewer], hnewer⟩

/-! ### The whole chain -/

theorem Rooted.upholds_super (hr : Rooted c) (hacyclic : ∀ k, ¬ c.InheritsFrom k k) {id p : DeclId}
    (hp : c.super? id = some p) :
    ∃ m near, c.merge id = .ok m ∧ c.merge p = .ok near ∧ m.Upholds near := by
  obtain ⟨chain, hchain, _⟩ := hr.exists_chain hacyclic (isInterface_of_super? hp)
  obtain ⟨cs, hnear, hm⟩ := merge_of_super? hp hchain
  exact ⟨_, _, hm, hnear, upholds_of_super? id cs⟩

theorem Rooted.upholds_inherited (hr : Rooted c) (hacyclic : ∀ k, ¬ c.InheritsFrom k k)
    {id a : DeclId} (h : c.InheritsFrom id a) :
    ∃ m far, c.merge id = .ok m ∧ c.merge a = .ok far ∧ m.Upholds far := by
  induction h with
  | single hs => exact hr.upholds_super hacyclic hs
  | tail _ hs ih =>
    obtain ⟨m, near, hm, hnear, hup⟩ := ih
    obtain ⟨near', far, hnear', hfar, hup'⟩ := hr.upholds_super hacyclic hs
    rw [hnear] at hnear'
    cases hnear'
    exact ⟨m, far, hm, hfar, hup.trans hup'⟩

/-- The merge of an interface follows from its own methods and the merge of what it extends. The own
canonical names come first; under a name that is not its own the interface has the winner of what it
extends, one level deeper, and under an own name its best own method, unless that winner is newer;
the names and versions are those that the methods compete with. So of every interface further up the
chain it has all names, under none of them an older version. -/
theorem merge_composes {ops : List Operation} {c : Catalogue} (h : (build ops).finish = .ok c)
    {id p : DeclId} (hp : c.super? id = some p) :
    ∃ m near, c.merge id = .ok m ∧ c.merge p = .ok near ∧
      (∀ w ∈ m.winners ++ near.winners, c.Competes w) ∧ (∀ e ∈ c.taggedAt id 0, c.Competes e.1) ∧
      m.winners.map Candidate.name = (c.ownNames id).eraseDups ++
        (near.winners.map Candidate.name).filter (fun name => !(c.ownNames id).contains name) ∧
      (∀ name, name ∉ c.ownNames id →
        m.winner? name = (near.winner? name).map Candidate.deeper) ∧
      (∀ name, name ∈ c.ownNames id → ∃ b, c.IsBestOwn id name b ∧
        ((∃ w, near.winner? name = some w ∧ w.version.newer b.version = true ∧
            m.winner? name = some w.deeper) ∨
          (∀ w, near.winner? name = some w → w.version.newer b.version = false) ∧
            m.winner? name = some b)) ∧
      ∀ a, c.InheritsFrom id a → ∃ far, c.merge a = .ok far ∧ m.Upholds far := by
  obtain ⟨rfl, hacyclic⟩ := finish_eq_ok_iff.1 h
  have hr := (built_build ops).rooted
  obtain ⟨chain, hchain, _⟩ := hr.exists_chain hacyclic (isInterface_of_super? hp)
  obtain ⟨cs, hnear, hm⟩ := merge_of_super? hp hchain
  refine ⟨_, _, hm, hnear, ?_, ?_, ?_, ?_, ?_, ?_⟩
  · exact List.forall_mem_append.2
      ⟨fun w => competes_of_mem_winners hm, fun w => competes_of_mem_winners hnear⟩
  · intro e he
    have hmem : e.1 ∈ (build ops).candidatesAt id 0 := by
      rw [← map_fst_taggedAt]
      exact List.mem_map_of_mem he
    exact competes_of_mem_candidatesAt hmem
  · have hnames : (cs.map Candidate.deeper).map Candidate.name = cs.map Candidate.name := by
      rw [List.map_map]
      rfl
    rw [Merge.names_ofCandidates, Merge.names_ofCandidates, List.map_append, names_candidatesAt,
      hnames, Occurrence.eraseDups_append_eq_filter]
  · intro name hname
    rw [winner?_of_super?, winner?_eq_none_of_not_own hname]
    rfl
  · exact fun name hname => winner?_of_own cs hname
  · intro a ha
    obtain ⟨m, far, hm', hfar, hup⟩ := hr.upholds_inherited hacyclic ha
    rw [hm] at hm'
    cases hm'
    exact ⟨far, hfar, hup⟩

/-- Two versions of a door. The newer one repeats a method, has one of its own and an older form of a
third, and leaves the fourth as it is. -/
def doorOps : List Operation :=
  let name (minor : Nat) : QualifiedName :=
    ⟨Text.ofString "hw.door", ⟨1, minor⟩, [Text.ofString "IDoor"]⟩
  [.declareInterface (name 0) none, .declareInterface (name 1) none, .setSuper 2 1,
    .addMethod 1 (plainMethod "shut_2_0"), .addMethod 1 (plainMethod "open"),
    .addMethod 1 (plainMethod "lock"), .addMethod 2 (plainMethod "open"),
    .addMethod 2 (plainMethod "bolt"), .addMethod 2 (plainMethod "shut")]

theorem doorOps_compose :
    (build doorOps).finish = .ok (build doorOps) ∧ (build doorOps).super? 2 = some 1 ∧
      ∃ m near w, (build doorOps).merge 2 = .ok m ∧ (build doorOps).merge 1 = .ok near ∧
        near.winner? (Text.ofString "lock") = some w ∧
        m.winner? (Text.ofString "lock") = some w.deeper ∧
        m.winner? (Text.ofString "shut") =
          some ⟨plainMethod "shut_2_0", 1, Text.ofString "shut", ⟨2, 0⟩, 1⟩ ∧
        (build doorOps).Competes ⟨plainMethod "shut_2_0", 1, Text.ofString "shut", ⟨2, 0⟩, 1⟩ ∧
        m.winners.map Candidate.name = [Text.ofString "open", Text.ofString "bolt",
          Text.ofString "shut", Text.ofString "lock"] := by
  have hfinish : (build doorOps).finish = .ok (build doorOps) := by decide
  have hsuper : (build doorOps).super? 2 = some 1 := by decide
  have hown : (build doorOps).ownNames 2 =
      [Text.ofString "open", Text.ofString "bolt", Text.ofString "shut"] := by decide
  obtain ⟨m, near, hm, hnear, hcompetes, _, hnames, hother, _, _⟩ := merge_composes hfinish hsuper
  have hmerge : (build doorOps).merge 1 =
      .ok (Merge.ofCandidates ((build doorOps).candidatesFrom 0 [1, 0])) := by decide
  obtain rfl := Except.ok.inj (hnear.symm.trans hmerge)
  have hlock := hother (Text.ofString "lock") (by rw [hown]; decide)
  have hheld : ((build doorOps).merge 2).map (fun m => m.winner? (Text.ofString "shut")) =
      .ok (some ⟨plainMethod "shut_2_0", 1, Text.ofString "shut", ⟨2, 0⟩, 1⟩) := by decide
  rw [hm] at hheld
  have hshut := Except.ok.inj hheld
  have hmem := List.mem_of_find?_eq_some hshut
  refine ⟨hfinish, hsuper, m, _, _, hm, hnear, rfl, hlock, hshut,
    hcompetes _ (List.mem_append_left _ hmem), ?_⟩
  rw [hnames, hown]
  decide

end Catalogue

end FlatAidl
