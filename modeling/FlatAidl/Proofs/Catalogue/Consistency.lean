import FlatAidl.Proofs.Catalogue.Forest
import FlatAidl.Proofs.Catalogue.Names

/-!
The four ways in which a catalogue says where a declaration belongs: its place, its name, the list
of the declaration around it, and its link to that one. Main statement: they agree after any
building operations, granted or refused, and all ways inwards and outwards end.
-/

namespace FlatAidl

theorem QualifiedName.parent?_eq_some {n p : QualifiedName} (h : n.parent? = some p) :
    n.names.length ≠ 1 ∧ p = { n with names := n.names.dropLast } := by
  unfold QualifiedName.parent? at h
  split at h
  · cases h
  · next hlong =>
    cases h
    exact ⟨by omega, rfl⟩

namespace Catalogue

variable {c c' : Catalogue}

/-! ### Names and nesting -/

/-- Whether a name belongs inside a declaration: it has one name more than that one's, or it is a
single name and there is no such declaration. -/
def Fits (c : Catalogue) (name : QualifiedName) : Option DeclId → Prop
  | none => name.names.length = 1
  | some p => ∃ outer, c.name? p = some outer ∧ name.parent? = some outer

theorem Fits.mono {name : QualifiedName} {parent : Option DeclId} (h : c.Fits name parent)
    (hkeep : ∀ id n, c.name? id = some n → c'.name? id = some n) : c'.Fits name parent := by
  cases parent with
  | none => exact h
  | some p =>
    obtain ⟨outer, houter, hname⟩ := h
    exact ⟨outer, hkeep p outer houter, hname⟩

theorem fits_of_checkNesting {name : QualifiedName} {parent : Option DeclId}
    (h : c.checkNesting name parent = .ok ()) : c.Fits name parent := by
  cases parent with
  | none =>
    rw [checkNesting] at h
    split at h
    · next hsingle => exact hsingle
    · cases h
  | some p =>
    obtain ⟨d, hd, h⟩ := Outcome.bind_eq_ok.1 h
    split at h
    · next hname => exact ⟨d.name, name?_of_get? (target_eq_ok.1 hd), hname⟩
    · cases h

/-- Each name belongs inside the declaration that its own declaration is nested in. -/
def FittingNames (c : Catalogue) : Prop :=
  ∀ id name, c.name? id = some name → c.Fits name (c.parent? id)

theorem fittingNames_initial : FittingNames initial := by
  intro id name h
  obtain rfl : id = 0 := Nat.lt_one_iff.1 (lt_size_of_name? h)
  cases h
  exact rfl

theorem FittingNames.step (hf : FittingNames c) (h : Step c c') : FittingNames c' := by
  intro id name hname
  have hkeep : ∀ k n, c.name? k = some n → c'.name? k = some n := fun _ _ => h.keeps_name
  cases h with
  | append _ _ _ nesting =>
    have hp := parent_lt_of_checkNesting nesting
    rw [parent?_append hp]
    rw [name?_append hp] at hname
    by_cases hid : id = c.size
    · rw [if_pos hid] at hname
      rw [if_pos hid, ← Option.some.inj hname]
      exact (fits_of_checkNesting nesting).mono hkeep
    · rw [if_neg hid] at hname
      rw [if_neg hid]
      exact (hf id name hname).mono hkeep
  | revise found change =>
    rw [name?_update found change.name_eq] at hname
    rw [parent?_update found change.parent_eq]
    exact (hf id name hname).mono hkeep

theorem Built.fittingNames {allowed : Catalogue → Operation → Prop} (h : Built allowed c) :
    FittingNames c :=
  h.induction fittingNames_initial fun _ _ hf hs => hf.step hs

theorem FittingNames.parent_eq_none_iff (hf : FittingNames c) {id : DeclId} {name : QualifiedName}
    (h : c.name? id = some name) : c.parent? id = none ↔ name.names.length = 1 := by
  have hfits := hf id name h
  cases hp : c.parent? id with
  | none =>
    rw [hp] at hfits
    exact ⟨fun _ => hfits, fun _ => rfl⟩
  | some p =>
    rw [hp] at hfits
    obtain ⟨outer, _, hname⟩ := hfits
    have hlong := (QualifiedName.parent?_eq_some hname).1
    constructor
    · intro hnone
      cases hnone
    · intro hsingle
      exact absurd hsingle hlong

theorem FittingNames.name_of_parent (hf : FittingNames c) {id p : DeclId} {name : QualifiedName}
    (h : c.name? id = some name) (hp : c.parent? id = some p) :
    c.name? p = some { name with names := name.names.dropLast } := by
  have hfits := hf id name h
  rw [hp] at hfits
  obtain ⟨outer, houter, hname⟩ := hfits
  rw [houter, (QualifiedName.parent?_eq_some hname).2]

/-! ### Ways inwards and outwards -/

/-- The declaration that a number of steps outwards lead to. -/
def around? (c : Catalogue) : Nat → DeclId → Option DeclId
  | 0, id => some id
  | n + 1, id => (c.parent? id).bind (c.around? n)

/-- Places shrink by each step outwards, so there are no more steps than the place tells. -/
theorem Nested.around?_eq_none (hn : Nested c) {n : Nat} {id : DeclId} (h : id < n) :
    c.around? n id = none := by
  induction n generalizing id with
  | zero => exact absurd h (Nat.not_lt_zero _)
  | succ n ih =>
    rw [around?]
    cases hp : c.parent? id with
    | none => rfl
    | some p =>
      have hlt : p < id := hn.parent_lt id p hp
      exact ih (Nat.lt_of_lt_of_le hlt (Nat.le_of_lt_succ h))

/-- A way inwards comes to no declaration twice. -/
theorem Nested.nodup_of_isChain (hn : Nested c) {way : List DeclId}
    (h : way.IsChain c.Encloses) : way.Nodup := by
  have hgrow : way.IsChain (· < ·) := h.imp fun _ _ hk => hn.lt hk
  exact (List.isChain_iff_pairwise.1 hgrow).imp Nat.ne_of_lt

/-- What a declaration lists is read off the links to it. -/
theorem Nested.nestedIn_eq_filter (hn : Nested c) (p : DeclId) :
    c.nestedIn p = c.ids.filter fun k => decide (c.parent? k = some p) := by
  have hids : c.ids.Pairwise (· < ·) := List.pairwise_lt_range
  have hfilter : (c.ids.filter fun k => decide (c.parent? k = some p)).Pairwise (· < ·) :=
    hids.sublist List.filter_sublist
  have hmem : ∀ k, k ∈ c.nestedIn p ↔ k ∈ c.ids.filter fun k => decide (c.parent? k = some p) := by
    intro k
    rw [hn.mem_nestedIn, List.mem_filter, decide_eq_true_eq, ids, List.mem_range]
    exact ⟨fun h => ⟨lt_size_of_parent? h, h⟩, fun h => h.2⟩
  have hperm := (List.perm_ext_iff_of_nodup ((hn.increasing p).imp Nat.ne_of_lt)
    (hfilter.imp Nat.ne_of_lt)).2 hmem
  exact hperm.eq_of_pairwise (fun a b _ _ hab hba => absurd hab (Nat.lt_asymm hba))
    (hn.increasing p) hfilter

/-! ### After any operations -/

/-- After any operations, granted or refused, a name is found at the one place that has it; a
declaration lists exactly those that are linked to it, each once and in the order of their places;
it is linked to none exactly if its name is a single one, and otherwise to an earlier one whose name
is its own without the last part. Links outwards end, no way inwards comes to a declaration twice,
and going through everything inside a declaration passes each of it once. -/
theorem build_consistent (ops : List Operation) :
    (∀ name id, (build ops).lookup name = some id ↔ (build ops).name? id = some name) ∧
      (∀ p d, (build ops).get? p = some d →
        d.nested = (build ops).ids.filter fun k => decide ((build ops).parent? k = some p)) ∧
      (∀ id name, (build ops).name? id = some name →
        ((build ops).parent? id = none ↔ name.names.length = 1) ∧
          ∀ p, (build ops).parent? id = some p →
            p < id ∧ (build ops).name? p = some { name with names := name.names.dropLast }) ∧
      (∀ id n, id < n → (build ops).around? n id = none) ∧
      (∀ way : List DeclId, way.IsChain (build ops).Encloses → way.Nodup) ∧
      ∀ root, ((build ops).emissionOrder root).Nodup ∧
        ∀ id, id ∈ (build ops).emissionOrder root ↔ (build ops).Within root id := by
  have hb := built_build ops
  have hn : Nested (build ops) := hb.nested
  have hf : FittingNames (build ops) := hb.fittingNames
  have hsize : 0 < (build ops).size :=
    Nat.zero_lt_of_lt (lt_size_of_isInterface hb.rooted.base_isInterface)
  refine ⟨fun name id => hb.distinctNames.lookup_eq_some_iff, ?_, ?_,
    fun id n hlt => hn.around?_eq_none hlt, fun way hway => hn.nodup_of_isChain hway,
    fun root => ⟨hn.nodup_emissionOrder root, fun id => hn.mem_emissionOrder hsize⟩⟩
  · intro p d hd
    rw [← nestedIn_of_get? hd]
    exact hn.nestedIn_eq_filter p
  · intro id name hname
    refine ⟨hf.parent_eq_none_iff hname, fun p hp => ?_⟩
    exact ⟨hn.parent_lt id p hp, hf.name_of_parent hname hp⟩

/-- A type two levels deep, with refused declarations around it: a name that is taken, a name that
does not belong where it is put, and a place that does not exist. -/
def rackOps : List Operation :=
  let name (names : List String) : QualifiedName :=
    ⟨Text.ofString "hw.rack", ⟨1, 0⟩, names.map Text.ofString⟩
  [.declareInterface (name ["IRack"]) none, .declareInterface (name ["IRack"]) none,
    .declareCompound .struct (name ["IRack", "Unit"]) (some 1),
    .declareCompound .union (name ["IRack", "Unit", "Fan"]) (some 1),
    .declareCompound .union (name ["IRack", "Unit", "Fan"]) (some 2),
    .declareCompound .struct (name ["IRack", "Slot"]) (some 7),
    .declareCompound .struct (name ["IRack", "Slot"]) (some 1), .setSuper 2 1]

theorem rackOps_consistent :
    (build rackOps).parent? 3 = some 2 ∧
      (build rackOps).name? 2 = some ⟨Text.ofString "hw.rack", ⟨1, 0⟩,
        [Text.ofString "IRack", Text.ofString "Unit"]⟩ ∧
      (build rackOps).nestedIn 1 = [2, 4] ∧
      (build rackOps).around? 4 3 = none ∧ ((build rackOps).emissionOrder 1).Nodup := by
  obtain ⟨_, hnested, hnames, hends, _, honce⟩ := build_consistent rackOps
  have hname : (build rackOps).name? 3 = some ⟨Text.ofString "hw.rack", ⟨1, 0⟩,
      [Text.ofString "IRack", Text.ofString "Unit", Text.ofString "Fan"]⟩ := by decide
  have hparent : (build rackOps).parent? 3 = some 2 := by decide
  obtain ⟨d, hd⟩ := exists_get? (show 1 < (build rackOps).size by decide)
  refine ⟨hparent, ((hnames 3 _ hname).2 2 hparent).2, ?_, hends 3 4 (by decide), (honce 1).1⟩
  rw [nestedIn_of_get? hd, hnested 1 d hd]
  decide

end Catalogue

end FlatAidl
