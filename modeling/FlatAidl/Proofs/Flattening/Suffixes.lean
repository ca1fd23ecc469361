import FlatAidl.Proofs.Catalogue.History
import FlatAidl.Proofs.Flattening.Candidates
import FlatAidl.Proofs.Flattening.Insertion
import FlatAidl.Proofs.Outcome
import FlatAidl.Proofs.Text.Cuts
import FlatAidl.Proofs.Text.Numeral
import Mathlib.Algebra.Group.Nat.Defs

/-!
Method names with a version. The base of such a name ends at the first underscore and the two
numbers hold none, so the shape of the whole text decides how it is read. A base has no underscore
left and carries no version itself. Main statement: reading accepts exactly the names of that shape,
and the name under which a method is merged is read as a name without a version.
-/

namespace FlatAidl

namespace VersionSuffix

/-- `BASE_MAJOR_MINOR` with a base that holds no underscore and numbers of 32 bits. -/
inductive Spells : Text → VersionSuffix → Prop
  | intro {base s t : Text} {major minor : Nat} (nonempty : base ≠ []) (solid : '_' ∉ base)
      (first : Decimal.Denotes s major) (second : Decimal.Denotes t minor)
      (major_lt : major < 2 ^ 32) (minor_lt : minor < 2 ^ 32) :
      Spells (base ++ '_' :: s ++ '_' :: t) ⟨base, ⟨major, minor⟩⟩

theorem solid_of_denotes {t : Text} {n : Nat} (h : Decimal.Denotes t n) : '_' ∉ t :=
  fun hmem => absurd (h.isDigit '_' hmem) (by decide)

theorem read?_eq_some_iff_spells {name : Text} {s : VersionSuffix} :
    read? name = some s ↔ Spells name s := by
  constructor
  · intro h
    obtain ⟨⟨base, rest⟩, hbase, h⟩ := Option.bind_eq_some_iff.1 h
    obtain ⟨⟨first, second⟩, hrest, h⟩ := Option.bind_eq_some_iff.1 h
    obtain ⟨hnonempty, h⟩ := Option.ite_none_left_eq_some.1 h
    obtain ⟨major, hmajor, h⟩ := Option.bind_eq_some_iff.1 h
    obtain ⟨minor, hminor, h⟩ := Option.bind_eq_some_iff.1 h
    cases h
    obtain ⟨hsolid, rfl⟩ := Text.cut?_eq_some_iff.1 hbase
    obtain ⟨_, rfl⟩ := Text.cut?_eq_some_iff.1 hrest
    obtain ⟨hfirst, hmajor_lt⟩ := Decimal.read?_eq_some_iff.1 hmajor
    obtain ⟨hsecond, hminor_lt⟩ := Decimal.read?_eq_some_iff.1 hminor
    have hne : base ≠ [] := fun heq => hnonempty (List.isEmpty_iff.2 heq)
    have hspells := Spells.intro hne hsolid hfirst hsecond hmajor_lt hminor_lt
    rwa [List.append_assoc, List.cons_append] at hspells
  · intro h
    cases h with
    | @intro base s t major minor nonempty solid first second major_lt minor_lt =>
      have hbase : Text.cut? '_' (base ++ '_' :: (s ++ '_' :: t)) = some (base, s ++ '_' :: t) :=
        Text.cut?_append_cons solid _
      have hrest : Text.cut? '_' (s ++ '_' :: t) = some (s, t) :=
        Text.cut?_append_cons (solid_of_denotes first) t
      have hmajor : Decimal.read? Version.bound s = some major :=
        Decimal.read?_eq_some_iff.2 ⟨first, major_lt⟩
      have hminor : Decimal.read? Version.bound t = some minor :=
        Decimal.read?_eq_some_iff.2 ⟨second, minor_lt⟩
      rw [List.append_assoc, List.cons_append]
      simp [read?, hbase, hrest, nonempty, hmajor, hminor]

theorem read?_of_solid {name : Text} (h : '_' ∉ name) : read? name = none := by
  rw [read?, Text.cut?_of_not_mem h]
  rfl

end VersionSuffix

/-! ### Canonical names and versions -/

namespace Candidate

/-- The name and the version under which a method competes: what its own name spells, or else this
name and the version of the interface that declares it. -/
inductive CompetesAs (declared : Version) (method : Text) : Text → Version → Prop
  | suffixed {s : VersionSuffix} (h : VersionSuffix.Spells method s) :
      CompetesAs declared method s.base s.version
  | plain (h : ∀ s, ¬ VersionSuffix.Spells method s) : CompetesAs declared method method declared

theorem competesAs_iff {declared version : Version} {method name : Text} :
    CompetesAs declared method name version ↔
      name = canonicalName method ∧ version = effectiveVersion method declared := by
  cases hread : VersionSuffix.read? method with
  | some suffix =>
    have hspells := VersionSuffix.read?_eq_some_iff_spells.1 hread
    simp only [canonicalName, effectiveVersion, hread]
    constructor
    · intro h
      cases h with
      | suffixed h =>
        rw [← VersionSuffix.read?_eq_some_iff_spells, hread] at h
        cases h
        exact ⟨rfl, rfl⟩
      | plain h => exact absurd hspells (h suffix)
    · rintro ⟨rfl, rfl⟩
      exact .suffixed hspells
  | none =>
    have hplain : ∀ s, ¬ VersionSuffix.Spells method s := by
      intro s hs
      rw [← VersionSuffix.read?_eq_some_iff_spells, hread] at hs
      cases hs
    simp only [canonicalName, effectiveVersion, hread]
    constructor
    · intro h
      cases h with
      | suffixed h => exact absurd h (hplain _)
      | plain => exact ⟨rfl, rfl⟩
    · rintro ⟨rfl, rfl⟩
      exact .plain hplain

theorem canonicalName_prefix (name : Text) : canonicalName name <+: name := by
  rw [canonicalName]
  split
  · next suffix hsuffix =>
    cases VersionSuffix.read?_eq_some_iff_spells.1 hsuffix with
    | intro =>
      rw [List.append_assoc]
      exact List.prefix_append _ _
  · exact List.prefix_rfl

theorem canonicalName_of_unversioned {name : Text} (h : VersionSuffix.read? name = none) :
    canonicalName name = name := by
  simp only [canonicalName, h]

/-- A canonical name carries no version: it is a base, or a name that has none. -/
theorem read?_canonicalName (name : Text) : VersionSuffix.read? (canonicalName name) = none := by
  cases hread : VersionSuffix.read? name with
  | none => rw [canonicalName_of_unversioned hread, hread]
  | some suffix =>
    have hname : canonicalName name = suffix.base := by simp only [canonicalName, hread]
    rw [hname]
    cases VersionSuffix.read?_eq_some_iff_spells.1 hread with
    | intro _ solid => exact VersionSuffix.read?_of_solid solid

end Candidate

namespace Catalogue

variable {c : Catalogue}

/-- Whether a candidate has the name and the version of its method in the interface that declares
it. -/
def Competes (c : Catalogue) (k : Candidate) : Prop :=
  ∃ d, c.get? k.declaredIn = some d ∧
    Candidate.CompetesAs d.name.version k.method.name k.name k.version

theorem competes_of_mem_candidatesAt {id : DeclId} {depth : Nat} {k : Candidate}
    (h : k ∈ c.candidatesAt id depth) : c.Competes k := by
  obtain ⟨d, _, method, hd, _, _, rfl⟩ := exists_of_mem_candidatesAt h
  exact ⟨d, hd, Candidate.competesAs_iff.2 ⟨rfl, rfl⟩⟩

theorem competes_of_mem_candidatesFrom {depth : Nat} {chain : List DeclId} {k : Candidate}
    (h : k ∈ c.candidatesFrom depth chain) : c.Competes k := by
  induction chain generalizing depth with
  | nil => cases h
  | cons id rest ih =>
    rcases List.mem_append.1 h with h | h
    · exact competes_of_mem_candidatesAt h
    · exact ih h

theorem competes_of_mem_winners {id : DeclId} {m : Merge} (h : c.merge id = .ok m) {k : Candidate}
    (hk : k ∈ m.winners) : c.Competes k := by
  obtain ⟨chain, _, rfl⟩ := Outcome.map_eq_ok.1 h
  exact competes_of_mem_candidatesFrom (Merge.mem_of_mem_winners hk)

theorem name_of_mem_merge {id : DeclId} {m : Merge} (h : c.merge id = .ok m) {k : Candidate}
    (hk : k ∈ m.winners ++ m.ignored) : k.name = Candidate.canonicalName k.method.name := by
  obtain ⟨chain, _, rfl⟩ := Outcome.map_eq_ok.1 h
  rcases List.mem_append.1 hk with hk | hk
  · exact name_of_mem_candidatesFrom (Merge.mem_of_mem_winners hk)
  · exact name_of_mem_candidatesFrom (Merge.mem_of_mem_ignored hk)

end Catalogue

namespace VersionSuffix

/-- A name is read as a base with a version exactly if it is spelled so. No name that a merge gives
to a method is read that way again, so canonical names are their own canonical names. -/
theorem read_iff_spells_and_names_settle (name : Text) (s : VersionSuffix) :
    (read? name = some s ↔ Spells name s) ∧
      Candidate.canonicalName (Candidate.canonicalName name) = Candidate.canonicalName name ∧
      ∀ (c : Catalogue) (id : DeclId) (m : Merge), c.merge id = .ok m →
        ∀ k ∈ m.winners ++ m.ignored, (∀ s, ¬ Spells k.name s) ∧
          Candidate.canonicalName k.name = k.name := by
  refine ⟨read?_eq_some_iff_spells, ?_, ?_⟩
  · exact Candidate.canonicalName_of_unversioned (Candidate.read?_canonicalName name)
  · intro c id m hm k hk
    have hread : read? k.name = none := by
      rw [Catalogue.name_of_mem_merge hm hk]
      exact Candidate.read?_canonicalName k.method.name
    refine ⟨fun s hs => ?_, Candidate.canonicalName_of_unversioned hread⟩
    rw [← read?_eq_some_iff_spells, hread] at hs
    cases hs

/-- A setting is read in an old and in a newer way. The name of the third method has an underscore
too many for a version. -/
def settingsOps : List Operation :=
  let method := fun name : String => (⟨Text.ofString name, [], [], false, none⟩ : Method)
  [.declareInterface ⟨Text.ofString "hw.settings", ⟨1, 0⟩, [Text.ofString "ISettings"]⟩ none,
    .addMethod 1 (method "get"), .addMethod 1 (method "get_01_2"),
    .addMethod 1 (method "set_value_1_2")]

theorem settingsOps_spelled_and_settled :
    Spells (Text.ofString "get_01_2") ⟨Text.ofString "get", ⟨1, 2⟩⟩ ∧
      ∃ m k, (Catalogue.build settingsOps).merge 1 = .ok m ∧ k ∈ m.winners ++ m.ignored ∧
        k.method.name = Text.ofString "get_01_2" ∧ k.name = Text.ofString "get" ∧
          (∀ s, ¬ Spells k.name s) ∧ Candidate.canonicalName k.name = k.name := by
  obtain ⟨hspells, _, hsettled⟩ := read_iff_spells_and_names_settle (Text.ofString "get_01_2")
    ⟨Text.ofString "get", ⟨1, 2⟩⟩
  have hmerge : (Catalogue.build settingsOps).merge 1 =
      .ok (Merge.ofCandidates ((Catalogue.build settingsOps).candidatesFrom 0 [1, 0])) := by
    decide
  let get : Candidate :=
    ⟨⟨Text.ofString "get_01_2", [], [], false, none⟩, 1, Text.ofString "get", ⟨1, 2⟩, 0⟩
  have hget : get ∈
      (Merge.ofCandidates ((Catalogue.build settingsOps).candidatesFrom 0 [1, 0])).winners ++
        (Merge.ofCandidates ((Catalogue.build settingsOps).candidatesFrom 0 [1, 0])).ignored := by
    decide
  exact ⟨hspells.1 (by decide), _, get, hmerge, hget, rfl, rfl,
    hsettled (Catalogue.build settingsOps) 1 _ hmerge get hget⟩

end VersionSuffix

end FlatAidl
