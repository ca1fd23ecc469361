import FlatAidl.Proofs.Name.Grammar

/-!
Names and their texts. The text of a name is read back as the name exactly if its parts are in order,
which all names have that come from a text by reading, by going outwards and by nesting identifiers.
Main statement: reading accepts the grammar of names and nothing else, the text of what was read is
read back, and it is the text that was read without leading zeros in the version.
-/

namespace FlatAidl

namespace QualifiedName

/-- Whether the parts of a name are such as a text can spell. -/
structure Proper (n : QualifiedName) : Prop where
  package : ∃ packages, Dotted n.package packages
  major_pos : 1 ≤ n.version.major
  major_lt : n.version.major < 2 ^ 32
  minor_lt : n.version.minor < 2 ^ 32
  names : ∀ name ∈ n.names, Identifier name

variable {n p : QualifiedName} {t : Text}

theorem identifier_of_dotted {names : List Text} (h : Dotted t names) :
    ∀ name ∈ names, Identifier name := by
  have hall := (dotted_iff.1 h).2
  intro name hname
  exact isIdentifier_iff.1 (List.all_eq_true.1 hall name hname)

theorem proper_of_spells (h : Spells t n) : Proper n := by
  cases h with
  | intro hpackage hversion hpath =>
    cases hversion with
    | intro _ _ positive major_lt minor_lt =>
      refine ⟨⟨_, hpackage⟩, positive, major_lt, minor_lt, ?_⟩
      cases hpath with
      | package => exact fun name hname => absurd hname List.not_mem_nil
      | type hdotted => exact identifier_of_dotted hdotted

/-! ### The text of a name -/

/-- What stands behind the version in the text of a name. -/
def pathText (n : QualifiedName) : Text :=
  if n.names.isEmpty then [] else Text.ofString "::" ++ n.typePath

/-- The text of a name with leading zeros in front of the two numbers of its version. -/
def spelling (n : QualifiedName) (majorZeros minorZeros : Nat) : Text :=
  n.package ++ '@' :: (List.replicate majorZeros '0' ++ Decimal.write n.version.major ++
    '.' :: (List.replicate minorZeros '0' ++ Decimal.write n.version.minor)) ++ n.pathText

theorem text_eq_spelling (n : QualifiedName) : n.text = n.spelling 0 0 :=
  rfl

theorem pathSpells_pathText (h : ∀ name ∈ n.names, Identifier name) :
    PathSpells n.pathText n.names := by
  cases hnames : n.names with
  | nil =>
    have hpath : n.pathText = [] := by simp [pathText, hnames]
    rw [hpath]
    exact .package
  | cons first rest =>
    have hne : n.names ≠ [] := by
      rw [hnames]
      exact List.cons_ne_nil first rest
    have hpath : n.pathText = ':' :: ':' :: Text.join ['.'] n.names := by
      simp [pathText, hnames, typePath, Text.ofString]
    rw [hpath, ← hnames]
    exact .type (dotted_join hne h)

theorem Proper.spells_text (h : Proper n) : Spells n.text n := by
  obtain ⟨packages, hpackage⟩ := h.package
  exact .intro hpackage (.intro (Decimal.denotes_write _) (Decimal.denotes_write _) h.major_pos
    h.major_lt h.minor_lt) (pathSpells_pathText h.names)

theorem proper_iff_read_text : Proper n ↔ read n.text = .ok n := by
  rw [read_eq_ok_iff_spells]
  exact ⟨Proper.spells_text, proper_of_spells⟩

theorem pathSpells_eq_pathText {names : List Text} (h : PathSpells t names) :
    t = pathText ⟨n.package, n.version, names⟩ := by
  cases h with
  | package => rfl
  | @type path _ hdotted =>
    have hsplit := (dotted_iff.1 hdotted).1
    have hjoin : Text.join ['.'] names = path := by
      rw [← hsplit]
      exact Text.join_split '.' path
    have hne : names ≠ [] := by
      rw [← hsplit]
      exact Text.pieces_ne_nil _ path
    simp [pathText, typePath, hjoin, hne, Text.ofString]

theorem eq_spelling_of_spells (h : Spells t n) : ∃ j k, t = n.spelling j k := by
  cases h with
  | @intro package version path packages names v _ hversion hpath =>
    cases hversion with
    | intro first second =>
      obtain ⟨j, rfl⟩ := first.eq_zeros_append_write
      obtain ⟨k, rfl⟩ := second.eq_zeros_append_write
      refine ⟨j, k, ?_⟩
      rw [pathSpells_eq_pathText (n := ⟨package, ⟨_, _⟩, names⟩) hpath]
      rfl

/-! ### Names that come from texts -/

/-- What is read from a text, and what is made of such a name by going outwards to the enclosing type
or to the package, and inwards to a type with an identifier for a name. -/
inductive Obtained : QualifiedName → Prop
  | read {t : Text} {n : QualifiedName} (h : read t = .ok n) : Obtained n
  | parent {n p : QualifiedName} (inner : Obtained n) (h : n.parent? = some p) : Obtained p
  | packageOnly {n : QualifiedName} (inner : Obtained n) : Obtained n.packageOnly
  | nested {n : QualifiedName} {name : Text} (outer : Obtained n) (h : Identifier name) :
      Obtained (n.nested name)

theorem Proper.parent (h : Proper n) (hp : n.parent? = some p) : Proper p := by
  rw [parent?] at hp
  by_cases hlength : n.names.length < 2
  · rw [if_pos hlength] at hp
    cases hp
  · rw [if_neg hlength] at hp
    cases hp
    exact ⟨h.package, h.major_pos, h.major_lt, h.minor_lt,
      fun name hname => h.names name (List.dropLast_subset n.names hname)⟩

theorem Proper.packageOnly (h : Proper n) : Proper n.packageOnly where
  package := h.package
  major_pos := h.major_pos
  major_lt := h.major_lt
  minor_lt := h.minor_lt
  names _ hname := absurd hname List.not_mem_nil

theorem Proper.nested (h : Proper n) {name : Text} (hname : Identifier name) :
    Proper (n.nested name) where
  package := h.package
  major_pos := h.major_pos
  major_lt := h.major_lt
  minor_lt := h.minor_lt
  names x hx := by
    rcases List.mem_append.1 hx with hx | hx
    · exact h.names x hx
    · rw [List.mem_singleton.1 hx]
      exact hname

theorem Obtained.proper (h : Obtained n) : Proper n := by
  induction h with
  | read h => exact proper_of_spells (read_eq_ok_iff_spells.1 h)
  | parent _ hp ih => exact ih.parent hp
  | packageOnly _ ih => exact ih.packageOnly
  | nested _ hname ih => exact ih.nested hname

/-- Reading accepts exactly the texts of the grammar, with the name whose parts they spell. Names
that come from texts are read back from their own text, and that differs from a text they were read
from at most in leading zeros of the version. -/
theorem read_accepts_grammar_and_inverts_text (t : Text) (n : QualifiedName) :
    (read t = .ok n ↔ Spells t n) ∧ (Obtained n → read n.text = .ok n) ∧
      (read t = .ok n → ∃ j k, t = n.spelling j k ∧ n.text = n.spelling 0 0) := by
  refine ⟨read_eq_ok_iff_spells, fun h => proper_iff_read_text.1 h.proper, fun h => ?_⟩
  obtain ⟨j, k, hjk⟩ := eq_spelling_of_spells (read_eq_ok_iff_spells.1 h)
  exact ⟨j, k, hjk, text_eq_spelling n⟩

/-- The inner type of a meter, as the text `hw.meter@01.020::IMeter.Unit` gives it. -/
def meterUnit : QualifiedName :=
  ⟨Text.ofString "hw.meter", ⟨1, 20⟩, [Text.ofString "IMeter", Text.ofString "Unit"]⟩

theorem meterUnit_read_and_read_back :
    read (Text.ofString "hw.meter@01.020::IMeter.Unit") = .ok meterUnit ∧ Obtained meterUnit ∧
      Spells (Text.ofString "hw.meter@01.020::IMeter.Unit") meterUnit ∧
      read meterUnit.text = .ok meterUnit ∧
      ∃ j k, Text.ofString "hw.meter@01.020::IMeter.Unit" = meterUnit.spelling j k ∧
        meterUnit.text = meterUnit.spelling 0 0 := by
  have hread : read (Text.ofString "hw.meter@01.020::IMeter.Unit") = .ok meterUnit := rfl
  have hobtained : Obtained meterUnit := .read hread
  obtain ⟨hgrammar, hback, hzeros⟩ := read_accepts_grammar_and_inverts_text
    (Text.ofString "hw.meter@01.020::IMeter.Unit") meterUnit
  exact ⟨hread, hobtained, hgrammar.1 hread, hback hobtained, hzeros hread⟩

end QualifiedName

end FlatAidl
