import FlatAidl.Name.Reading
import FlatAidl.Proofs.Text.Cuts
import FlatAidl.Proofs.Text.Numeral
import Mathlib.Algebra.Group.Nat.Defs

/-!
The grammar of qualified names, said of the whole text: identifiers with dots between them, `@`, a
version, and a path of further identifiers behind `::` if there is one. No part holds the separator
that ends it, so the cuts at first occurrences find the parts, and reading accepts this grammar and
nothing else.
-/

namespace FlatAidl

/-! ### Identifiers -/

def Letter (c : Char) : Prop :=
  'a' ≤ c ∧ c ≤ 'z' ∨ 'A' ≤ c ∧ c ≤ 'Z' ∨ c = '_'

def Digit (c : Char) : Prop :=
  '0' ≤ c ∧ c ≤ '9'

/-- A letter with letters and digits behind it. -/
inductive Identifier : Text → Prop
  | intro {c : Char} {rest : Text} (first : Letter c) (others : ∀ x ∈ rest, Letter x ∨ Digit x) :
      Identifier (c :: rest)

theorem isIdentifierStart_iff {c : Char} : isIdentifierStart c = true ↔ Letter c := by
  have hupper : c.isUpper = true ↔ 'A' ≤ c ∧ c ≤ 'Z' := decide_eq_true_iff
  have hlower : c.isLower = true ↔ 'a' ≤ c ∧ c ≤ 'z' := by
    change (decide ('a' ≤ c) && decide (c ≤ 'z')) = true ↔ _
    rw [Bool.and_eq_true, decide_eq_true_iff, decide_eq_true_iff]
  change (c.isUpper || c.isLower || c == '_') = true ↔ _
  simp only [Bool.or_eq_true, hupper, hlower, beq_iff_eq]
  constructor
  · rintro ((h | h) | h)
    · exact Or.inr (Or.inl h)
    · exact Or.inl h
    · exact Or.inr (Or.inr h)
  · rintro (h | h | h)
    · exact Or.inl (Or.inr h)
    · exact Or.inl (Or.inl h)
    · exact Or.inr h

theorem isIdentifierPart_iff {c : Char} : isIdentifierPart c = true ↔ Letter c ∨ Digit c := by
  have hdigit : c.isDigit = true ↔ Digit c := by
    simp only [Char.isDigit, Digit, Char.le_def, Bool.and_eq_true, decide_eq_true_eq]
  rw [← isIdentifierStart_iff, ← hdigit]
  simp only [isIdentifierPart, isIdentifierStart, Char.isAlphanum, Bool.or_eq_true]
  constructor
  · rintro ((h | h) | h)
    · exact Or.inl (Or.inl h)
    · exact Or.inr h
    · exact Or.inl (Or.inr h)
  · rintro ((h | h) | h)
    · exact Or.inl (Or.inl h)
    · exact Or.inr h
    · exact Or.inl (Or.inr h)

theorem isIdentifier_iff {t : Text} : isIdentifier t = true ↔ Identifier t := by
  cases t with
  | nil =>
    constructor
    · intro h
      cases h
    · intro h
      cases h
  | cons c rest =>
    rw [isIdentifier, Bool.and_eq_true, List.all_eq_true, isIdentifierStart_iff]
    simp only [isIdentifierPart_iff]
    constructor
    · rintro ⟨hfirst, hothers⟩
      exact .intro hfirst hothers
    · intro h
      cases h with
      | intro hfirst hothers => exact ⟨hfirst, hothers⟩

theorem Identifier.not_mem {t : Text} (h : Identifier t) {x : Char}
    (hx : isIdentifierPart x = false) : x ∉ t := by
  have hpart : ∀ c ∈ t, isIdentifierPart c = true := by
    cases h with
    | intro hfirst hothers =>
      intro c hc
      rcases List.mem_cons.1 hc with rfl | hc
      · exact isIdentifierPart_iff.2 (Or.inl hfirst)
      · exact isIdentifierPart_iff.2 (hothers c hc)
  intro hmem
  rw [hpart x hmem] at hx
  cases hx

/-! ### The grammar -/

/-- One or more identifiers with a dot between neighbours, and the list of them. -/
inductive Dotted : Text → List Text → Prop
  | single {name : Text} (h : Identifier name) : Dotted name [name]
  | cons {name t : Text} {names : List Text} (h : Identifier name) (rest : Dotted t names) :
      Dotted (name ++ '.' :: t) (name :: names)

namespace Version

/-- `MAJOR.MINOR` with numbers of 32 bits, the major one of which is not zero. -/
inductive Spells : Text → Version → Prop
  | intro {s t : Text} {major minor : Nat} (first : Decimal.Denotes s major)
      (second : Decimal.Denotes t minor) (positive : 1 ≤ major) (major_lt : major < 2 ^ 32)
      (minor_lt : minor < 2 ^ 32) : Spells (s ++ '.' :: t) ⟨major, minor⟩

end Version

/-- Nothing, or `::` and the names of a type path. -/
inductive PathSpells : Text → List Text → Prop
  | package : PathSpells [] []
  | type {t : Text} {names : List Text} (h : Dotted t names) :
      PathSpells (':' :: ':' :: t) names

namespace QualifiedName

/-- `PACKAGE(.SUBPACKAGE)*@MAJOR.MINOR(::TYPE(.NESTED)*)?` and the name with these parts. -/
inductive Spells : Text → QualifiedName → Prop
  | intro {package version path : Text} {packages names : List Text} {v : Version}
      (first : Dotted package packages) (second : Version.Spells version v)
      (third : PathSpells path names) : Spells (package ++ '@' :: version ++ path) ⟨package, v, names⟩

end QualifiedName

theorem Dotted.not_mem {t : Text} {names : List Text} (h : Dotted t names) {x : Char}
    (hx : isIdentifierPart x = false) (hdot : x ≠ '.') : x ∉ t := by
  induction h with
  | single h => exact h.not_mem hx
  | cons h _ ih =>
    intro hmem
    rcases List.mem_append.1 hmem with hmem | hmem
    · exact h.not_mem hx hmem
    · rcases List.mem_cons.1 hmem with heq | hmem
      · exact hdot heq
      · exact ih hmem

theorem dotted_join {names : List Text} (hne : names ≠ []) (h : ∀ name ∈ names, Identifier name) :
    Dotted (Text.join ['.'] names) names := by
  induction names with
  | nil => exact absurd rfl hne
  | cons name rest ih =>
    have hname : Identifier name := h name (List.mem_cons_self ..)
    cases rest with
    | nil => exact .single hname
    | cons second more =>
      have hmore : second :: more ≠ [] := List.cons_ne_nil second more
      have hrest := ih hmore fun x hx => h x (List.mem_cons_of_mem _ hx)
      rw [Text.join_cons hmore, List.append_assoc]
      exact .cons hname hrest

theorem dotted_iff {t : Text} {names : List Text} :
    Dotted t names ↔ Text.split '.' t = names ∧ names.all isIdentifier = true := by
  have hdot : ∀ {name : Text}, Identifier name → Text.split '.' name = [name] :=
    fun h => Text.split_of_not_mem (h.not_mem (by decide))
  constructor
  · intro h
    induction h with
    | single h => exact ⟨hdot h, by simpa using isIdentifier_iff.2 h⟩
    | cons h _ ih =>
      refine ⟨?_, ?_⟩
      · rw [Text.split_append_cons, hdot h, ih.1]
        rfl
      · rw [List.all_cons, isIdentifier_iff.2 h, ih.2]
        rfl
  · rintro ⟨rfl, hall⟩
    have hnames : ∀ name ∈ Text.split '.' t, Identifier name :=
      fun name hname => isIdentifier_iff.1 (List.all_eq_true.1 hall name hname)
    have hne : Text.split '.' t ≠ [] := Text.pieces_ne_nil _ t
    have hjoin := dotted_join hne hnames
    rwa [Text.join_split] at hjoin

/-! ### Reading -/

namespace Version

theorem read?_eq_some_iff {t : Text} {v : Version} :
    read? t = some v ∧ v.major ≠ 0 ↔ Spells t v := by
  constructor
  · rintro ⟨h, hmajor⟩
    obtain ⟨parts, hcut, h⟩ := Option.bind_eq_some_iff.1 h
    obtain ⟨major, hfirst, h⟩ := Option.bind_eq_some_iff.1 h
    obtain ⟨minor, hsecond, h⟩ := Option.bind_eq_some_iff.1 h
    cases h
    obtain ⟨hs, hs_lt⟩ := Decimal.read?_eq_some_iff.1 hfirst
    obtain ⟨ht, ht_lt⟩ := Decimal.read?_eq_some_iff.1 hsecond
    rw [Text.eq_of_cut? hcut]
    exact .intro hs ht (Nat.one_le_iff_ne_zero.2 hmajor) hs_lt ht_lt
  · intro h
    cases h with
    | @intro s u major minor first second positive major_lt minor_lt =>
      have hdot : '.' ∉ s := fun hmem => by simpa using first.isDigit '.' hmem
      have hfirst : Decimal.read? bound s = some major :=
        Decimal.read?_eq_some_iff.2 ⟨first, major_lt⟩
      have hsecond : Decimal.read? bound u = some minor :=
        Decimal.read?_eq_some_iff.2 ⟨second, minor_lt⟩
      refine ⟨?_, Nat.one_le_iff_ne_zero.1 positive⟩
      simp [read?, Text.cut?_append_cons hdot, hfirst, hsecond]

theorem Spells.not_mem_colon {t : Text} {v : Version} (h : Spells t v) : ':' ∉ t := by
  cases h with
  | intro first second =>
    intro hmem
    rcases List.mem_append.1 hmem with hmem | hmem
    · simpa using first.isDigit ':' hmem
    · rcases List.mem_cons.1 hmem with heq | hmem
      · cases heq
      · simpa using second.isDigit ':' hmem

end Version

namespace QualifiedName

theorem readNames?_some_iff {t : Text} {names : List Text} :
    readNames? (some t) = some names ↔ Dotted t names := by
  rw [readNames?, dotted_iff]
  by_cases h : (Text.split '.' t).all isIdentifier = true
  · rw [if_pos h, Option.some.injEq]
    constructor
    · rintro rfl
      exact ⟨rfl, h⟩
    · rintro ⟨hsplit, _⟩
      exact hsplit
  · rw [if_neg h]
    constructor
    · intro hnone
      cases hnone
    · rintro ⟨rfl, hall⟩
      exact absurd hall h

/-! The version ends where the first `::` stands, since it holds no colon. -/

theorem cutTypePath_version {t : Text} {v : Version} (h : Version.Spells t v) :
    cutTypePath t = (t, none) := by
  have hcut := Text.cutAt?_of_not_mem h.not_mem_colon [':']
  rw [cutTypePath, Text.ofString]
  simp [hcut]

theorem cutTypePath_append {t : Text} {v : Version} (h : Version.Spells t v) (path : Text) :
    cutTypePath (t ++ ':' :: ':' :: path) = (t, some path) := by
  have hcut := Text.cutAt?_append h.not_mem_colon [':'] path
  rw [List.append_assoc] at hcut
  rw [cutTypePath, Text.ofString]
  simp_all

theorem pathSpells_of_cutTypePath {t version : Text} {path? : Option Text} {names : List Text}
    (hcut : cutTypePath t = (version, path?)) (hnames : readNames? path? = some names) :
    ∃ path, t = version ++ path ∧ PathSpells path names := by
  unfold cutTypePath at hcut
  split at hcut
  · next hfound =>
    cases hcut
    refine ⟨_, ?_, .type (readNames?_some_iff.1 hnames)⟩
    rw [Text.eq_of_cutAt? hfound, List.append_assoc]
    rfl
  · cases hcut
    cases hnames
    exact ⟨[], (List.append_nil t).symm, .package⟩

/-- Where package and version are in order, the type path decides. -/
theorem read_eq_ok_iff_names {package version rest : Text} {packages : List Text} {v : Version}
    {path? : Option Text} (hpackage : Dotted package packages) (hversion : Version.Spells version v)
    (hcut : cutTypePath rest = (version, path?)) {n : QualifiedName} :
    read (package ++ '@' :: rest) = .ok n ↔
      ∃ names, readNames? path? = some names ∧ n = ⟨package, v, names⟩ := by
  have hat : '@' ∉ package := hpackage.not_mem (by decide) (by decide)
  obtain ⟨hsplit, hall⟩ := dotted_iff.1 hpackage
  obtain ⟨hread, hmajor⟩ := Version.read?_eq_some_iff.2 hversion
  simp only [read, Text.cut?_append_cons hat, hsplit, hall, hcut, hread, hmajor, Bool.not_true,
    Bool.false_eq_true, if_false]
  cases readNames? path? with
  | none => simp
  | some names => simp [eq_comm]

theorem exists_parts_of_read {t : Text} {n : QualifiedName} (h : read t = .ok n) :
    ∃ package packages version v rest path?, t = package ++ '@' :: rest ∧
      Dotted package packages ∧ Version.Spells version v ∧ cutTypePath rest = (version, path?) := by
  unfold read at h
  cases hcut : Text.cut? '@' t with
  | none => simp [hcut] at h
  | some parts =>
    obtain ⟨package, rest⟩ := parts
    cases hpath : cutTypePath rest with
    | mk version path? =>
      cases hall : (Text.split '.' package).all isIdentifier with
      | false => simp [hcut, hall] at h
      | true =>
        cases hversion : Version.read? version with
        | none => simp [hcut, hall, hpath, hversion] at h
        | some v =>
          by_cases hmajor : v.major = 0
          · simp [hcut, hall, hpath, hversion, hmajor] at h
          · exact ⟨package, _, version, v, rest, path?, Text.eq_of_cut? hcut,
              dotted_iff.2 ⟨rfl, hall⟩, Version.read?_eq_some_iff.1 ⟨hversion, hmajor⟩, hpath⟩

/-- Reading accepts the texts of the grammar, and gives the name that the parts are of. -/
theorem read_eq_ok_iff_spells {t : Text} {n : QualifiedName} : read t = .ok n ↔ Spells t n := by
  constructor
  · intro h
    obtain ⟨package, packages, version, v, rest, path?, rfl, hpackage, hversion, hcut⟩ :=
      exists_parts_of_read h
    obtain ⟨names, hnames, rfl⟩ := (read_eq_ok_iff_names hpackage hversion hcut).1 h
    obtain ⟨path, rfl, hpath⟩ := pathSpells_of_cutTypePath hcut hnames
    rw [← List.cons_append, ← List.append_assoc]
    exact .intro hpackage hversion hpath
  · intro h
    cases h with
    | intro hpackage hversion hpath =>
      rw [List.append_assoc, List.cons_append]
      cases hpath with
      | package =>
        rw [List.append_nil]
        exact (read_eq_ok_iff_names hpackage hversion (cutTypePath_version hversion)).2
          ⟨_, rfl, rfl⟩
      | type hdotted =>
        exact (read_eq_ok_iff_names hpackage hversion (cutTypePath_append hversion _)).2
          ⟨_, readNames?_some_iff.2 hdotted, rfl⟩

end QualifiedName

end FlatAidl
