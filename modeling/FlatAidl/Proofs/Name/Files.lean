import FlatAidl.Proofs.Name.RoundTrip
import FlatAidl.Proofs.Path.Names
import FlatAidl.Proofs.Rendering.Imports
import FlatAidl.Proofs.Text.UpperCase

/-!
The files of declarations by their AIDL names. The identifiers of a package, the number behind it
and the name of the type hold neither dots nor slashes, so the dots of the full name are just where
the path has its slashes. Main statement: a name from a text is written to the file in which its
full AIDL name is looked for when it is imported.
-/

namespace FlatAidl

open Text

/-! ### Exchanging a separator -/

/-- A text with one character exchanged for another one. -/
def Text.exchange (a b : Char) (t : Text) : Text :=
  t.map fun c => if c = a then b else c

theorem Text.exchange_of_not_mem {a : Char} {t : Text} (h : a ∉ t) (b : Char) :
    t.exchange a b = t := by
  calc t.exchange a b = t.map id := by
        refine List.map_congr_left fun c hc => ?_
        have hca : c ≠ a := fun heq => h (heq ▸ hc)
        exact if_neg hca
    _ = t := List.map_id t

theorem Text.exchange_exchange {b : Char} {t : Text} (h : b ∉ t) (a : Char) :
    (t.exchange a b).exchange b a = t := by
  rw [exchange, exchange, List.map_map]
  calc t.map ((fun c => if c = b then a else c) ∘ fun c => if c = a then b else c) = t.map id := by
        refine List.map_congr_left fun c hc => ?_
        have hcb : c ≠ b := fun heq => h (heq ▸ hc)
        by_cases hca : c = a
        · simp [hca]
        · simp [hca, hcb]
    _ = t := List.map_id t

theorem Text.exchange_join {a : Char} {ts : List Text} (h : ∀ t ∈ ts, a ∉ t) (b : Char) :
    (join [a] ts).exchange a b = join [b] ts := by
  induction ts with
  | nil => rfl
  | cons t rest ih =>
    obtain ⟨ht, hrest⟩ := List.forall_mem_cons.1 h
    have hfirst : t.map (fun c => if c = a then b else c) = t := exchange_of_not_mem ht b
    cases rest with
    | nil => exact hfirst
    | cons u more =>
      have hmore : (join [a] (u :: more)).map (fun c => if c = a then b else c) =
          join [b] (u :: more) := ih hrest
      rw [join_cons (List.cons_ne_nil u more), join_cons (List.cons_ne_nil u more), exchange,
        List.map_append, List.map_append, hfirst, hmore]
      simp

/-- The file in which a full AIDL name is looked for. -/
def Imports.fileOf (name : Text) : Path :=
  name.exchange '.' '/' ++ Text.ofString ".aidl"

/-! ### The parts of an AIDL name -/

theorem Identifier.append_digits {t s : Text} (h : Identifier t) (hs : ∀ c ∈ s, Digit c) :
    Identifier (t ++ s) := by
  cases h with
  | intro first others =>
    refine .intro first fun c hc => ?_
    rcases List.mem_append.1 hc with hc | hc
    · exact others c hc
    · exact Or.inr (hs c hc)

theorem Dotted.append_digits {t s : Text} {names : List Text} (h : Dotted t names)
    (hs : ∀ c ∈ s, Digit c) : ∃ longer, Dotted (t ++ s) longer := by
  induction h with
  | single h => exact ⟨_, .single (h.append_digits hs)⟩
  | cons h _ ih =>
    obtain ⟨longer, hlonger⟩ := ih
    rw [List.append_assoc, List.cons_append]
    exact ⟨_, .cons h hlonger⟩

theorem digit_of_mem_write {n : Nat} {c : Char} (h : c ∈ Decimal.write n) : Digit c := by
  have hdigit := (Decimal.denotes_write n).isDigit c h
  simp only [Char.isDigit, Bool.and_eq_true, decide_eq_true_eq] at hdigit
  exact hdigit

theorem Identifier.isName {t : Text} (h : Identifier t) : Path.IsName t where
  nonempty := by
    cases h with
    | intro => exact List.cons_ne_nil _ _
  solid := h.not_mem (by decide)
  not_here heq := h.not_mem (show isIdentifierPart '.' = false by decide) (by simp [heq])
  not_up heq := h.not_mem (show isIdentifierPart '.' = false by decide) (by simp [heq])

namespace QualifiedName

variable {n m : QualifiedName}

theorem Proper.dotted_aidlPackage (h : Proper n) : ∃ packages, Dotted n.aidlPackage packages := by
  rw [aidlPackage]
  split
  · exact h.package
  · obtain ⟨packages, hpackage⟩ := h.package
    exact hpackage.append_digits fun c hc => digit_of_mem_write hc

/-- Upper case brings in letters and marks only, so a separator would come from an identifier. -/
theorem Proper.not_mem_aidlName (h : Proper n) {x : Char} (hx : isIdentifierPart x = false)
    (hlow : x.toNat < 'A'.toNat) : x ∉ n.aidlName := by
  intro hmem
  obtain ⟨name, hname, hmem⟩ := List.mem_flatMap.1 hmem
  rcases mem_capitalize hmem with hmem | hlate
  · exact (h.names name hname).not_mem hx hmem
  · omega

theorem Proper.not_mem_aidl (h : Proper n) : '/' ∉ n.aidl := by
  obtain ⟨packages, hpackage⟩ := h.dotted_aidlPackage
  have hname : '/' ∉ n.aidlName := h.not_mem_aidlName (by decide) (by decide)
  rw [aidl, List.mem_append, List.mem_cons, not_or, not_or]
  exact ⟨hpackage.not_mem (by decide) (by decide), by decide, hname⟩

theorem Proper.isName_file (h : Proper n) : Path.IsName (n.aidlName ++ Text.ofString ".aidl") where
  nonempty := by simp [Text.ofString]
  solid := by
    rw [List.mem_append, not_or]
    exact ⟨h.not_mem_aidlName (by decide) (by decide), by decide⟩
  not_here heq := by
    have hlength := congrArg List.length heq
    simp [Text.ofString] at hlength
  not_up heq := by
    have hlength := congrArg List.length heq
    simp [Text.ofString] at hlength

theorem Proper.exists_names_of_path (h : Proper n) :
    ∃ names, names ≠ [] ∧ (∀ t ∈ names, Path.IsName t) ∧ n.path = join ['/'] names ∧
      join ['/'] names = Imports.fileOf n.aidl := by
  obtain ⟨packages, hpackage⟩ := h.dotted_aidlPackage
  obtain ⟨hsplit, hall⟩ := dotted_iff.1 hpackage
  have hidentifiers : ∀ t ∈ packages, Identifier t := identifier_of_dotted hpackage
  have hpackages : packages ≠ [] := by
    rw [← hsplit]
    exact pieces_ne_nil _ _
  have hnames : ∀ t ∈ packages ++ [n.aidlName ++ Text.ofString ".aidl"], Path.IsName t := by
    intro t ht
    rcases List.mem_append.1 ht with ht | ht
    · exact (hidentifiers t ht).isName
    · rw [List.mem_singleton.1 ht]
      exact h.isName_file
  refine ⟨packages ++ [n.aidlName ++ Text.ofString ".aidl"], by simp, hnames, ?_, ?_⟩
  · rw [path, hsplit, ← Path.foldl_push hnames, List.foldl_concat]
  · have hjoin : join ['.'] packages = n.aidlPackage := by rw [← hsplit, join_split]
    have hdots : ∀ t ∈ packages, '.' ∉ t := fun t ht => (hidentifiers t ht).not_mem (by decide)
    have hname : n.aidlName.exchange '.' '/' = n.aidlName :=
      exchange_of_not_mem (h.not_mem_aidlName (by decide) (by decide)) '/'
    have hslashed : n.aidl.exchange '.' '/' = join ['/'] packages ++ '/' :: n.aidlName := by
      rw [aidl, exchange, List.map_append, List.map_cons, ← exchange, ← exchange, hname, ← hjoin,
        exchange_join hdots]
      rfl
    rw [Imports.fileOf, hslashed, join_append _ hpackages (List.cons_ne_nil _ _), List.append_assoc]
    rfl

theorem Proper.path_eq (h : Proper n) : n.path = Imports.fileOf n.aidl := by
  obtain ⟨names, _, _, hpath, hfile⟩ := h.exists_names_of_path
  rw [hpath, hfile]

theorem Proper.join_components (h : Proper n) :
    join ['/'] (n.path.components.map Path.Component.text) = n.path := by
  obtain ⟨names, hne, hnames, hpath, _⟩ := h.exists_names_of_path
  rw [hpath, Path.components_join hne hnames, List.map_map]
  congr 1
  exact List.map_id names

/-- The dots come back where the slashes are, since the name itself has none. -/
theorem Proper.aidl_eq_of_path_eq (hn : Proper n) (hm : Proper m) (h : n.path = m.path) :
    n.aidl = m.aidl := by
  rw [hn.path_eq, hm.path_eq, Imports.fileOf, Imports.fileOf, List.append_cancel_right_eq] at h
  rw [← exchange_exchange hn.not_mem_aidl '.', h, exchange_exchange hm.not_mem_aidl]

theorem Proper.same_path_iff (hn : Proper n) (hm : Proper m) :
    n.path.same m.path = true ↔ n.aidl = m.aidl := by
  rw [Path.same, decide_eq_true_iff]
  constructor
  · intro h
    refine hn.aidl_eq_of_path_eq hm ?_
    rw [← hn.join_components, ← hm.join_components, h]
  · intro h
    rw [hn.path_eq, hm.path_eq, h]

end QualifiedName

/-! ### Import lines -/

/-- An import line stands in a file for the sake of a declaration, the AIDL name of which it has. -/
theorem Catalogue.exists_of_mem_imports {c : Catalogue} {id : DeclId} {f : AidlFile}
    (hf : c.translate id = .ok f) {line : Text} (hline : line ∈ f.imports) :
    ∃ target d, c.get? target = some d ∧ line = Imports.line d.name.aidl := by
  have hasked : ∀ {d : Declaration} {asked : List TypeRef} {i : Imports} {lines : List Text},
      c.importsOf d asked = .ok i → i.statements = .ok lines → line ∈ lines →
        ∃ target e, c.get? target = some e ∧ line = Imports.line e.name.aidl := by
    intro d asked i lines hi hlines hmem
    obtain ⟨names, hnames, rfl⟩ := exists_names_of_importsOf hi hlines
    obtain ⟨name, hname, rfl⟩ := List.mem_map.1 hmem
    obtain ⟨target, _, haidl⟩ :=
      Outcome.exists_of_mem_mapM hnames (Imports.mem_firstNames.1 hname).1
    obtain ⟨e, he, rfl⟩ := Outcome.map_eq_ok.1 haidl
    exact ⟨target, e, fetch_eq_ok.1 he, rfl⟩
  obtain ⟨d, hd⟩ := exists_get?_of_translate hf
  cases hb : d.body with
  | interface members =>
    obtain ⟨_, _, _, _, _, _, _, hi, himports, _, _, _, rfl⟩ :=
      (translate_interface_eq_ok_iff hd hb).1 hf
    exact hasked hi himports hline
  | compound members =>
    obtain ⟨_, _, _, hi, himports, _, rfl⟩ := (translate_compound_eq_ok_iff hd hb).1 hf
    exact hasked hi himports hline

namespace QualifiedName

/-- The path of a name from a text is the full AIDL name with its dots as slashes, and the
extension. So two such names have one path exactly if they have one AIDL name, and an import line
leads to the file of the declaration that it stands for. -/
theorem path_is_file_of_aidl {s t : Text} {n m : QualifiedName} (hn : read s = .ok n)
    (hm : read t = .ok m) :
    n.path = Imports.fileOf n.aidl ∧
      join ['/'] (n.path.components.map Path.Component.text) = Imports.fileOf n.aidl ∧
      (n.path.same m.path = true ↔ n.aidl = m.aidl) ∧
      ∀ (c : Catalogue) (id : DeclId) (f : AidlFile), c.translate id = .ok f →
        ∀ line ∈ f.imports, ∃ target d, c.get? target = some d ∧
          line = Imports.line d.name.aidl ∧
            ∀ u, read u = .ok d.name → ∀ o r, c.render o target = .ok r →
              r.path = Imports.fileOf d.name.aidl := by
  have hproper : ∀ {u : Text} {k : QualifiedName}, read u = .ok k → Proper k :=
    fun hread => proper_of_spells (read_eq_ok_iff_spells.1 hread)
  refine ⟨(hproper hn).path_eq, ?_, (hproper hn).same_path_iff (hproper hm), ?_⟩
  · rw [(hproper hn).join_components, (hproper hn).path_eq]
  · intro c id f hf line hline
    obtain ⟨target, d, hd, rfl⟩ := Catalogue.exists_of_mem_imports hf hline
    refine ⟨target, d, hd, rfl, ?_⟩
    intro u hu o r hr
    obtain ⟨e, he, _, hpath⟩ := Catalogue.name_of_render hr
    cases hd.symm.trans he
    rw [hpath, (hproper hu).path_eq]

/-- A meter with its unit nested in it. -/
def meterTypes : List Operation :=
  let name (names : List String) : QualifiedName :=
    ⟨Text.ofString "hw.meter", ⟨2, 1⟩, names.map Text.ofString⟩
  [.declareInterface (name ["IMeter"]) none,
    .declareCompound .struct (name ["IMeter", "Unit"]) (some 1)]

theorem meterTypes_imported_where_written :
    ∃ n m f, read (Text.ofString "hw.meter@2.1::IMeter.Unit") = .ok n ∧
      read (Text.ofString "hw.meter@2.0::IMeterUnit") = .ok m ∧
      n.path = Text.ofString "hw/meter2/IMeterUnit.aidl" ∧ n.path.same m.path = true ∧
      (Catalogue.build meterTypes).translate 1 = .ok f ∧
      Text.ofString "import hw.meter2.IMeterUnit;" ∈ f.imports ∧
      ∃ target d, (Catalogue.build meterTypes).get? target = some d ∧
        Text.ofString "import hw.meter2.IMeterUnit;" = Imports.line d.name.aidl ∧
          ∀ u, read u = .ok d.name → ∀ o r, (Catalogue.build meterTypes).render o target = .ok r →
            r.path = Imports.fileOf d.name.aidl := by
  let n : QualifiedName :=
    ⟨Text.ofString "hw.meter", ⟨2, 1⟩, [Text.ofString "IMeter", Text.ofString "Unit"]⟩
  let m : QualifiedName := ⟨Text.ofString "hw.meter", ⟨2, 0⟩, [Text.ofString "IMeterUnit"]⟩
  let f : AidlFile :=
    ⟨⟨Text.ofString "hw.meter", ⟨2, 1⟩, [Text.ofString "IMeter"]⟩,
      [Text.ofString "import hw.meter2.IMeterUnit;"], none, .interface none false [] [] []⟩
  have hn : read (Text.ofString "hw.meter@2.1::IMeter.Unit") = .ok n := rfl
  have hm : read (Text.ofString "hw.meter@2.0::IMeterUnit") = .ok m := rfl
  have hf : (Catalogue.build meterTypes).translate 1 = .ok f := rfl
  have hline : Text.ofString "import hw.meter2.IMeterUnit;" ∈ f.imports := by simp [f]
  obtain ⟨hpath, _, hsame, himports⟩ := path_is_file_of_aidl hn hm
  have haidl : n.aidl = m.aidl := by decide
  exact ⟨n, m, f, hn, hm, hpath.trans (by decide), hsame.2 haidl, hf, hline,
    himports (Catalogue.build meterTypes) 1 f hf _ hline⟩

end QualifiedName

end FlatAidl
