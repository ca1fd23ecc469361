import FlatAidl.Proofs.Catalogue.Consistency
import FlatAidl.Proofs.Name.RoundTrip
import FlatAidl.Proofs.Package.Headings

/-!
The places that models take. The listing of a model is read off the model alone: the model itself,
then what is nested in it, each with its full name, its place, the place around it and the places
directly inside it. To declare models is to add exactly their listing to the catalogue.
-/

namespace FlatAidl

/-- A model among others in the order of their places. -/
structure Listed where
  path : Path
  name : QualifiedName
  parent : Option DeclId
  nested : List DeclId
  model : DeclModel

namespace DeclModel

mutual

/-- The number of declarations in a model, itself included. -/
def count : DeclModel → Nat
  | interface _ _ _ _ types => 1 + countAll types
  | compound _ _ _ _ types => 1 + countAll types

def countAll : List DeclModel → Nat
  | [] => 0
  | model :: rest => model.count + countAll rest

end

/-- The places of models one after another, each followed by what is nested in it. -/
def places (start : DeclId) : List DeclModel → List DeclId
  | [] => []
  | model :: rest => start :: places (start + model.count) rest

mutual

/-- A model and everything nested in it, with places from `start` on. -/
def listing (path : Path) (scope : QualifiedName) (parent : Option DeclId) (start : DeclId) :
    DeclModel → List Listed
  | interface name super doc methods types =>
    ⟨path, scope.nested name, parent, places (start + 1) types,
        interface name super doc methods types⟩ ::
      listingAll path (scope.nested name) (some start) (start + 1) types
  | compound kind name doc fields types =>
    ⟨path, scope.nested name, parent, places (start + 1) types,
        compound kind name doc fields types⟩ ::
      listingAll path (scope.nested name) (some start) (start + 1) types

def listingAll (path : Path) (scope : QualifiedName) (parent : Option DeclId) (start : DeclId) :
    List DeclModel → List Listed
  | [] => []
  | model :: rest => listing path scope parent start model ++
      listingAll path scope parent (start + model.count) rest

end

mutual

theorem length_listing (path : Path) (scope : QualifiedName) (parent : Option DeclId)
    (start : DeclId) (model : DeclModel) :
    (listing path scope parent start model).length = model.count := by
  cases model with
  | interface name super doc methods types =>
    have htypes := length_listingAll path (scope.nested name) (some start) (start + 1) types
    simp only [listing, count, List.length_cons]
    omega
  | compound kind name doc fields types =>
    have htypes := length_listingAll path (scope.nested name) (some start) (start + 1) types
    simp only [listing, count, List.length_cons]
    omega

theorem length_listingAll (path : Path) (scope : QualifiedName) (parent : Option DeclId)
    (start : DeclId) (models : List DeclModel) :
    (listingAll path scope parent start models).length = countAll models := by
  cases models with
  | nil => simp only [listingAll, countAll, List.length_nil]
  | cons model rest =>
    have hfirst := length_listing path scope parent start model
    have hrest := length_listingAll path scope parent (start + model.count) rest
    simp only [listingAll, countAll, List.length_append]
    omega

end

/-- The listing of files; a file whose package is no name has none. -/
def listingOf (start : DeclId) : List (Path × PackageModel) → List Listed
  | [] => []
  | file :: rest =>
    let own := match QualifiedName.read file.2.package with
      | .ok package => listingAll file.1 package none start file.2.declarations
      | .error _ => []
    own ++ listingOf (start + own.length) rest

end DeclModel

/-! ### Packages of listed models -/

namespace DeclModel

mutual

theorem packageOnly_of_mem_listing {path : Path} {scope : QualifiedName} {parent : Option DeclId}
    {start : DeclId} (model : DeclModel) :
    ∀ e ∈ listing path scope parent start model, e.name.packageOnly = scope.packageOnly := by
  cases model with
  | interface name super doc methods types =>
    rw [listing, List.forall_mem_cons]
    exact ⟨rfl, packageOnly_of_mem_listingAll types⟩
  | compound kind name doc fields types =>
    rw [listing, List.forall_mem_cons]
    exact ⟨rfl, packageOnly_of_mem_listingAll types⟩

theorem packageOnly_of_mem_listingAll {path : Path} {scope : QualifiedName}
    {parent : Option DeclId} {start : DeclId} (models : List DeclModel) :
    ∀ e ∈ listingAll path scope parent start models, e.name.packageOnly = scope.packageOnly := by
  cases models with
  | nil =>
    intro e he
    cases he
  | cons model rest =>
    rw [listingAll, List.forall_mem_append]
    exact ⟨packageOnly_of_mem_listing model, packageOnly_of_mem_listingAll rest⟩

end

/-- Every model that is listed has the package and the version of a name that was read. -/
theorem packageOnly_read_of_mem_listingOf {start : DeclId} {files : List (Path × PackageModel)} :
    ∀ e ∈ listingOf start files, ∃ t, QualifiedName.read t = .ok e.name.packageOnly := by
  induction files generalizing start with
  | nil =>
    intro e he
    cases he
  | cons file rest ih =>
    rw [listingOf, List.forall_mem_append]
    refine ⟨?_, ih⟩
    cases hread : QualifiedName.read file.2.package with
    | error cause =>
      intro e he
      cases he
    | ok package =>
      intro e he
      have hproper : package.Proper :=
        QualifiedName.proper_of_spells (QualifiedName.read_eq_ok_iff_spells.1 hread)
      rw [packageOnly_of_mem_listingAll _ e he]
      exact ⟨_, QualifiedName.proper_iff_read_text.1 hproper.packageOnly⟩

end DeclModel

/-! ### Names of nested models -/

namespace QualifiedName

variable {n full : QualifiedName} {name : Text}

theorem split_typePath (h : n.Proper) (htype : n.isType = true) :
    Text.split '.' n.typePath = n.names := by
  have hne : n.names ≠ [] := by simpa [isType] using htype
  exact (dotted_iff.1 (dotted_join hne h.names)).1

/-- The text of a declaration's name is read as the name around it and the names in its own text. -/
theorem read_nameText (h : n.Proper) (hread : read (Assembly.nameText n name) = .ok full) :
    full.Proper ∧ full = n.inside (Text.split '.' name) := by
  have hproper : full.Proper := proper_of_spells (read_eq_ok_iff_spells.1 hread)
  refine ⟨hproper, ?_⟩
  obtain ⟨packages, hpackage⟩ := h.package
  have hversion : Version.Spells n.version.text n.version :=
    .intro (Decimal.denotes_write _) (Decimal.denotes_write _) h.major_pos h.major_lt h.minor_lt
  have hpath : ∃ path, Assembly.nameText n name =
      n.package ++ '@' :: (n.version.text ++ ':' :: ':' :: path) ∧
        Text.split '.' path = n.names ++ Text.split '.' name := by
    cases htype : n.isType with
    | true =>
      refine ⟨n.typePath ++ '.' :: name, ?_, ?_⟩
      · have hempty : n.names.isEmpty = false := by simpa [isType] using htype
        simp [Assembly.nameText, htype, text, hempty, Text.ofString]
      · rw [Text.split_append_cons, split_typePath h htype]
    | false =>
      have hnil : n.names = [] := by simpa [isType] using htype
      refine ⟨name, ?_, ?_⟩
      · simp [Assembly.nameText, htype, text, hnil, Text.ofString]
      · rw [hnil, List.nil_append]
  obtain ⟨path, htext, hsplit⟩ := hpath
  rw [htext, read_eq_ok_iff_names hpackage hversion (cutTypePath_append hversion path)] at hread
  obtain ⟨names, hnames, rfl⟩ := hread
  have hdotted := (dotted_iff.1 (readNames?_some_iff.1 hnames)).1
  rw [← hdotted, hsplit]
  rfl

/-- One name more than the name around it can only be the model's own text. -/
theorem inside_split_eq_nested
    (h : (n.inside (Text.split '.' name)).names.length = n.names.length + 1) :
    n.inside (Text.split '.' name) = n.nested name := by
  have hlength : (Text.split '.' name).length = 1 := by
    simp only [inside, List.length_append] at h
    omega
  obtain ⟨one, hone⟩ := List.length_eq_one_iff.1 hlength
  have hjoin := Text.join_split '.' name
  rw [hone] at hjoin
  have hsame : one = name := hjoin
  rw [inside, nested, hone, hsame]

end QualifiedName

namespace Assembly

variable {a a' : Assembly} {path : Path} {scope : QualifiedName} {parent : Option DeclId}

/-- Whether a scope is the name of the declaration at a place, or there is no such place. -/
def Around (a : Assembly) (scope : QualifiedName) (parent : Option DeclId) : Prop :=
  ∀ p, parent = some p → a.catalogue.name? p = some scope

theorem name_of_granted {name : Text} {full : QualifiedName} {model : DeclModel}
    (hscope : scope.Proper) (hparent : a.Around scope parent)
    (hread : scopedName path scope name = .ok full)
    (hgrown : a.declareOne path parent full model = .ok a') :
    full.Proper ∧ full = scope.nested name := by
  have hread' : QualifiedName.read (nameText scope name) = .ok full := by
    rw [scopedName] at hread
    split at hread
    · next found hfound =>
      cases hread
      exact hfound
    · cases hread
  obtain ⟨hproper, heq⟩ := QualifiedName.read_nameText hscope hread'
  refine ⟨hproper, ?_⟩
  have hfits := Catalogue.fits_of_checkNesting (declareOne_eq_ok.1 hgrown).1.2.2
  have hpieces : 0 < (Text.split '.' name).length :=
    List.length_pos_iff.2 (Text.pieces_ne_nil _ name)
  have hlength : full.names.length = scope.names.length + (Text.split '.' name).length := by
    rw [heq, QualifiedName.inside, List.length_append]
  rw [heq]
  refine QualifiedName.inside_split_eq_nested ?_
  rw [← heq]
  -- The nesting that was granted leaves room for one name only behind those of the scope.
  cases parent with
  | none =>
    have hone : full.names.length = 1 := hfits
    omega
  | some p =>
    obtain ⟨outer, houter, hnesting⟩ := hfits
    rw [hparent p rfl] at houter
    cases houter
    rw [QualifiedName.parent?] at hnesting
    split at hnesting
    · cases hnesting
    · have hnames := congrArg QualifiedName.names (Option.some.inj hnesting)
      have hdrop := congrArg List.length hnames
      simp only [List.length_dropLast] at hdrop
      omega

/-! ### Declarations added at the end -/

/-- Declarations, the one at a place of which lists further ones inside itself. -/
def adopt (parent : Option DeclId) (kids : List DeclId) (ds : List Declaration) :
    List Declaration :=
  match parent with
  | none => ds
  | some p => ds.modify p fun d => { d with nested := d.nested ++ kids }

theorem length_adopt (parent : Option DeclId) (kids : List DeclId) (ds : List Declaration) :
    (adopt parent kids ds).length = ds.length := by
  cases parent with
  | none => rfl
  | some p => exact List.length_modify _ _ _

theorem names_adopt (parent : Option DeclId) (kids : List DeclId) (ds : List Declaration) :
    (adopt parent kids ds).map Declaration.name = ds.map Declaration.name := by
  cases parent with
  | none => rfl
  | some p =>
    apply List.ext_getElem?
    intro k
    simp only [adopt, List.getElem?_map, List.getElem?_modify]
    by_cases hk : p = k
    · cases ds[k]? with
      | none => rfl
      | some d => simp [hk]
    · simp [hk]

theorem adopt_nil (parent : Option DeclId) (ds : List Declaration) : adopt parent [] ds = ds := by
  cases parent with
  | none => rfl
  | some p =>
    simp only [adopt, List.append_nil]
    exact List.modify_id p ds

theorem adopt_adopt (parent : Option DeclId) (kids more : List DeclId) (ds : List Declaration) :
    adopt parent more (adopt parent kids ds) = adopt parent (kids ++ more) ds := by
  cases parent with
  | none => rfl
  | some p => simp [adopt, List.modify_modify_eq, Function.comp_def]

theorem adopt_append {ds : List Declaration} (hp : ∀ p, parent = some p → p < ds.length)
    (kids : List DeclId) (more : List Declaration) :
    adopt parent kids (ds ++ more) = adopt parent kids ds ++ more := by
  cases parent with
  | none => rfl
  | some p =>
    have hlt : p < ds.length := hp p rfl
    clear hp
    simp only [adopt]
    induction ds generalizing p with
    | nil => exact absurd hlt (Nat.not_lt_zero p)
    | cons d ds ih =>
      cases p with
      | zero => rfl
      | succ p =>
        have hrest := ih p (Nat.lt_of_succ_lt_succ hlt)
        simp only [List.cons_append, List.modify_succ_cons, hrest]

theorem adopt_length (kids : List DeclId) (ds more : List Declaration) (d : Declaration) :
    adopt (some ds.length) kids (ds ++ d :: more) =
      ds ++ { d with nested := d.nested ++ kids } :: more := by
  simp only [adopt]
  induction ds with
  | nil => rfl
  | cons first ds ih =>
    simp only [List.cons_append, List.length_cons, List.modify_succ_cons, ih]

end Assembly

/-- A listed model's declaration before it gets its members. -/
def Listed.shell (e : Listed) : Declaration :=
  ⟨e.name, none, Assembly.emptyBody e.model, e.nested, e.parent⟩

namespace Assembly

variable {a a' : Assembly} {path : Path} {scope : QualifiedName} {parent : Option DeclId}

def waiting (start : DeclId) (entries : List Listed) : List PendingModel :=
  (entries.zipIdx start).map fun entry => ⟨entry.2, entry.1.path, entry.1.model⟩

/-- What a listing adds: its declarations at the end, which wait for their members, and places to
the list of the declaration around it. -/
def grow (a : Assembly) (parent : Option DeclId) (kids : List DeclId) (entries : List Listed) :
    Assembly :=
  ⟨⟨adopt parent kids a.catalogue.decls ++ entries.map Listed.shell⟩,
    a.pending ++ waiting a.catalogue.size entries⟩

theorem size_grow (a : Assembly) (parent : Option DeclId) (kids : List DeclId)
    (entries : List Listed) :
    (a.grow parent kids entries).catalogue.size = a.catalogue.size + entries.length := by
  simp only [grow, Catalogue.size, List.length_append, List.length_map, length_adopt]

theorem name?_grow (parent : Option DeclId) (kids : List DeclId) (entries : List Listed)
    {k : DeclId} (hk : k < a.catalogue.size) :
    (a.grow parent kids entries).catalogue.name? k = a.catalogue.name? k := by
  have hlt : k < (a.catalogue.decls.map Declaration.name).length := by
    rw [List.length_map]
    exact hk
  rw [Catalogue.name?_eq_getElem?, Catalogue.name?_eq_getElem?]
  simp only [grow, List.map_append, names_adopt]
  exact List.getElem?_append_left hlt

theorem grow_nil (a : Assembly) (parent : Option DeclId) : a.grow parent [] [] = a := by
  simp [grow, adopt_nil, waiting]

theorem Around.lt (h : a.Around scope parent) : ∀ p, parent = some p → p < a.catalogue.size :=
  fun p hp => Catalogue.lt_size_of_name? (h p hp)

theorem Around.grow (h : a.Around scope parent) (kids : List DeclId) (entries : List Listed) :
    (a.grow parent kids entries).Around scope parent := by
  intro p hp
  rw [name?_grow parent kids entries (h.lt p hp)]
  exact h p hp

theorem grow_grow (hp : ∀ p, parent = some p → p < a.catalogue.size) (kids more : List DeclId)
    (entries others : List Listed) :
    (a.grow parent kids entries).grow parent more others =
      a.grow parent (kids ++ more) (entries ++ others) := by
  have hlt : ∀ p, parent = some p → p < (adopt parent kids a.catalogue.decls).length := by
    rw [length_adopt]
    exact hp
  have hdecls : (⟨adopt parent more (adopt parent kids a.catalogue.decls ++
      entries.map Listed.shell) ++ others.map Listed.shell⟩ : Catalogue) =
        ⟨adopt parent (kids ++ more) a.catalogue.decls ++ (entries ++ others).map Listed.shell⟩ := by
    rw [adopt_append hlt, adopt_adopt, List.map_append, List.append_assoc]
  have hwaiting : waiting a.catalogue.size entries ++
      waiting (a.catalogue.size + entries.length) others =
        waiting a.catalogue.size (entries ++ others) := by
    simp only [waiting, List.zipIdx_append, List.map_append]
  rw [grow, size_grow]
  simp only [grow, hdecls, List.append_assoc, hwaiting]

theorem grow_last (a : Assembly) (parent : Option DeclId) (kids more : List DeclId) (e : Listed)
    (entries : List Listed) :
    (a.grow parent kids [e]).grow (some a.catalogue.size) more entries =
      a.grow parent kids ({ e with nested := e.nested ++ more } :: entries) := by
  have hlast := adopt_length more (adopt parent kids a.catalogue.decls) [] e.shell
  rw [length_adopt] at hlast
  have hdecls : (⟨adopt (some a.catalogue.size) more (adopt parent kids a.catalogue.decls ++
      [e.shell]) ++ entries.map Listed.shell⟩ : Catalogue) =
        ⟨adopt parent kids a.catalogue.decls ++
          ({ e with nested := e.nested ++ more } :: entries).map Listed.shell⟩ := by
    have hsize : a.catalogue.size = a.catalogue.decls.length := rfl
    rw [hsize, hlast, List.append_assoc]
    rfl
  rw [grow, size_grow]
  simp only [grow, List.map_cons, List.map_nil, hdecls, List.append_assoc]
  rfl

/-! ### Declaring -/

theorem declareOne_eq_grow {name : QualifiedName} {model : DeclModel}
    (h : a.declareOne path parent name model = .ok a') :
    a' = a.grow parent [a.catalogue.size] [⟨path, name, parent, [], model⟩] := by
  obtain ⟨⟨_, _, hnesting⟩, rfl⟩ := declareOne_eq_ok.1 h
  have hlt := Catalogue.parent_lt_of_checkNesting hnesting
  have hdecls : a.catalogue.append name parent (emptyBody model) =
      ⟨adopt parent [a.catalogue.size] a.catalogue.decls ++
        [⟨name, none, emptyBody model, [], parent⟩]⟩ := by
    rw [← adopt_append hlt]
    cases parent with
    | none => rfl
    | some p => rfl
  rw [hdecls]
  rfl

theorem eq_grow_of_declare {name : Text} {model : DeclModel} {types : List DeclModel}
    (hscope : scope.Proper) (hparent : a.Around scope parent)
    (h : (scopedName path scope name >>= fun full => a.declareOne path parent full model >>=
      fun grown => grown.declareAll path full (some a.catalogue.size) types) = .ok a')
    (htypes : ∀ grown : Assembly, (scope.nested name).Proper →
      grown.Around (scope.nested name) (some a.catalogue.size) →
        grown.declareAll path (scope.nested name) (some a.catalogue.size) types = .ok a' →
          a' = grown.grow (some a.catalogue.size) (DeclModel.places grown.catalogue.size types)
            (DeclModel.listingAll path (scope.nested name) (some a.catalogue.size)
              grown.catalogue.size types)) :
    a' = a.grow parent [a.catalogue.size]
      (⟨path, scope.nested name, parent, DeclModel.places (a.catalogue.size + 1) types, model⟩ ::
        DeclModel.listingAll path (scope.nested name) (some a.catalogue.size)
          (a.catalogue.size + 1) types) := by
  obtain ⟨full, hread, h⟩ := Outcome.bind_eq_ok.1 h
  obtain ⟨grown, hgrown, h⟩ := Outcome.bind_eq_ok.1 h
  obtain ⟨hproper, rfl⟩ := name_of_granted hscope hparent hread hgrown
  have haround : grown.Around (scope.nested name) (some a.catalogue.size) := by
    intro p hp
    cases hp
    apply Catalogue.name?_of_lookup
    rw [lookup_declareOne hgrown, if_pos rfl]
  have hall := htypes grown hproper haround h
  rw [declareOne_eq_grow hgrown, size_grow, List.length_singleton, grow_last,
    List.nil_append] at hall
  exact hall

mutual

theorem declare_eq_grow {a a' : Assembly} {path : Path} {scope : QualifiedName}
    {parent : Option DeclId} (hscope : scope.Proper) (hparent : a.Around scope parent)
    (model : DeclModel) (h : a.declare path scope parent model = .ok a') :
    a' = a.grow parent [a.catalogue.size] (model.listing path scope parent a.catalogue.size) := by
  cases model with
  | interface name super doc methods types =>
    rw [declare] at h
    rw [DeclModel.listing]
    exact eq_grow_of_declare hscope hparent h fun _ hproper haround hall =>
      declareAll_eq_grow hproper haround types hall
  | compound kind name doc fields types =>
    rw [declare] at h
    rw [DeclModel.listing]
    exact eq_grow_of_declare hscope hparent h fun _ hproper haround hall =>
      declareAll_eq_grow hproper haround types hall

theorem declareAll_eq_grow {a a' : Assembly} {path : Path} {scope : QualifiedName}
    {parent : Option DeclId} (hscope : scope.Proper) (hparent : a.Around scope parent)
    (models : List DeclModel) (h : a.declareAll path scope parent models = .ok a') :
    a' = a.grow parent (DeclModel.places a.catalogue.size models)
      (DeclModel.listingAll path scope parent a.catalogue.size models) := by
  cases models with
  | nil =>
    rw [declareAll] at h
    cases h
    rw [DeclModel.places, DeclModel.listingAll, grow_nil]
  | cons model rest =>
    rw [declareAll] at h
    obtain ⟨grown, hgrown, h⟩ := Outcome.bind_eq_ok.1 h
    have hfirst := declare_eq_grow hscope hparent model hgrown
    have hlength := DeclModel.length_listing path scope parent a.catalogue.size model
    rw [hfirst] at h
    have hrest := declareAll_eq_grow hscope (hparent.grow _ _) rest h
    rw [size_grow, hlength, grow_grow hparent.lt] at hrest
    rw [DeclModel.places, DeclModel.listingAll]
    exact hrest

end

/-! ### Files -/

theorem around_none (a : Assembly) (scope : QualifiedName) : a.Around scope none := by
  intro p hp
  cases hp

theorem declareFiles_eq_grow {files : List (Path × PackageModel)}
    (h : files.foldlM declarePackage a = .ok a') :
    (∀ file ∈ files, ∃ package, QualifiedName.read file.2.package = .ok package) ∧
      a' = a.grow none [] (DeclModel.listingOf a.catalogue.size files) := by
  induction files generalizing a with
  | nil =>
    cases h
    exact ⟨fun file hfile => absurd hfile List.not_mem_nil, (grow_nil _ none).symm⟩
  | cons file rest ih =>
    rw [List.foldlM_cons] at h
    obtain ⟨grown, hgrown, h⟩ := Outcome.bind_eq_ok.1 h
    rw [declarePackage] at hgrown
    cases hread : QualifiedName.read file.2.package with
    | error cause => simp [hread] at hgrown
    | ok package =>
      simp only [hread] at hgrown
      have hproper : package.Proper :=
        QualifiedName.proper_of_spells (QualifiedName.read_eq_ok_iff_spells.1 hread)
      have hfirst := declareAll_eq_grow hproper (around_none a package) _ hgrown
      obtain ⟨hreads, hrest⟩ := ih h
      refine ⟨?_, ?_⟩
      · intro f hf
        rcases List.mem_cons.1 hf with rfl | hf
        · exact ⟨package, hread⟩
        · exact hreads f hf
      · rw [hfirst, size_grow, grow_grow (around_none a package).lt] at hrest
        rw [DeclModel.listingOf, hread]
        exact hrest

end Assembly

end FlatAidl
