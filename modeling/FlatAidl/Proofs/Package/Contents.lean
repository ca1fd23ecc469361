import FlatAidl.Proofs.Package.Listing
import FlatAidl.Proofs.Package.Rearrangement

/-!
What the catalogue of package models holds. Behind the base interface stands the listing of the
models, in which each declaration says what its model says: the comment is read, and every text of a
type or of an extended interface is resolved in the declaration's own scope among all declared names.
-/

namespace FlatAidl

namespace Catalogue

variable {c c' : Catalogue} {path : Path} {scope : QualifiedName}

/-! ### Members and their models -/

structure ParamOf (c : Catalogue) (path : Path) (scope : QualifiedName) (model : ParamModel)
    (p : Param) : Prop where
  name : p.name = model.name
  type : c.resolveType path scope model.type = .ok p.type

structure MethodOf (c : Catalogue) (path : Path) (scope : QualifiedName) (model : MethodModel)
    (m : Method) : Prop where
  name : m.name = model.name
  args : List.Forall₂ (c.ParamOf path scope) model.args m.args
  results : List.Forall₂ (c.ParamOf path scope) model.results m.results
  oneway : m.oneway = model.oneway
  doc : m.doc = model.doc.map (docIn path)

structure FieldOf (c : Catalogue) (path : Path) (scope : QualifiedName) (model : FieldModel)
    (f : Field) : Prop where
  name : f.name = model.name
  type : c.resolveType path scope model.type = .ok f.type
  doc : f.doc = model.doc.map (docIn path)

/-- The interface that one extends whose model names another one or none. -/
inductive SuperOf (c : Catalogue) (path : Path) (scope : QualifiedName) :
    Option Text → DeclId → Prop
  | base : SuperOf c path scope none base
  | named {text : Text} {id : DeclId} (resolves : c.resolveName path scope text = .ok id) :
      SuperOf c path scope (some text) id

inductive BodyOf (c : Catalogue) (path : Path) (scope : QualifiedName) : DeclModel → Body → Prop
  | interface {name : Text} {super doc : Option Text} {models : List MethodModel}
      {types : List DeclModel} {target : DeclId} {methods : List Method}
      (extended : c.SuperOf path scope super target)
      (members : List.Forall₂ (c.MethodOf path scope) models methods) :
      BodyOf c path scope (.interface name super doc models types)
        (.interface ⟨some target, methods⟩)
  | compound {kind : CompoundKind} {name : Text} {doc : Option Text} {models : List FieldModel}
      {types : List DeclModel} {fields : List Field}
      (members : List.Forall₂ (c.FieldOf path scope) models fields) :
      BodyOf c path scope (.compound kind name doc models types) (.compound ⟨kind, fields⟩)

/-- Whether a declaration is the one of a listed model. -/
structure Describes (c : Catalogue) (e : Listed) (d : Declaration) : Prop where
  name : d.name = e.name
  parent : d.parent = e.parent
  nested : d.nested = e.nested
  doc : d.doc = e.model.doc.map (docIn e.path)
  body : c.BodyOf e.path e.name e.model d.body

theorem paramsOf_of_resolve {models : List ParamModel} {ps : List Param}
    (h : models.mapM (c.resolveParam path scope) = .ok ps) :
    List.Forall₂ (c.ParamOf path scope) models ps := by
  refine (Outcome.mapM_eq_ok_iff_forall₂.1 h).imp ?_
  intro model p hp
  obtain ⟨type, htype, rfl⟩ := Outcome.map_eq_ok.1 hp
  exact ⟨rfl, htype⟩

theorem methodOf_of_resolve {model : MethodModel} {m : Method}
    (h : c.resolveMethod path scope model = .ok m) : c.MethodOf path scope model m := by
  obtain ⟨args, hargs, h⟩ := Outcome.bind_eq_ok.1 h
  obtain ⟨results, hresults, h⟩ := Outcome.bind_eq_ok.1 h
  cases h
  exact ⟨rfl, paramsOf_of_resolve hargs, paramsOf_of_resolve hresults, rfl, rfl⟩

theorem fieldOf_of_resolve {model : FieldModel} {f : Field}
    (h : c.resolveField path scope model = .ok f) : c.FieldOf path scope model f := by
  obtain ⟨type, htype, rfl⟩ := Outcome.map_eq_ok.1 h
  exact ⟨rfl, htype, rfl⟩

theorem Allows.superOf {id target : DeclId} {super : Option Text}
    (h : c.Allows path scope id super target) : c.SuperOf path scope super target := by
  cases super with
  | none =>
    have hbase : target = base := h
    rw [hbase]
    exact .base
  | some text => exact .named h.1

theorem commented_eq (p : PendingModel) {d : Declaration} (h : d.doc = none) :
    commented p d = { d with doc := p.model.doc.map (docIn p.path) } := by
  unfold commented
  cases p.model.doc with
  | none => rw [Option.map_none, ← h]
  | some t => rfl

theorem describes_of_fills {id : DeclId} {e : Listed} {filled : Declaration}
    (h : c.Fills ⟨id, e.path, e.model⟩ e.shell filled) : c.Describes e filled := by
  have hcommented := commented_eq ⟨id, e.path, e.model⟩ (show e.shell.doc = none from rfl)
  obtain ⟨path, name, parent, nested, model⟩ := e
  cases model with
  | interface n super doc methods types =>
    obtain ⟨target, new, hallows, hnew, rfl⟩ := h
    have hmembers := (Outcome.mapM_eq_ok_iff_forall₂.1 hnew).imp fun _ _ => methodOf_of_resolve
    rw [hcommented]
    exact ⟨rfl, rfl, rfl, rfl, .interface hallows.superOf hmembers⟩
  | compound kind n doc fields types =>
    obtain ⟨new, hnew, rfl⟩ := h
    have hmembers := (Outcome.mapM_eq_ok_iff_forall₂.1 hnew).imp fun _ _ => fieldOf_of_resolve
    rw [hcommented]
    exact ⟨rfl, rfl, rfl, rfl, .compound hmembers⟩

/-! ### From declared to defined -/

theorem name?_of_foldlM_define {ps : List PendingModel} (h : Awaits c ps)
    (hc : ps.foldlM define c = .ok c') (id : DeclId) : c'.name? id = c.name? id := by
  obtain ⟨_, hother, hfilled⟩ := fills_of_foldlM_define h hc
  by_cases hid : id ∈ ps.map PendingModel.id
  · obtain ⟨p, hp, rfl⟩ := List.mem_map.1 hid
    obtain ⟨d, filled, hd, hfills, hget⟩ := hfilled p hp
    rw [name?_of_get? hd, name?_of_get? hget, hfills.name_eq]
  · rw [name?, name?, hother id hid]

theorem BodyOf.congr (h : ∀ n, c'.lookup n = c.lookup n) {model : DeclModel} {body : Body}
    (hbody : c.BodyOf path scope model body) : c'.BodyOf path scope model body := by
  have hparam : ∀ model p, c.ParamOf path scope model p → c'.ParamOf path scope model p := by
    intro model p hp
    refine ⟨hp.name, ?_⟩
    rw [resolveType_congr h]
    exact hp.type
  cases hbody with
  | interface extended members =>
    refine .interface ?_ (members.imp fun model m hm => ?_)
    · cases extended with
      | base => exact .base
      | named resolves =>
        rw [← resolveName_congr h] at resolves
        exact .named resolves
    · exact ⟨hm.name, hm.args.imp hparam, hm.results.imp hparam, hm.oneway, hm.doc⟩
  | compound members =>
    refine .compound (members.imp fun model f hf => ⟨hf.name, ?_, hf.doc⟩)
    rw [resolveType_congr h]
    exact hf.type

theorem Describes.congr (h : ∀ n, c'.lookup n = c.lookup n) {e : Listed} {d : Declaration}
    (hd : c.Describes e d) : c'.Describes e d :=
  { hd with body := hd.body.congr h }

end Catalogue

namespace Assembly

theorem mem_waiting {start k : DeclId} {entries : List Listed} {e : Listed}
    (h : entries[k]? = some e) : ⟨start + k, e.path, e.model⟩ ∈ waiting start entries := by
  refine List.mem_map.2 ⟨(e, start + k), ?_, rfl⟩
  refine List.mem_of_getElem? (i := k) ?_
  rw [List.getElem?_zipIdx, h]
  rfl

theorem get?_grow_empty {k : DeclId} {entries : List Listed} {e : Listed}
    (h : entries[k]? = some e) :
    (empty.grow none [] entries).catalogue.get? (k + 1) = some e.shell := by
  have hshell : (entries.map Listed.shell)[k]? = some e.shell := by
    rw [List.getElem?_map, h]
    rfl
  exact hshell

end Assembly

namespace Catalogue

/-- Behind the base interface the catalogue of files holds exactly their models, each at its place in
the listing and described by its model. -/
theorem ofPackages_describes_listing {files : List (Path × PackageModel)} {c : Catalogue}
    (h : ofPackages files = .ok c) :
    (∀ file ∈ files, ∃ package, QualifiedName.read file.2.package = .ok package) ∧
      c.size = (DeclModel.listingOf 1 files).length + 1 ∧
      c.get? base = some baseDeclaration ∧
      ∀ k e, (DeclModel.listingOf 1 files)[k]? = some e →
        ∃ d, c.get? (k + 1) = some d ∧ c.Describes e d := by
  obtain ⟨declared, hdeclared, hdefined, _⟩ := ofPackages_eq_ok_iff.1 h
  obtain ⟨_, _, _, _, ho⟩ := Assembly.exists_headings hdeclared
  obtain ⟨hreads, hgrown⟩ := Assembly.declareFiles_eq_grow hdeclared
  have hlisting : declared = Assembly.empty.grow none [] (DeclModel.listingOf 1 files) := hgrown
  obtain ⟨hsize, hother, hfilled⟩ := fills_of_foldlM_define ho.awaits hdefined
  -- Members change no name, so texts resolve in the end as they did when the members came.
  have hlookup := lookup_of_name? (name?_of_foldlM_define ho.awaits hdefined)
  refine ⟨hreads, ?_, ?_, ?_⟩
  · rw [hsize, hlisting, Assembly.size_grow, Nat.add_comm]
    rfl
  · have hfree : base ∉ declared.pending.map PendingModel.id := by
      intro hmem
      obtain ⟨p, hp, hid⟩ := List.mem_map.1 hmem
      exact ho.awaits.proper p hp hid
    rw [hother base hfree, ho.base]
  · intro k e he
    have hwaiting : ⟨1 + k, e.path, e.model⟩ ∈ declared.pending := by
      rw [hlisting]
      exact List.mem_append_right _ (Assembly.mem_waiting he)
    obtain ⟨d, filled, hd, hfills, hget⟩ := hfilled _ hwaiting
    have hshell := Assembly.get?_grow_empty he
    rw [← hlisting, Nat.add_comm] at hshell
    rw [hshell] at hd
    cases hd
    rw [Nat.add_comm] at hget
    exact ⟨filled, hget, (describes_of_fills hfills).congr hlookup⟩

/-- Every declaration of files has the package and the version of a name that was read. -/
theorem packagesRead_ofPackages {files : List (Path × PackageModel)} {c : Catalogue}
    (h : ofPackages files = .ok c) : c.PackagesRead := by
  obtain ⟨declared, hdeclared, hdefined, _⟩ := ofPackages_eq_ok_iff.1 h
  obtain ⟨_, _, _, _, ho⟩ := Assembly.exists_headings hdeclared
  obtain ⟨_, hgrown⟩ := Assembly.declareFiles_eq_grow hdeclared
  intro id n hn
  rw [name?_of_foldlM_define ho.awaits hdefined, hgrown, name?_eq_getElem?] at hn
  rcases List.mem_cons.1 (List.mem_of_getElem? hn) with rfl | hn
  · exact ⟨Text.ofString "android.hidl.base@1.0", rfl⟩
  · obtain ⟨d, hd, rfl⟩ := List.mem_map.1 hn
    obtain ⟨e, he, rfl⟩ := List.mem_map.1 hd
    exact DeclModel.packageOnly_read_of_mem_listingOf e he

/-- A meter whose unit is nested in it, with the range of the unit nested in that, and a later meter
in a file of its own. -/
def meterFiles : List (Path × PackageModel) :=
  let interface := Text.ofString "IMeter"
  let range : DeclModel := .compound .union (Text.ofString "Range") none
    [⟨Text.ofString "upTo", Text.ofString "uint32_t", none⟩] []
  let unit : DeclModel := .compound .struct (Text.ofString "Unit") (some (Text.ofString "* A unit."))
    [⟨Text.ofString "ranges", Text.ofString "vec<Range>", none⟩] [range]
  let read : MethodModel :=
    ⟨Text.ofString "read", [], [⟨Text.ofString "unit", Text.ofString "Unit"⟩], false, none⟩
  [(Text.ofString "old.json",
      ⟨Text.ofString "hw.meter@1.0", [.interface interface none none [read] [unit]]⟩),
    (Text.ofString "new.json", ⟨Text.ofString "hw.meter@1.1",
      [.interface interface (some (Text.ofString "hw.meter@1.0::IMeter")) none [] []]⟩)]

theorem meterFiles_described : ∃ c unit, ofPackages meterFiles = .ok c ∧ c.size = 5 ∧
    c.get? 2 = some unit ∧ unit.parent = some 1 ∧ unit.nested = [3] ∧
      unit.name.names = [Text.ofString "IMeter", Text.ofString "Unit"] ∧
        unit.doc = some ⟨[Text.ofString "A unit."], ⟨Text.ofString "old.json", 0, 0⟩⟩ := by
  have hsize : (ofPackages meterFiles).toOption.map Catalogue.size = some 5 := by decide +kernel
  have hcount : (DeclModel.listingOf 1 meterFiles).length = 4 := by decide +kernel
  have hplace : (DeclModel.listingOf 1 meterFiles)[1]?.map (fun e =>
      (e.name.names, e.parent, e.nested, e.model.doc.map (docIn e.path))) =
        some ([Text.ofString "IMeter", Text.ofString "Unit"], some 1, [3],
          some ⟨[Text.ofString "A unit."], ⟨Text.ofString "old.json", 0, 0⟩⟩) := by decide +kernel
  cases hc : ofPackages meterFiles with
  | error e =>
    rw [hc] at hsize
    cases hsize
  | ok c =>
    obtain ⟨_, hlength, _, hall⟩ := ofPackages_describes_listing hc
    obtain ⟨e, he, heq⟩ := Option.map_eq_some_iff.1 hplace
    obtain ⟨unit, hunit, hdescribes⟩ := hall 1 e he
    simp only [Prod.mk.injEq] at heq
    obtain ⟨hnames, hparent, hnested, hdoc⟩ := heq
    rw [hcount] at hlength
    refine ⟨c, unit, rfl, hlength, hunit, ?_, ?_, ?_, ?_⟩
    · rw [hdescribes.parent, hparent]
    · rw [hdescribes.nested, hnested]
    · rw [hdescribes.name, hnames]
    · rw [hdescribes.doc, hdoc]

end Catalogue

end FlatAidl
