import FlatAidl.Package.Assembly
import FlatAidl.Proofs.Catalogue.Chain
import FlatAidl.Proofs.Package.References

/-!
The catalogue of package models is built by operations alone, each of which brings references that
were resolved in the catalogue of its time; and it is finished, so no interface inherits from itself.
-/

namespace FlatAidl

namespace Assembly

open Catalogue

/-! ### Declaring -/

theorem built_declareOne {a a' : Assembly} {path : Path} {parent : Option DeclId}
    {name : QualifiedName} {model : DeclModel} (h : Built Resolved a.catalogue)
    (ha : a.declareOne path parent name model = .ok a') : Built Resolved a'.catalogue := by
  unfold declareOne at ha
  cases hc : a.catalogue.declare name parent (emptyBody model) with
  | error e => simp [hc] at ha
  | ok grown =>
    simp only [hc, Except.ok.injEq] at ha
    subst ha
    cases model with
    | interface n super doc methods types =>
      have hquiet : Resolved a.catalogue (.declareInterface name parent) := resolved_of_nil rfl
      exact h.step hquiet hc
    | compound kind n doc fields types =>
      have hquiet : Resolved a.catalogue (.declareCompound kind name parent) := resolved_of_nil rfl
      exact h.step hquiet hc

mutual

theorem built_declare {a a' : Assembly} {path : Path} {scope : QualifiedName}
    {parent : Option DeclId} (model : DeclModel) (h : Built Resolved a.catalogue)
    (ha : a.declare path scope parent model = .ok a') : Built Resolved a'.catalogue := by
  cases model with
  | interface name super doc methods types =>
    rw [declare] at ha
    obtain ⟨full, _, ha⟩ := Outcome.bind_eq_ok.1 ha
    obtain ⟨grown, hgrown, ha⟩ := Outcome.bind_eq_ok.1 ha
    exact built_declareAll types (built_declareOne h hgrown) ha
  | compound kind name doc fields types =>
    rw [declare] at ha
    obtain ⟨full, _, ha⟩ := Outcome.bind_eq_ok.1 ha
    obtain ⟨grown, hgrown, ha⟩ := Outcome.bind_eq_ok.1 ha
    exact built_declareAll types (built_declareOne h hgrown) ha

theorem built_declareAll {a a' : Assembly} {path : Path} {scope : QualifiedName}
    {parent : Option DeclId} (models : List DeclModel) (h : Built Resolved a.catalogue)
    (ha : a.declareAll path scope parent models = .ok a') : Built Resolved a'.catalogue := by
  cases models with
  | nil =>
    rw [declareAll] at ha
    cases ha
    exact h
  | cons model rest =>
    rw [declareAll] at ha
    obtain ⟨grown, hgrown, ha⟩ := Outcome.bind_eq_ok.1 ha
    exact built_declareAll rest (built_declare model h hgrown) ha

end

theorem built_declarePackage {a a' : Assembly} {file : Path × PackageModel}
    (h : Built Resolved a.catalogue) (ha : a.declarePackage file = .ok a') :
    Built Resolved a'.catalogue := by
  unfold declarePackage at ha
  split at ha
  · cases ha
  · exact built_declareAll _ h ha

end Assembly

namespace Catalogue

variable {c c' : Catalogue}

/-! ### Defining -/

theorem blame_eq_ok {α : Type} {path : Path} {x : Except BuildError α} {a : α} :
    blame path x = .ok a ↔ x = .ok a := by
  cases x with
  | error e => simp [blame]
  | ok b => simp [blame]

theorem sound_of_resolveParams {path : Path} {scope : QualifiedName} {models : List ParamModel}
    {params : List Param} (h : models.mapM (c.resolveParam path scope) = .ok params) :
    ∀ p ∈ params, p.type.Sound c := by
  intro p hp
  obtain ⟨model, _, hmodel⟩ := Outcome.exists_of_mem_mapM h hp
  obtain ⟨type, htype, rfl⟩ := Outcome.map_eq_ok.1 hmodel
  exact sound_of_resolveType htype

theorem sound_of_resolveMethod {path : Path} {scope : QualifiedName} {model : MethodModel}
    {method : Method} (h : c.resolveMethod path scope model = .ok method) :
    ∀ t ∈ method.references, t.Sound c := by
  obtain ⟨args, hargs, h⟩ := Outcome.bind_eq_ok.1 h
  obtain ⟨results, hresults, h⟩ := Outcome.bind_eq_ok.1 h
  cases h
  intro t ht
  obtain ⟨p, hp, rfl⟩ := List.mem_map.1 ht
  rcases List.mem_append.1 hp with hp | hp
  · exact sound_of_resolveParams hargs p hp
  · exact sound_of_resolveParams hresults p hp

theorem built_defineMethods {path : Path} {scope : QualifiedName} {id : DeclId}
    {models : List MethodModel} (h : Built Resolved c)
    (hc : c.defineMethods path scope id models = .ok c') : Built Resolved c' := by
  induction models generalizing c with
  | nil =>
    cases hc
    exact h
  | cons model rest ih =>
    obtain ⟨method, hmethod, hc⟩ := Outcome.bind_eq_ok.1 hc
    obtain ⟨grown, hgrown, hc⟩ := Outcome.bind_eq_ok.1 hc
    have hsound : Resolved c (.addMethod id method) := sound_of_resolveMethod hmethod
    exact ih (h.step hsound (blame_eq_ok.1 hgrown)) hc

theorem built_defineFields {path : Path} {scope : QualifiedName} {id : DeclId}
    {models : List FieldModel} (h : Built Resolved c)
    (hc : c.defineFields path scope id models = .ok c') : Built Resolved c' := by
  induction models generalizing c with
  | nil =>
    cases hc
    exact h
  | cons model rest ih =>
    obtain ⟨field, hfield, hc⟩ := Outcome.bind_eq_ok.1 hc
    obtain ⟨type, htype, rfl⟩ := Outcome.map_eq_ok.1 hfield
    obtain ⟨grown, hgrown, hc⟩ := Outcome.bind_eq_ok.1 hc
    have hsound : Resolved c (.addField id ⟨model.name, type, model.doc.map (docIn path)⟩) := by
      intro t ht
      rw [List.mem_singleton.1 ht]
      exact sound_of_resolveType htype
    exact ih (h.step hsound (blame_eq_ok.1 hgrown)) hc

theorem built_defineSuper {path : Path} {scope : QualifiedName} {id : DeclId} {super : Option Text}
    (h : Built Resolved c) (hc : c.defineSuper path scope id super = .ok c') : Built Resolved c' := by
  cases super with
  | none =>
    cases hc
    exact h
  | some name =>
    obtain ⟨target, _, hc⟩ := Outcome.bind_eq_ok.1 hc
    have hquiet : Resolved c (.setSuper id target) := resolved_of_nil rfl
    exact h.step hquiet (blame_eq_ok.1 hc)

theorem built_define {p : PendingModel} (h : Built Resolved c) (hc : c.define p = .ok c') :
    Built Resolved c' := by
  obtain ⟨id, path, model⟩ := p
  obtain ⟨d, hd, hc⟩ := Outcome.bind_eq_ok.1 hc
  have hcommented : ∀ t, Built Resolved (c.setDoc id (docIn path t)) := by
    intro t
    have hquiet : Resolved c (.setDoc id (docIn path t)) := resolved_of_nil rfl
    refine h.step hquiet ?_
    rw [Operation.apply, blame_eq_ok.1 hd]
    rfl
  cases model with
  | interface name super doc methods types =>
    obtain ⟨extended, hextended, hc⟩ := Outcome.bind_eq_ok.1 hc
    cases doc with
    | none => exact built_defineMethods (built_defineSuper h hextended) hc
    | some t => exact built_defineMethods (built_defineSuper (hcommented t) hextended) hc
  | compound kind name doc fields types =>
    cases doc with
    | none => exact built_defineFields h hc
    | some t => exact built_defineFields (hcommented t) hc

theorem ofPackages_eq_ok_iff {files : List (Path × PackageModel)} :
    ofPackages files = .ok c ↔
      ∃ declared, files.foldlM Assembly.declarePackage Assembly.empty = .ok declared ∧
        declared.pending.foldlM define declared.catalogue = .ok c ∧
          ∀ id, ¬ c.InheritsFrom id id := by
  rw [ofPackages, Outcome.bind_eq_ok]
  refine exists_congr fun declared => and_congr_right fun _ => ?_
  rw [Outcome.bind_eq_ok]
  constructor
  · rintro ⟨defined, hdefined, h⟩
    cases hf : defined.finish with
    | error e => simp [hf] at h
    | ok finished =>
      simp only [hf, Except.ok.injEq] at h
      subst h
      obtain ⟨rfl, hacyclic⟩ := finish_eq_ok_iff.1 hf
      exact ⟨hdefined, hacyclic⟩
  · rintro ⟨hdefined, hacyclic⟩
    refine ⟨c, hdefined, ?_⟩
    rw [finish_eq_ok_iff.2 ⟨rfl, hacyclic⟩]

/-- The catalogue of package models is built by operations with resolved references, and no
interface of it inherits from itself. -/
theorem built_ofPackages {files : List (Path × PackageModel)}
    (h : ofPackages files = .ok c) : Built Resolved c ∧ ∀ id, ¬ c.InheritsFrom id id := by
  obtain ⟨declared, hdeclared, hdefined, hacyclic⟩ := ofPackages_eq_ok_iff.1 h
  have hbuilt : Built Resolved declared.catalogue :=
    Outcome.foldlM_induction (P := fun a => Built Resolved a.catalogue)
      (fun _ _ _ hb ha => Assembly.built_declarePackage hb ha) .initial hdeclared
  have hdone : Built Resolved c :=
    Outcome.foldlM_induction (P := Built Resolved) (fun _ _ _ hb hc => built_define hb hc) hbuilt
      hdefined
  exact ⟨hdone, hacyclic⟩

end Catalogue

end FlatAidl
