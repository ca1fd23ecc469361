import FlatAidl.Package.Assembly
import FlatAidl.Proofs.Renumbering.Basic

/-!
Resolution asks a catalogue for the places of names and for nothing else. Where the same names are
declared, the same texts are resolved, to the renumbered places.
-/

namespace FlatAidl

variable {π : DeclId → DeclId}

theorem TypeRef.renumber_id (t : TypeRef) : t.renumber id = t := by
  induction t with
  | primitive kind => rfl
  | vector element ih => rw [renumber, ih]
  | named id => rfl

namespace Catalogue

variable {c c' : Catalogue}

section

variable (h : ∀ n, c'.lookup n = (c.lookup n).map π)
include h

theorem searchOutward_renumber (scope : QualifiedName) (name : Text) :
    c'.searchOutward scope name = (c.searchOutward scope name).map π := by
  simp only [searchOutward, h, List.map_findSome?]
  rfl

theorem resolveName_renumber (path : Path) (scope : QualifiedName) (name : Text) :
    c'.resolveName path scope name = (c.resolveName path scope name).map π := by
  unfold resolveName
  split
  · cases QualifiedName.read name with
    | error cause => rfl
    | ok full =>
      simp only [h]
      cases c.lookup full with
      | none => rfl
      | some id => rfl
  · rw [searchOutward_renumber h]
    cases c.searchOutward scope name with
    | none => rfl
    | some id => rfl

theorem resolveLeaf_renumber (path : Path) (scope : QualifiedName) (t : Text) :
    c'.resolveLeaf path scope t = (c.resolveLeaf path scope t).map (TypeRef.renumber π) := by
  unfold resolveLeaf
  split
  · rfl
  · rfl
  · rw [resolveName_renumber h]
    cases c.resolveName path scope t with
    | error e => rfl
    | ok id => rfl

theorem resolveType_renumber (path : Path) (scope : QualifiedName) (t : Text) :
    c'.resolveType path scope t = (c.resolveType path scope t).map (TypeRef.renumber π) := by
  fun_induction resolveType c path scope t with
  | case1 t element helement ih =>
    rw [resolveType]
    split
    · next element' helement' =>
      rw [helement] at helement'
      cases helement'
      rw [ih]
      cases c.resolveType path scope element with
      | error e => rfl
      | ok inner => rfl
    · next hnone =>
      rw [helement] at hnone
      cases hnone
  | case2 t hnone =>
    rw [resolveType]
    split
    · next element helement =>
      rw [hnone] at helement
      cases helement
    · exact resolveLeaf_renumber h path scope (Text.trim t)

theorem resolveParam_renumber {path : Path} {scope : QualifiedName} {model : ParamModel} {p : Param}
    (hp : c.resolveParam path scope model = .ok p) :
    c'.resolveParam path scope model = .ok (p.renumber π) := by
  obtain ⟨type, htype, rfl⟩ := Outcome.map_eq_ok.1 hp
  refine Outcome.map_eq_ok.2 ⟨type.renumber π, ?_, rfl⟩
  rw [resolveType_renumber h, htype]
  rfl

theorem resolveParams_renumber {path : Path} {scope : QualifiedName} {models : List ParamModel}
    {ps : List Param} (hps : models.mapM (c.resolveParam path scope) = .ok ps) :
    models.mapM (c'.resolveParam path scope) = .ok (ps.map (Param.renumber π)) := by
  have hmap := Outcome.mapM_map id (Param.renumber π)
    (fun _ _ _ hp => resolveParam_renumber h hp) hps
  rwa [List.map_id] at hmap

theorem resolveMethod_renumber {path : Path} {scope : QualifiedName} {model : MethodModel}
    {m : Method} (hm : c.resolveMethod path scope model = .ok m) :
    c'.resolveMethod path scope model = .ok (m.renumber π) := by
  obtain ⟨args, hargs, hm⟩ := Outcome.bind_eq_ok.1 hm
  obtain ⟨results, hresults, hm⟩ := Outcome.bind_eq_ok.1 hm
  cases hm
  exact Outcome.bind_eq_ok.2 ⟨_, resolveParams_renumber h hargs,
    Outcome.bind_eq_ok.2 ⟨_, resolveParams_renumber h hresults, rfl⟩⟩

theorem resolveField_renumber {path : Path} {scope : QualifiedName} {model : FieldModel} {f : Field}
    (hf : c.resolveField path scope model = .ok f) :
    c'.resolveField path scope model = .ok (f.renumber π) := by
  obtain ⟨type, htype, rfl⟩ := Outcome.map_eq_ok.1 hf
  refine Outcome.map_eq_ok.2 ⟨type.renumber π, ?_, rfl⟩
  rw [resolveType_renumber h, htype]
  rfl

end

/-! ### The same places -/

section

variable (h : ∀ n, c'.lookup n = c.lookup n)
include h

theorem resolveName_congr : c'.resolveName = c.resolveName := by
  have hid : ∀ n, c'.lookup n = (c.lookup n).map id := fun n => by simp [h]
  funext path scope name
  rw [resolveName_renumber hid]
  cases c.resolveName path scope name <;> rfl

theorem resolveType_congr : c'.resolveType = c.resolveType := by
  have hid : ∀ n, c'.lookup n = (c.lookup n).map id := fun n => by simp [h]
  funext path scope t
  rw [resolveType_renumber hid]
  cases c.resolveType path scope t with
  | error e => rfl
  | ok type => rw [Except.map, TypeRef.renumber_id]

theorem resolveMethod_congr : c'.resolveMethod = c.resolveMethod := by
  funext path scope model
  have hparam : c'.resolveParam = c.resolveParam := by
    funext path scope model
    rw [resolveParam, resolveParam, resolveType_congr h]
  rw [resolveMethod, resolveMethod, hparam]

theorem resolveField_congr : c'.resolveField = c.resolveField := by
  funext path scope model
  rw [resolveField, resolveField, resolveType_congr h]

end

end Catalogue

end FlatAidl
