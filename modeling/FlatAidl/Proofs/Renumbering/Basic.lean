import FlatAidl.Catalogue.Basic
import FlatAidl.Proofs.Catalogue.Chain
import FlatAidl.Proofs.Catalogue.Names

/-!
Catalogues that hold the same declarations at other places. A renumbering sends each place of one
catalogue to the place of the same declaration in the other one, and every reference to the place
that its target has there.
-/

namespace FlatAidl

def TypeRef.renumber (π : DeclId → DeclId) : TypeRef → TypeRef
  | primitive kind => .primitive kind
  | vector element => .vector (element.renumber π)
  | named id => .named (π id)

def Param.renumber (π : DeclId → DeclId) (p : Param) : Param :=
  { p with type := p.type.renumber π }

def Method.renumber (π : DeclId → DeclId) (m : Method) : Method :=
  { m with args := m.args.map (Param.renumber π), results := m.results.map (Param.renumber π) }

def Field.renumber (π : DeclId → DeclId) (f : Field) : Field :=
  { f with type := f.type.renumber π }

def Body.renumber (π : DeclId → DeclId) : Body → Body
  | interface members =>
    .interface ⟨members.super.map π, members.methods.map (Method.renumber π)⟩
  | compound members =>
    .compound { members with fields := members.fields.map (Field.renumber π) }

def Declaration.renumber (π : DeclId → DeclId) (d : Declaration) : Declaration :=
  { d with body := d.body.renumber π, nested := d.nested.map π, parent := d.parent.map π }

variable {π : DeclId → DeclId}

theorem TypeRef.namedTypes_renumber (t : TypeRef) :
    (t.renumber π).namedTypes = t.namedTypes.map π := by
  induction t with
  | primitive kind => rfl
  | vector element ih => exact ih
  | named id => rfl

theorem Method.references_renumber (m : Method) :
    (m.renumber π).references = m.references.map (TypeRef.renumber π) := by
  simp [references, Method.renumber, Param.renumber, Function.comp_def]

theorem Body.references_renumber (b : Body) :
    (b.renumber π).references = b.references.map (TypeRef.renumber π) := by
  cases b with
  | interface members =>
    simp only [Body.renumber, references, List.flatMap_map, List.map_flatMap]
    exact List.flatMap_congr fun m _ => m.references_renumber
  | compound members => simp [Body.renumber, references, Field.renumber]

namespace Catalogue

/-- The second catalogue holds the declarations of the first one, renumbered, and no others. -/
structure Renumbering (π : DeclId → DeclId) (c c' : Catalogue) : Prop where
  size : c'.size = c.size
  base : π base = base
  get : ∀ id d, c.get? id = some d → c'.get? (π id) = some (d.renumber π)
  injective : ∀ i j, i < c.size → j < c.size → π i = π j → i = j

variable {c c' : Catalogue}

theorem Renumbering.name? (h : Renumbering π c c') {id : DeclId} {n : QualifiedName}
    (hn : c.name? id = some n) : c'.name? (π id) = some n := by
  obtain ⟨d, hd, rfl⟩ := Option.map_eq_some_iff.1 hn
  rw [name?_of_get? (h.get id d hd), Declaration.renumber]

theorem Renumbering.super? (h : Renumbering π c c') {id s : DeclId} (hs : c.super? id = some s) :
    c'.super? (π id) = some (π s) := by
  obtain ⟨members, hm, hsuper⟩ := Option.bind_eq_some_iff.1 hs
  obtain ⟨d, hd, hb⟩ := interface?_eq_some.1 hm
  have hd' : (d.renumber π).body = .interface ⟨some (π s), members.methods.map (Method.renumber π)⟩ := by
    simp [Declaration.renumber, hb, Body.renumber, hsuper]
  have hm' := interface?_eq_some.2 ⟨_, h.get id d hd, hd'⟩
  rw [super?_of_interface? hm']

theorem Renumbering.inheritsFrom (h : Renumbering π c c') {id k : DeclId}
    (hk : c.InheritsFrom id k) : c'.InheritsFrom (π id) (π k) := by
  induction hk with
  | single hs => exact .single (h.super? hs)
  | tail _ hs ih => exact .tail ih (h.super? hs)

end Catalogue

end FlatAidl
