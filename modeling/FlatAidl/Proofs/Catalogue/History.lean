import FlatAidl.Proofs.Catalogue.Places
import FlatAidl.Proofs.Outcome
import Mathlib.Data.List.Induction

/-!
The catalogues that building operations lead to. `Operation.apply_step` says once all that a granted
operation can do: it adds a declaration without members, or it changes the comment or the own
members of one declaration. What both keep, every catalogue has that was built.
-/

namespace FlatAidl

/-- A building operation. -/
inductive Operation where
  | declareInterface (name : QualifiedName) (parent : Option DeclId)
  | declareCompound (kind : CompoundKind) (name : QualifiedName) (parent : Option DeclId)
  | setDoc (id : DeclId) (doc : DocComment)
  | setSuper (id super : DeclId)
  | addMethod (id : DeclId) (method : Method)
  | addField (id : DeclId) (field : Field)

namespace Operation

/-- The catalogue after an operation, if that is granted. -/
def apply (c : Catalogue) : Operation → Except BuildError Catalogue
  | declareInterface name parent => c.declareInterface name parent
  | declareCompound kind name parent => c.declareCompound kind name parent
  | setDoc id doc => (c.target id).map fun _ => c.setDoc id doc
  | setSuper id super => c.setSuper id super
  | addMethod id method => c.addMethod id method
  | addField id field => c.addField id field

/-- The types that an operation brings into the catalogue. -/
def references : Operation → List TypeRef
  | addMethod _ method => method.references
  | addField _ field => [field.type]
  | _ => []

/-- The catalogue after an operation; a refused one changes nothing. -/
def perform (c : Catalogue) (op : Operation) : Catalogue :=
  match op.apply c with
  | .ok after => after
  | .error _ => c

end Operation

namespace Body

/-- What a declaration holds when it is declared: an interface extends the base interface and a
structured type has no fields. -/
inductive Fresh : Body → Prop
  | interface : Fresh (.interface ⟨some Catalogue.base, []⟩)
  | compound (kind : CompoundKind) : Fresh (.compound ⟨kind, []⟩)

end Body

namespace Catalogue

/-- The catalogue that operations lead to, whether they are granted or not. -/
def build (ops : List Operation) : Catalogue :=
  ops.foldl Operation.perform initial

/-- The catalogues that granted operations lead to of which each is allowed at its time. -/
inductive Built (allowed : Catalogue → Operation → Prop) : Catalogue → Prop
  | initial : Built allowed initial
  | step {c c' : Catalogue} {op : Operation} (before : Built allowed c) (permit : allowed c op)
      (granted : op.apply c = .ok c') : Built allowed c'

def Anything : Catalogue → Operation → Prop :=
  fun _ _ => True

theorem built_build (ops : List Operation) : Built Anything (build ops) := by
  unfold build
  induction ops using List.reverseRecOn with
  | nil => exact .initial
  | append_singleton ops op ih =>
    rw [List.foldl_concat]
    generalize ops.foldl Operation.perform initial = c at ih
    unfold Operation.perform
    split
    · next after h => exact .step ih trivial h
    · exact ih

/-! ### One operation -/

/-- How an operation on the declaration at a place may change it. -/
inductive Change (c : Catalogue) (id : DeclId) (d : Declaration) : Declaration → Prop
  | comment (doc : DocComment) : Change c id d { d with doc := some doc }
  | super {members : Interface} (super : DeclId) (body : d.body = .interface members)
      (proper : id ≠ base) (other : id ≠ super) (target : c.isInterface super = true) :
      Change c id d { d with body := .interface { members with super := some super } }
  | method {members : Interface} (method : Method) (body : d.body = .interface members)
      (proper : id ≠ base) :
      Change c id d { d with body := .interface { members with methods := members.methods ++ [method] } }
  | field {members : Compound} (field : Field) (body : d.body = .compound members) :
      Change c id d { d with body := .compound { members with fields := members.fields ++ [field] } }

namespace Change

variable {c : Catalogue} {id : DeclId} {d d' : Declaration}

theorem nested_eq (h : Change c id d d') : d'.nested = d.nested := by
  cases h <;> rfl

theorem parent_eq (h : Change c id d d') : d'.parent = d.parent := by
  cases h <;> rfl

theorem isInterface_eq (h : Change c id d d') : d'.isInterface = d.isInterface := by
  cases h with
  | comment => rfl
  | super _ body => simp [Declaration.isInterface, body]
  | method _ body => simp [Declaration.isInterface, body]
  | field _ body => simp [Declaration.isInterface, body]

end Change

/-- What a granted operation does. -/
inductive Step (c : Catalogue) : Catalogue → Prop
  | append {name : QualifiedName} {parent : Option DeclId} {body : Body} (fresh : body.Fresh)
      (type : name.isType = true) (new : c.lookup name = none)
      (nesting : c.checkNesting name parent = .ok ()) : Step c (c.append name parent body)
  | revise {id : DeclId} {d d' : Declaration} (found : c.get? id = some d)
      (change : Change c id d d') : Step c (c.update id fun _ => d')

theorem declare_eq_ok {c c' : Catalogue} {name : QualifiedName} {parent : Option DeclId}
    {body : Body} (h : c.declare name parent body = .ok c') :
    name.isType = true ∧ c.lookup name = none ∧ c.checkNesting name parent = .ok () ∧
      c' = c.append name parent body := by
  unfold declare at h
  cases ht : name.isType with
  | false => simp [ht] at h
  | true =>
    cases hl : c.lookup name with
    | some k => simp [ht, hl] at h
    | none =>
      simp only [ht, hl, Bool.not_true, Bool.false_eq_true, if_false, Option.isSome_none] at h
      obtain ⟨_, hn, h⟩ := Outcome.bind_eq_ok.1 h
      cases h
      exact ⟨rfl, rfl, hn, rfl⟩

theorem declare_step {c c' : Catalogue} {name : QualifiedName} {parent : Option DeclId}
    {body : Body} (fresh : body.Fresh) (h : c.declare name parent body = .ok c') :
    Step c c' := by
  obtain ⟨ht, hl, hn, rfl⟩ := declare_eq_ok h
  exact .append fresh ht hl hn

/-- Only an interface other than the base interface gets other members. -/
theorem updateInterface_eq_ok {c c' : Catalogue} {id : DeclId} {f : Interface → Interface}
    (h : c.updateInterface id f = .ok c') :
    ∃ d members, c.get? id = some d ∧ d.body = .interface members ∧ id ≠ base ∧
      c' = c.update id fun _ => { d with body := .interface (f members) } := by
  obtain ⟨d, hd, h⟩ := Outcome.bind_eq_ok.1 h
  have hget := target_eq_ok.1 hd
  cases hb : d.body with
  | compound members => simp [hb] at h
  | interface members =>
    by_cases hbase : id = base
    · simp [hb, hbase] at h
    · simp only [hb, hbase, if_false, Except.ok.injEq] at h
      refine ⟨d, members, hget, hb, hbase, ?_⟩
      rw [← h, update_eq_of_get? _ hget, hb]

theorem addField_eq_ok {c c' : Catalogue} {id : DeclId} {field : Field}
    (h : c.addField id field = .ok c') :
    ∃ d members, c.get? id = some d ∧ d.body = .compound members ∧
      c' = c.update id fun _ =>
        { d with body := .compound { members with fields := members.fields ++ [field] } } := by
  obtain ⟨d, hd, h⟩ := Outcome.bind_eq_ok.1 h
  have hget := target_eq_ok.1 hd
  cases hb : d.body with
  | interface members => simp [hb] at h
  | compound members =>
    simp only [hb, Except.ok.injEq] at h
    refine ⟨d, members, hget, hb, ?_⟩
    rw [← h, update_eq_of_get? _ hget, hb]

theorem setSuper_eq_ok {c c' : Catalogue} {id super : DeclId} (h : c.setSuper id super = .ok c') :
    id ≠ super ∧ c.isInterface super = true ∧
      c.updateInterface id (fun members => { members with super := some super }) = .ok c' := by
  obtain ⟨d, hd, h⟩ := Outcome.bind_eq_ok.1 h
  by_cases hself : id = super
  · simp [hself] at h
  · simp only [hself, if_false] at h
    obtain ⟨s, hs, h⟩ := Outcome.bind_eq_ok.1 h
    cases hi : s.isInterface with
    | false => simp [hi] at h
    | true =>
      simp only [hi, Bool.not_true, Bool.false_eq_true, if_false] at h
      refine ⟨hself, ?_, h⟩
      cases hb : s.body with
      | compound members => simp [Declaration.isInterface, hb] at hi
      | interface members =>
        simp [isInterface, interface?, target_eq_ok.1 hs, Declaration.interface?, hb]

end Catalogue

theorem Operation.apply_step {c c' : Catalogue} {op : Operation} (h : op.apply c = .ok c') :
    Catalogue.Step c c' := by
  cases op with
  | declareInterface name parent => exact Catalogue.declare_step .interface h
  | declareCompound kind name parent => exact Catalogue.declare_step (.compound kind) h
  | setDoc id doc =>
    obtain ⟨d, hd, rfl⟩ := Outcome.map_eq_ok.1 h
    have hget := Catalogue.target_eq_ok.1 hd
    rw [Catalogue.setDoc, Catalogue.update_eq_of_get? _ hget]
    exact .revise hget (.comment doc)
  | setSuper id super =>
    obtain ⟨hother, htarget, h⟩ := Catalogue.setSuper_eq_ok h
    obtain ⟨d, members, hget, hbody, hbase, rfl⟩ := Catalogue.updateInterface_eq_ok h
    exact .revise hget (.super super hbody hbase hother htarget)
  | addMethod id method =>
    obtain ⟨d, members, hget, hbody, hbase, rfl⟩ := Catalogue.updateInterface_eq_ok h
    exact .revise hget (.method method hbody hbase)
  | addField id field =>
    obtain ⟨d, members, hget, hbody, rfl⟩ := Catalogue.addField_eq_ok h
    exact .revise hget (.field field hbody)

namespace Catalogue

/-- What the empty catalogue has and every granted operation keeps, each built catalogue has. -/
theorem Built.induction {P : Catalogue → Prop} (hinit : P Catalogue.initial)
    (hstep : ∀ c c', P c → Step c c' → P c') {allowed : Catalogue → Operation → Prop}
    {c : Catalogue} (h : Built allowed c) : P c := by
  induction h with
  | initial => exact hinit
  | step _ _ granted ih => exact hstep _ _ ih (Operation.apply_step granted)

end Catalogue

end FlatAidl
