import FlatAidl.Proofs.Catalogue.Names
import FlatAidl.Proofs.Package.Assembly
import FlatAidl.Proofs.Renumbering.Resolution

/-!
How declared models get their members. The members of a declaration depend on the names and kinds of
the catalogue and on nothing that other members bring, so each declaration may be filled in alone:
the members come in no other way, whatever the order is.
-/

namespace FlatAidl

def Declaration.withBody (d : Declaration) (body : Body) : Declaration :=
  { d with body := body }

theorem Declaration.withBody_self {d : Declaration} {body : Body} (h : d.body = body) :
    d.withBody body = d := by
  rw [withBody, ← h]

namespace Catalogue

variable {c c' : Catalogue}

/-! ### Replacement by a value -/

theorem update_self {id : DeclId} {d : Declaration} (h : c.get? id = some d) :
    (c.update id fun _ => d) = c := by
  have hlist : (c.decls.modify id fun _ => d) = c.decls := by
    apply List.ext_getElem?
    intro k
    have hd : c.decls[id]? = some d := h
    by_cases hk : id = k
    · subst hk
      simp [hd]
    · simp [hk]
  rw [update, hlist]

theorem update_update (c : Catalogue) (id : DeclId) (d d' : Declaration) :
    ((c.update id fun _ => d).update id fun _ => d') = c.update id fun _ => d' := by
  have hlist : ((c.decls.modify id fun _ => d).modify id fun _ => d') =
      c.decls.modify id fun _ => d' := by
    apply List.ext_getElem?
    intro k
    by_cases hk : id = k
    · simp [hk, Function.comp_def]
    · simp [hk]
  simp only [update, hlist]

theorem get?_update_self {id : DeclId} {d d' : Declaration} (h : c.get? id = some d) :
    (c.update id fun _ => d').get? id = some d' := by
  rw [get?_update, if_pos rfl, h, Option.map_some]

theorem get?_update_of_ne {id k : DeclId} {d' : Declaration} (h : id ≠ k) :
    (c.update id fun _ => d').get? k = c.get? k := by
  rw [get?_update, if_neg h]

theorem lookup_of_name? (h : ∀ k, c'.name? k = c.name? k) (n : QualifiedName) :
    c'.lookup n = c.lookup n := by
  have hnames : c'.decls.map Declaration.name = c.decls.map Declaration.name := by
    apply List.ext_getElem?
    intro k
    rw [← name?_eq_getElem?, ← name?_eq_getElem?, h]
  rw [lookup_eq_findIdx?, lookup_eq_findIdx?, hnames]

theorem isInterface_of_get? {id : DeclId} {d : Declaration} (h : c.get? id = some d) :
    c.isInterface id = d.isInterface := by
  rw [isInterface, interface?, h, Option.bind_some]
  cases hb : d.body with
  | interface members => simp [Declaration.interface?, Declaration.isInterface, hb]
  | compound members => simp [Declaration.interface?, Declaration.isInterface, hb]

theorem isInterface_update {id : DeclId} {d d' : Declaration} (hd : c.get? id = some d)
    (hkind : d'.isInterface = d.isInterface) (k : DeclId) :
    (c.update id fun _ => d').isInterface k = c.isInterface k := by
  by_cases hk : id = k
  · subst hk
    rw [isInterface_of_get? (get?_update_self hd), isInterface_of_get? hd, hkind]
  · simp only [isInterface, interface?, get?_update_of_ne hk]

/-! ### Methods, fields and the extended interface -/

theorem updateInterface_of_get? {id : DeclId} {d : Declaration} {members : Interface}
    (hd : c.get? id = some d) (hb : d.body = .interface members) (hbase : id ≠ base)
    (f : Interface → Interface) : c.updateInterface id f =
      .ok (c.update id fun _ => d.withBody (.interface (f members))) := by
  rw [updateInterface, target_eq_ok.2 hd, Outcome.ok_bind, hb]
  simp only [hbase, if_false]
  rw [update_eq_of_get? _ hd]
  simp only [hb, Declaration.withBody]

theorem addField_of_get? {id : DeclId} {d : Declaration} {members : Compound}
    (hd : c.get? id = some d) (hb : d.body = .compound members) (f : Field) :
    c.addField id f = .ok (c.update id fun _ =>
      d.withBody (.compound { members with fields := members.fields ++ [f] })) := by
  rw [addField, target_eq_ok.2 hd, Outcome.ok_bind, hb]
  simp only
  rw [update_eq_of_get? _ hd]
  simp only [hb, Declaration.withBody]

theorem lookup_update {id : DeclId} {d d' : Declaration} (hd : c.get? id = some d)
    (hname : d'.name = d.name) (n : QualifiedName) :
    (c.update id fun _ => d').lookup n = c.lookup n :=
  lookup_of_name? (name?_update hd hname) n

theorem defineMethods_eq {path : Path} {scope : QualifiedName} {id : DeclId} {d : Declaration}
    {members : Interface} (hd : c.get? id = some d) (hb : d.body = .interface members)
    (hbase : id ≠ base) (models : List MethodModel) :
    c.defineMethods path scope id models =
      (models.mapM (c.resolveMethod path scope)).map fun new => c.update id fun _ =>
        d.withBody (.interface { members with methods := members.methods ++ new }) := by
  induction models generalizing c d members with
  | nil =>
    have hsame : d.withBody (.interface { members with methods := members.methods ++ [] }) = d := by
      rw [List.append_nil]
      exact Declaration.withBody_self hb
    simp only [defineMethods, Outcome.mapM_nil, Except.map, hsame, update_self hd]
  | cons model rest ih =>
    rw [defineMethods, Outcome.mapM_cons]
    cases c.resolveMethod path scope model with
    | error e => rfl
    | ok m =>
      have hresolve : (c.update id fun _ => d.withBody (.interface
          { members with methods := members.methods ++ [m] })).resolveMethod = c.resolveMethod :=
        resolveMethod_congr (lookup_update hd rfl)
      rw [Outcome.ok_bind, Outcome.ok_bind, addMethod, updateInterface_of_get? hd hb hbase, blame,
        Outcome.ok_bind, ih (get?_update_self hd) rfl, hresolve]
      cases rest.mapM (c.resolveMethod path scope) with
      | error e => rfl
      | ok new =>
        simp only [Except.map, Outcome.ok_bind, update_update, Declaration.withBody,
          List.append_assoc, List.singleton_append]

theorem defineFields_eq {path : Path} {scope : QualifiedName} {id : DeclId} {d : Declaration}
    {members : Compound} (hd : c.get? id = some d) (hb : d.body = .compound members)
    (models : List FieldModel) :
    c.defineFields path scope id models =
      (models.mapM (c.resolveField path scope)).map fun new => c.update id fun _ =>
        d.withBody (.compound { members with fields := members.fields ++ new }) := by
  induction models generalizing c d members with
  | nil =>
    have hsame : d.withBody (.compound { members with fields := members.fields ++ [] }) = d := by
      rw [List.append_nil]
      exact Declaration.withBody_self hb
    simp only [defineFields, Outcome.mapM_nil, Except.map, hsame, update_self hd]
  | cons model rest ih =>
    rw [defineFields, Outcome.mapM_cons]
    cases c.resolveField path scope model with
    | error e => rfl
    | ok f =>
      have hresolve : (c.update id fun _ => d.withBody (.compound
          { members with fields := members.fields ++ [f] })).resolveField = c.resolveField :=
        resolveField_congr (lookup_update hd rfl)
      rw [Outcome.ok_bind, Outcome.ok_bind, addField_of_get? hd hb, blame, Outcome.ok_bind,
        ih (get?_update_self hd) rfl, hresolve]
      cases rest.mapM (c.resolveField path scope) with
      | error e => rfl
      | ok new =>
        simp only [Except.map, Outcome.ok_bind, update_update, Declaration.withBody,
          List.append_assoc, List.singleton_append]

/-- Whether an interface may extend the one that its model names; it is the base interface if the
model names none. -/
def Allows (c : Catalogue) (path : Path) (scope : QualifiedName) (id : DeclId) :
    Option Text → DeclId → Prop
  | none, target => target = base
  | some name, target =>
    c.resolveName path scope name = .ok target ∧ id ≠ target ∧ c.isInterface target = true

theorem setSuper_eq_ok_iff {id target : DeclId} {d : Declaration} {members : Interface}
    (hd : c.get? id = some d) (hb : d.body = .interface members) (hbase : id ≠ base) :
    c.setSuper id target = .ok c' ↔ (id ≠ target ∧ c.isInterface target = true) ∧
      c' = c.update id fun _ => d.withBody (.interface { members with super := some target }) := by
  constructor
  · intro h
    obtain ⟨hother, hkind, h⟩ := setSuper_eq_ok h
    rw [updateInterface_of_get? hd hb hbase] at h
    cases h
    exact ⟨⟨hother, hkind⟩, rfl⟩
  · rintro ⟨⟨hother, hkind⟩, rfl⟩
    obtain ⟨s, hs⟩ := exists_get? (lt_size_of_isInterface hkind)
    have hsi : s.isInterface = true := (isInterface_of_get? hs).symm.trans hkind
    rw [setSuper, target_eq_ok.2 hd, Outcome.ok_bind, if_neg hother, target_eq_ok.2 hs,
      Outcome.ok_bind, hsi]
    exact updateInterface_of_get? hd hb hbase _

theorem defineSuper_eq_ok_iff {path : Path} {scope : QualifiedName} {id : DeclId} {d : Declaration}
    {members : Interface} (hd : c.get? id = some d) (hb : d.body = .interface members)
    (hsuper : members.super = some base) (hbase : id ≠ base) (super : Option Text) :
    c.defineSuper path scope id super = .ok c' ↔ ∃ target, c.Allows path scope id super target ∧
      c' = c.update id fun _ => d.withBody (.interface { members with super := some target }) := by
  cases super with
  | none =>
    have hsame : d.withBody (.interface { members with super := some base }) = d := by
      rw [← hsuper]
      exact Declaration.withBody_self hb
    simp only [defineSuper, Allows, exists_eq_left, hsame, update_self hd, Except.ok.injEq]
    exact eq_comm
  | some name =>
    simp only [defineSuper, Outcome.bind_eq_ok, blame_eq_ok, setSuper_eq_ok_iff hd hb hbase, Allows,
      and_assoc]

/-! ### One declaration -/

def commented (p : PendingModel) (d : Declaration) : Declaration :=
  match p.model.doc with
  | some t => { d with doc := some (docIn p.path t) }
  | none => d

/-- Whether a declaration is what a declared one becomes by its model. -/
def Fills (c : Catalogue) (p : PendingModel) (d filled : Declaration) : Prop :=
  match p.model with
  | .interface _ super _ methods _ => ∃ target new, c.Allows p.path d.name p.id super target ∧
      methods.mapM (c.resolveMethod p.path d.name) = .ok new ∧
        filled = (commented p d).withBody (.interface ⟨some target, new⟩)
  | .compound kind _ _ fields _ => ∃ new,
      fields.mapM (c.resolveField p.path d.name) = .ok new ∧
        filled = (commented p d).withBody (.compound ⟨kind, new⟩)

theorem name_commented (p : PendingModel) (d : Declaration) : (commented p d).name = d.name := by
  unfold commented
  split <;> rfl

theorem body_commented (p : PendingModel) (d : Declaration) : (commented p d).body = d.body := by
  unfold commented
  split <;> rfl

theorem Fills.name_eq {p : PendingModel} {d filled : Declaration} (h : c.Fills p d filled) :
    filled.name = d.name := by
  unfold Fills at h
  split at h
  · obtain ⟨_, _, _, _, rfl⟩ := h
    exact name_commented p d
  · obtain ⟨_, _, rfl⟩ := h
    exact name_commented p d

theorem Allows.unique {path : Path} {scope : QualifiedName} {id : DeclId} {super : Option Text}
    {target target' : DeclId} (h : c.Allows path scope id super target)
    (h' : c.Allows path scope id super target') : target = target' := by
  cases super with
  | none =>
    have htarget : target = base := h
    have htarget' : target' = base := h'
    rw [htarget, htarget']
  | some name => exact Except.ok.inj (h.1.symm.trans h'.1)

theorem Fills.unique {p : PendingModel} {d filled filled' : Declaration} (h : c.Fills p d filled)
    (h' : c.Fills p d filled') : filled = filled' := by
  unfold Fills at h h'
  split at h
  · next hmodel =>
    simp only [hmodel] at h'
    obtain ⟨target, new, hallows, hnew, rfl⟩ := h
    obtain ⟨target', new', hallows', hnew', rfl⟩ := h'
    rw [hallows.unique hallows', Except.ok.inj (hnew.symm.trans hnew')]
  · next hmodel =>
    simp only [hmodel] at h'
    obtain ⟨new, hnew, rfl⟩ := h
    obtain ⟨new', hnew', rfl⟩ := h'
    rw [Except.ok.inj (hnew.symm.trans hnew')]

theorem Fills.isInterface_eq {p : PendingModel} {d filled : Declaration} (h : c.Fills p d filled)
    (hb : d.body = Assembly.emptyBody p.model) : filled.isInterface = d.isInterface := by
  unfold Fills at h
  rw [Declaration.isInterface, Declaration.isInterface, hb]
  split at h
  · next hmodel =>
    obtain ⟨_, _, _, _, rfl⟩ := h
    rw [hmodel]
    rfl
  · next hmodel =>
    obtain ⟨_, _, rfl⟩ := h
    rw [hmodel]
    rfl

theorem Allows.congr (hlookup : ∀ n, c'.lookup n = c.lookup n)
    (hkind : ∀ k, c'.isInterface k = c.isInterface k) {path : Path} {scope : QualifiedName}
    {id : DeclId} {super : Option Text} {target : DeclId} :
    c'.Allows path scope id super target ↔ c.Allows path scope id super target := by
  cases super with
  | none => rfl
  | some name => rw [Allows, Allows, resolveName_congr hlookup, hkind]

theorem Fills.congr (hlookup : ∀ n, c'.lookup n = c.lookup n)
    (hkind : ∀ k, c'.isInterface k = c.isInterface k) {p : PendingModel} {d filled : Declaration} :
    c'.Fills p d filled ↔ c.Fills p d filled := by
  unfold Fills
  simp only [Allows.congr hlookup hkind, resolveMethod_congr hlookup, resolveField_congr hlookup]

theorem defineInterface_eq_ok_iff {path : Path} {scope : QualifiedName} {id : DeclId}
    {d : Declaration} (hd : c.get? id = some d) (hb : d.body = .interface ⟨some base, []⟩)
    (hbase : id ≠ base) {super : Option Text} {methods : List MethodModel} :
    (c.defineSuper path scope id super >>= fun extended =>
        extended.defineMethods path scope id methods) = .ok c' ↔
      ∃ target new, c.Allows path scope id super target ∧
        methods.mapM (c.resolveMethod path scope) = .ok new ∧
          c' = c.update id fun _ => d.withBody (.interface ⟨some target, new⟩) := by
  have hmethods : ∀ target, (c.update id fun _ =>
      d.withBody (.interface ⟨some target, []⟩)).defineMethods path scope id methods =
        (methods.mapM (c.resolveMethod path scope)).map fun new =>
          c.update id fun _ => d.withBody (.interface ⟨some target, new⟩) := by
    intro target
    have hresolve : (c.update id fun _ =>
        d.withBody (.interface ⟨some target, []⟩)).resolveMethod = c.resolveMethod :=
      resolveMethod_congr (lookup_update hd rfl)
    rw [defineMethods_eq (get?_update_self hd) rfl hbase, hresolve]
    simp only [update_update, Declaration.withBody, List.nil_append]
  constructor
  · intro h
    obtain ⟨extended, hextended, h⟩ := Outcome.bind_eq_ok.1 h
    obtain ⟨target, hallows, rfl⟩ := (defineSuper_eq_ok_iff hd hb rfl hbase super).1 hextended
    rw [hmethods] at h
    obtain ⟨new, hnew, rfl⟩ := Outcome.map_eq_ok.1 h
    exact ⟨target, new, hallows, hnew, rfl⟩
  · rintro ⟨target, new, hallows, hnew, rfl⟩
    refine Outcome.bind_eq_ok.2 ⟨_, (defineSuper_eq_ok_iff hd hb rfl hbase super).2
      ⟨target, hallows, rfl⟩, ?_⟩
    rw [hmethods, hnew]
    rfl

theorem defineCompound_eq_ok_iff {path : Path} {scope : QualifiedName} {id : DeclId}
    {d : Declaration} {kind : CompoundKind} (hd : c.get? id = some d)
    (hb : d.body = .compound ⟨kind, []⟩) {fields : List FieldModel} :
    c.defineFields path scope id fields = .ok c' ↔
      ∃ new, fields.mapM (c.resolveField path scope) = .ok new ∧
        c' = c.update id fun _ => d.withBody (.compound ⟨kind, new⟩) := by
  rw [defineFields_eq hd hb, Outcome.map_eq_ok]
  simp only [List.nil_append, eq_comm]

theorem define_eq_ok_iff {p : PendingModel} {d : Declaration} (hd : c.get? p.id = some d)
    (hb : d.body = Assembly.emptyBody p.model) (hbase : p.id ≠ base) :
    c.define p = .ok c' ↔ ∃ filled, c.Fills p d filled ∧ c' = c.update p.id fun _ => filled := by
  have hkind : (commented p d).isInterface = d.isInterface := by
    rw [Declaration.isInterface, Declaration.isInterface, body_commented]
  have hfills : ∀ filled, c.Fills p d filled ↔
      (c.update p.id fun _ => commented p d).Fills p d filled := fun filled =>
    (Fills.congr (lookup_update hd (name_commented p d)) (isInterface_update hd hkind)).symm
  have hcommented : (c.update p.id fun _ => commented p d).get? p.id = some (commented p d) :=
    get?_update_self hd
  have hbody : (commented p d).body = Assembly.emptyBody p.model := (body_commented p d).trans hb
  have hsame : (c.update p.id fun _ => commented p d) =
      p.model.doc.elim c fun t => c.setDoc p.id (docIn p.path t) := by
    unfold commented
    cases p.model.doc with
    | none => exact update_self hd
    | some t => exact (update_eq_of_get? (fun d => { d with doc := some _ }) hd).symm
  simp only [hfills]
  obtain ⟨id, path, model⟩ := p
  cases model with
  | interface name super doc methods types =>
    have hdefine : c.define ⟨id, path, .interface name super doc methods types⟩ =
        ((c.update id fun _ => commented ⟨id, path, .interface name super doc methods types⟩ d).defineSuper
          path d.name id super >>= fun extended =>
            extended.defineMethods path d.name id methods) := by
      rw [hsame, define, target_eq_ok.2 hd, blame, Outcome.ok_bind]
      cases doc <;> rfl
    rw [hdefine, defineInterface_eq_ok_iff hcommented hbody hbase]
    constructor
    · rintro ⟨target, new, hallows, hnew, hc⟩
      exact ⟨_, ⟨target, new, hallows, hnew, rfl⟩, hc.trans (update_update ..)⟩
    · rintro ⟨_, ⟨target, new, hallows, hnew, rfl⟩, hc⟩
      exact ⟨target, new, hallows, hnew, hc.trans (update_update ..).symm⟩
  | compound kind name doc fields types =>
    have hdefine : c.define ⟨id, path, .compound kind name doc fields types⟩ =
        (c.update id fun _ => commented ⟨id, path, .compound kind name doc fields types⟩ d).defineFields
          path d.name id fields := by
      rw [hsame, define, target_eq_ok.2 hd, blame, Outcome.ok_bind]
      cases doc <;> rfl
    rw [hdefine, defineCompound_eq_ok_iff hcommented hbody]
    constructor
    · rintro ⟨new, hnew, hc⟩
      exact ⟨_, ⟨new, hnew, rfl⟩, hc.trans (update_update ..)⟩
    · rintro ⟨_, ⟨new, hnew, rfl⟩, hc⟩
      exact ⟨new, hnew, hc.trans (update_update ..).symm⟩

/-! ### All declarations -/

/-- Models that wait for their members, each with a declared place of its own. -/
structure Awaits (c : Catalogue) (ps : List PendingModel) : Prop where
  nodup : (ps.map PendingModel.id).Nodup
  proper : ∀ p ∈ ps, p.id ≠ base
  declared : ∀ p ∈ ps, ∃ d, c.get? p.id = some d ∧ d.body = Assembly.emptyBody p.model

theorem Awaits.ne {p : PendingModel} {rest : List PendingModel} (h : Awaits c (p :: rest)) :
    ∀ q ∈ rest, p.id ≠ q.id := by
  intro q hq heq
  exact (List.nodup_cons.1 h.nodup).1 (heq ▸ List.mem_map_of_mem hq)

theorem Awaits.update {p : PendingModel} {rest : List PendingModel} {filled : Declaration}
    (h : Awaits c (p :: rest)) : Awaits (c.update p.id fun _ => filled) rest where
  nodup := (List.nodup_cons.1 h.nodup).2
  proper q hq := h.proper q (List.mem_cons_of_mem _ hq)
  declared q hq := by
    rw [get?_update_of_ne (h.ne q hq)]
    exact h.declared q (List.mem_cons_of_mem _ hq)

theorem Fills.update_iff {p q : PendingModel} {d filled e filled' : Declaration}
    (hd : c.get? p.id = some d) (hb : d.body = Assembly.emptyBody p.model)
    (h : c.Fills p d filled) :
    (c.update p.id fun _ => filled).Fills q e filled' ↔ c.Fills q e filled' :=
  Fills.congr (lookup_update hd h.name_eq) (isInterface_update hd (h.isInterface_eq hb))

/-- Every model is filled in as if it were the only one, and nothing else changes. -/
theorem fills_of_foldlM_define {ps : List PendingModel} (h : Awaits c ps)
    (hc : ps.foldlM define c = .ok c') :
    c'.size = c.size ∧ (∀ id, id ∉ ps.map PendingModel.id → c'.get? id = c.get? id) ∧
      ∀ p ∈ ps, ∃ d filled, c.get? p.id = some d ∧ c.Fills p d filled ∧
        c'.get? p.id = some filled := by
  induction ps generalizing c with
  | nil =>
    cases hc
    exact ⟨rfl, fun _ _ => rfl, by simp⟩
  | cons p rest ih =>
    rw [List.foldlM_cons] at hc
    obtain ⟨c₁, hp, hc⟩ := Outcome.bind_eq_ok.1 hc
    obtain ⟨d, hd, hb⟩ := h.declared p (List.mem_cons_self ..)
    obtain ⟨filled, hfills, rfl⟩ :=
      (define_eq_ok_iff hd hb (h.proper p (List.mem_cons_self ..))).1 hp
    -- The names and kinds of the rest are those of before, so what it is filled with is as well.
    obtain ⟨hsize, hother, hrest⟩ := ih h.update hc
    have hfirst : p.id ∉ rest.map PendingModel.id := (List.nodup_cons.1 h.nodup).1
    refine ⟨hsize.trans (size_update ..), ?_, ?_⟩
    · intro id hid
      rw [List.map_cons, List.mem_cons, not_or] at hid
      rw [hother id hid.2, get?_update_of_ne (Ne.symm hid.1)]
    · intro q hq
      rcases List.mem_cons.1 hq with rfl | hq
      · refine ⟨d, filled, hd, hfills, ?_⟩
        rw [hother _ hfirst, get?_update_self hd]
      · obtain ⟨e, filled', he, hfills', hget⟩ := hrest q hq
        rw [get?_update_of_ne (h.ne q hq)] at he
        exact ⟨e, filled', he, (hfills.update_iff hd hb).1 hfills', hget⟩

theorem exists_foldlM_define {ps : List PendingModel} (h : Awaits c ps)
    (hps : ∀ p ∈ ps, ∃ d filled, c.get? p.id = some d ∧ c.Fills p d filled) :
    ∃ c', ps.foldlM define c = .ok c' := by
  induction ps generalizing c with
  | nil => exact ⟨c, rfl⟩
  | cons p rest ih =>
    obtain ⟨d, hd, hb⟩ := h.declared p (List.mem_cons_self ..)
    obtain ⟨d', filled, hd', hfills⟩ := hps p (List.mem_cons_self ..)
    rw [hd] at hd'
    cases hd'
    have hp := (define_eq_ok_iff hd hb (h.proper p (List.mem_cons_self ..))).2 ⟨filled, hfills, rfl⟩
    have hrest : ∀ q ∈ rest, ∃ e filled', (c.update p.id fun _ => filled).get? q.id = some e ∧
        (c.update p.id fun _ => filled).Fills q e filled' := by
      intro q hq
      obtain ⟨e, filled', he, hfills'⟩ := hps q (List.mem_cons_of_mem _ hq)
      refine ⟨e, filled', ?_, (hfills.update_iff hd hb).2 hfills'⟩
      rw [get?_update_of_ne (h.ne q hq), he]
    obtain ⟨c', hc'⟩ := ih h.update hrest
    refine ⟨c', ?_⟩
    rw [List.foldlM_cons]
    exact Outcome.bind_eq_ok.2 ⟨_, hp, hc'⟩

end Catalogue

end FlatAidl
