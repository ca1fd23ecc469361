import FlatAidl.Proofs.Catalogue.Places
import FlatAidl.Proofs.Outcome
import FlatAidl.Rendering.Translate

/-!
What the file of a declaration is made of, and that its rendering goes by the declaration's name.
-/

namespace FlatAidl

theorem AidlMethod.exists_of_mem_groups {params : List Text} {t : Text} (h : t ∈ groups params) :
    ∃ p ∈ params, t = p ++ [','] ∨ t = p ++ Text.ofString ");" := by
  fun_induction groups params with
  | case1 => cases h
  | case2 last =>
    rw [List.mem_singleton.1 h]
    exact ⟨last, List.mem_cons_self .., Or.inr rfl⟩
  | case3 param rest _ ih =>
    rcases List.mem_cons.1 h with rfl | h
    · exact ⟨param, List.mem_cons_self .., Or.inl rfl⟩
    · obtain ⟨p, hp, ht⟩ := ih h
      exact ⟨p, List.mem_cons_of_mem _ hp, ht⟩

theorem AidlBody.memberSteps_interface (o : Options) (super : Option QualifiedName)
    (mixesOneway : Bool) (comments notes : List Text) (methods : List AidlMethod) :
    (interface super mixesOneway comments notes methods).memberSteps o =
      (comments ++ if comments.isEmpty then [] else [[]]).map WritingStep.line ++
        methodSteps o methods := by
  rw [memberSteps, List.map_append]
  cases comments with
  | nil => rfl
  | cons comment rest => rfl

namespace Catalogue

variable {c : Catalogue} {id : DeclId} {d : Declaration} {f : AidlFile}

theorem translate_interface_eq_ok_iff {members : Interface} (hd : c.get? id = some d)
    (hb : d.body = .interface members) :
    c.translate id = .ok f ↔ ∃ merged i imports super ignored methods,
      c.merge id = .ok merged ∧ c.importsOf d merged.references = .ok i ∧
        i.statements = .ok imports ∧ c.superName members = .ok super ∧
        merged.ignored.mapM c.ignoredRemark = .ok ignored ∧
        merged.winners.mapM c.aidlMethod = .ok methods ∧
        f = ⟨d.name, imports, d.doc, .interface super merged.mixesOneway
          (ignored.map Remark.comment) (ignored.map Remark.note) methods⟩ := by
  rw [translate, fetch_eq_ok.2 hd, Outcome.ok_bind, hb]
  constructor
  · intro h
    obtain ⟨merged, hmerged, h⟩ := Outcome.bind_eq_ok.1 h
    obtain ⟨i, hi, h⟩ := Outcome.bind_eq_ok.1 h
    obtain ⟨imports, himports, h⟩ := Outcome.bind_eq_ok.1 h
    obtain ⟨super, hsuper, h⟩ := Outcome.bind_eq_ok.1 h
    obtain ⟨ignored, hignored, h⟩ := Outcome.bind_eq_ok.1 h
    obtain ⟨methods, hmethods, h⟩ := Outcome.bind_eq_ok.1 h
    exact ⟨merged, i, imports, super, ignored, methods, hmerged, hi, himports, hsuper, hignored,
      hmethods, (Except.ok.inj h).symm⟩
  · rintro ⟨merged, i, imports, super, ignored, methods, hmerged, hi, himports, hsuper, hignored,
      hmethods, rfl⟩
    exact Outcome.bind_eq_ok.2 ⟨merged, hmerged, Outcome.bind_eq_ok.2 ⟨i, hi,
      Outcome.bind_eq_ok.2 ⟨imports, himports, Outcome.bind_eq_ok.2 ⟨super, hsuper,
        Outcome.bind_eq_ok.2 ⟨ignored, hignored, Outcome.bind_eq_ok.2 ⟨methods, hmethods,
          rfl⟩⟩⟩⟩⟩⟩

theorem translate_compound_eq_ok_iff {members : Compound} (hd : c.get? id = some d)
    (hb : d.body = .compound members) :
    c.translate id = .ok f ↔ ∃ i imports fields,
      c.importsOf d d.body.references = .ok i ∧ i.statements = .ok imports ∧
        members.fields.mapM c.aidlField = .ok fields ∧
        f = ⟨d.name, imports, d.doc, .compound members.kind fields⟩ := by
  rw [translate, fetch_eq_ok.2 hd, Outcome.ok_bind, hb]
  constructor
  · intro h
    obtain ⟨i, hi, h⟩ := Outcome.bind_eq_ok.1 h
    obtain ⟨imports, himports, h⟩ := Outcome.bind_eq_ok.1 h
    obtain ⟨fields, hfields, h⟩ := Outcome.bind_eq_ok.1 h
    exact ⟨i, imports, fields, hi, himports, hfields, (Except.ok.inj h).symm⟩
  · rintro ⟨i, imports, fields, hi, himports, hfields, rfl⟩
    exact Outcome.bind_eq_ok.2 ⟨i, hi, Outcome.bind_eq_ok.2 ⟨imports, himports,
      Outcome.bind_eq_ok.2 ⟨fields, hfields, rfl⟩⟩⟩

theorem exists_get?_of_translate (h : c.translate id = .ok f) : ∃ d, c.get? id = some d := by
  obtain ⟨d, hd, _⟩ := Outcome.bind_eq_ok.1 h
  exact ⟨d, fetch_eq_ok.1 hd⟩

theorem source_of_translate (h : c.translate id = .ok f) :
    ∃ d, c.get? id = some d ∧ f.source = d.name := by
  obtain ⟨d, hd⟩ := exists_get?_of_translate h
  refine ⟨d, hd, ?_⟩
  cases hb : d.body with
  | interface members =>
    obtain ⟨_, _, _, _, _, _, _, _, _, _, _, _, rfl⟩ := (translate_interface_eq_ok_iff hd hb).1 h
    rfl
  | compound members =>
    obtain ⟨_, _, _, _, _, _, rfl⟩ := (translate_compound_eq_ok_iff hd hb).1 h
    rfl

theorem methods_of_translate {super : Option QualifiedName} {mixesOneway : Bool}
    {comments notes : List Text} {methods : List AidlMethod} (h : c.translate id = .ok f)
    (hbody : f.body = .interface super mixesOneway comments notes methods) :
    ∃ merged, c.merge id = .ok merged ∧ merged.winners.mapM c.aidlMethod = .ok methods := by
  obtain ⟨d, hd⟩ := exists_get?_of_translate h
  cases hb : d.body with
  | interface members =>
    obtain ⟨merged, _, _, _, _, _, hmerged, _, _, _, _, hmethods, rfl⟩ :=
      (translate_interface_eq_ok_iff hd hb).1 h
    cases hbody
    exact ⟨merged, hmerged, hmethods⟩
  | compound members =>
    obtain ⟨_, _, _, _, _, _, rfl⟩ := (translate_compound_eq_ok_iff hd hb).1 h
    cases hbody

theorem aidlMethod_eq_ok_iff {m : Candidate} {e : AidlMethod} :
    c.aidlMethod m = .ok e ↔ ∃ plan args outs,
      SignaturePlan.ofResults c m.method.results = .ok plan ∧
        m.method.args.mapM (c.aidlParam false) = .ok args ∧
        plan.outParams.mapM (c.aidlParam true) = .ok outs ∧
        e = ⟨plan.comments m, plan.notes m, m.method.doc.map (·.update plan.changes),
          m.method.oneway, plan.returnType, m.name, args ++ outs⟩ := by
  constructor
  · intro h
    obtain ⟨plan, hplan, h⟩ := Outcome.bind_eq_ok.1 h
    obtain ⟨args, hargs, h⟩ := Outcome.bind_eq_ok.1 h
    obtain ⟨outs, houts, h⟩ := Outcome.bind_eq_ok.1 h
    exact ⟨plan, args, outs, hplan, hargs, houts, (Except.ok.inj h).symm⟩
  · rintro ⟨plan, args, outs, hplan, hargs, houts, rfl⟩
    exact Outcome.bind_eq_ok.2 ⟨plan, hplan, Outcome.bind_eq_ok.2 ⟨args, hargs,
      Outcome.bind_eq_ok.2 ⟨outs, houts, rfl⟩⟩⟩

theorem name_of_render {o : Options} {r : Rendering} (h : c.render o id = .ok r) :
    ∃ d, c.get? id = some d ∧ r.source = d.name ∧ r.path = d.name.path := by
  obtain ⟨f, hf, h⟩ := Outcome.bind_eq_ok.1 h
  obtain ⟨d, hd, hsource⟩ := source_of_translate hf
  refine ⟨d, hd, ?_⟩
  split at h
  · cases h
    exact ⟨hsource, congrArg QualifiedName.path hsource⟩
  · cases h

end Catalogue

end FlatAidl
