import FlatAidl.Proofs.Rendering.Parts
import FlatAidl.Proofs.Renumbering.Basic

/-!
Rendering does not depend on places. Each step from a declaration to its file gives the same names,
types, methods and remarks in a catalogue that holds the same declarations at other places, so the
whole rendering is the same there.
-/

namespace FlatAidl

variable {π : DeclId → DeclId}

/-! ### Merging -/

def Candidate.renumber (π : DeclId → DeclId) (k : Candidate) : Candidate :=
  { k with method := k.method.renumber π, declaredIn := π k.declaredIn }

def Collision.renumber (π : DeclId → DeclId) (k : Collision) : Collision :=
  ⟨k.loser.renumber π, k.winner.renumber π, k.replaced⟩

def SignaturePlan.renumber (π : DeclId → DeclId) (plan : SignaturePlan) : SignaturePlan :=
  { plan with outParams := plan.outParams.map (Param.renumber π) }

namespace Merge

def renumber (π : DeclId → DeclId) (m : Merge) : Merge :=
  ⟨m.winners.map (Candidate.renumber π), m.collisions.map (Collision.renumber π)⟩

theorem winner?_renumber (m : Merge) (name : Text) :
    (m.renumber π).winner? name = (m.winner? name).map (Candidate.renumber π) := by
  simp only [winner?, renumber, List.find?_map]
  rfl

theorem replace_renumber (winners : List Candidate) (k : Candidate) :
    replace (winners.map (Candidate.renumber π)) (k.renumber π) =
      (replace winners k).map (Candidate.renumber π) := by
  simp only [replace, List.map_map]
  refine List.map_congr_left fun w _ => ?_
  by_cases hname : w.name = k.name
  · simp [Candidate.renumber, hname]
  · simp [Candidate.renumber, hname]

theorem insert_renumber (m : Merge) (k : Candidate) :
    (m.renumber π).insert (k.renumber π) = (m.insert k).renumber π := by
  have hname : (k.renumber π).name = k.name := rfl
  unfold insert
  rw [hname, winner?_renumber]
  cases m.winner? k.name with
  | none => simp [renumber]
  | some current =>
    have hsame : (k.renumber π).supersedes (current.renumber π) = k.supersedes current := rfl
    simp only [Option.map_some, hsame]
    split
    · simp [renumber, replace_renumber, Collision.renumber]
    · simp [renumber, Collision.renumber]

theorem ofCandidates_renumber (ks : List Candidate) :
    ofCandidates (ks.map (Candidate.renumber π)) = (ofCandidates ks).renumber π := by
  have hstep : ∀ m k, insert (renumber π m) (Candidate.renumber π k) = renumber π (insert m k) :=
    insert_renumber
  rw [ofCandidates, List.foldl_map]
  show ks.foldl (fun m k => insert m (Candidate.renumber π k)) (renumber π empty) = _
  rw [List.foldl_hom (renumber π) hstep]
  rfl

theorem references_renumber (m : Merge) :
    (m.renumber π).references = m.references.map (TypeRef.renumber π) := by
  simp only [references, renumber, List.flatMap_map, List.map_flatMap]
  exact List.flatMap_congr fun k _ => k.method.references_renumber

theorem ignored_renumber (m : Merge) :
    (m.renumber π).ignored = m.ignored.map (Candidate.renumber π) := by
  simp [ignored, renumber, Collision.renumber, Function.comp_def]

theorem mixesOneway_renumber (m : Merge) : (m.renumber π).mixesOneway = m.mixesOneway := by
  have hfilter : (m.renumber π).winners.filter (fun k => k.method.oneway) =
      (m.winners.filter fun k => k.method.oneway).map (Candidate.renumber π) := by
    rw [renumber, List.filter_map]
    rfl
  simp only [mixesOneway, hfilter, List.isEmpty_map, List.length_map]
  simp [renumber]

end Merge

namespace Catalogue

namespace Renumbering

variable {c c' : Catalogue} (h : Renumbering π c c')
include h

/-! ### Types and chains -/

theorem fetch {id : DeclId} {d : Declaration} (hd : c.fetch id = .ok d) :
    c'.fetch (π id) = .ok (d.renumber π) :=
  fetch_eq_ok.2 (h.get id d (fetch_eq_ok.1 hd))

theorem aidlName {id : DeclId} {name : Text} (hname : c.aidlName id = .ok name) :
    c'.aidlName (π id) = .ok name := by
  obtain ⟨d, hd, rfl⟩ := Outcome.map_eq_ok.1 hname
  exact Outcome.map_eq_ok.2 ⟨_, h.fetch hd, rfl⟩

theorem aidlType {t : TypeRef} {name : Text} (hname : c.aidlType t = .ok name) :
    c'.aidlType (t.renumber π) = .ok name := by
  induction t generalizing name with
  | primitive kind => exact hname
  | vector element ih =>
    obtain ⟨inner, hinner, rfl⟩ := Outcome.map_eq_ok.1 hname
    exact Outcome.map_eq_ok.2 ⟨inner, ih hinner, rfl⟩
  | named id => exact h.aidlName hname

theorem chainWithin {room : Nat} {id : DeclId} {chain : List DeclId}
    (hchain : c.chainWithin room id = .ok chain) :
    c'.chainWithin room (π id) = .ok (chain.map π) ∧ ∀ k ∈ chain, k < c.size := by
  induction room generalizing id chain with
  | zero =>
    unfold Catalogue.chainWithin at hchain
    split at hchain
    · cases hchain
    · cases hchain
  | succ room ih =>
    unfold Catalogue.chainWithin at hchain ⊢
    split at hchain
    · cases hchain
    · next d hd =>
      have hlt : id < c.size := lt_size_of_get? hd
      simp only at hchain
      split at hchain
      · cases hchain
      · next members hb =>
        simp only [h.get id d hd, Declaration.renumber, hb, Body.renumber]
        cases hs : members.super with
        | none =>
          simp only [hs] at hchain
          cases hchain
          simp [hlt]
        | some next =>
          simp only [hs] at hchain
          obtain ⟨rest, hrest, rfl⟩ := Outcome.map_eq_ok.1 hchain
          obtain ⟨hrest', hmem⟩ := ih hrest
          refine ⟨Outcome.map_eq_ok.2 ⟨_, hrest', rfl⟩, ?_⟩
          intro k hk
          rcases List.mem_cons.1 hk with rfl | hk
          · exact hlt
          · exact hmem k hk

theorem candidatesFrom {depth : Nat} {chain : List DeclId} (hlt : ∀ k ∈ chain, k < c.size) :
    c'.candidatesFrom depth (chain.map π) =
      (c.candidatesFrom depth chain).map (Candidate.renumber π) := by
  induction chain generalizing depth with
  | nil => rfl
  | cons id rest ih =>
    obtain ⟨d, hd⟩ := exists_get? (hlt id (List.mem_cons_self ..))
    have hrest : c'.candidatesFrom (depth + 1) (rest.map π) =
        (c.candidatesFrom (depth + 1) rest).map (Candidate.renumber π) :=
      ih fun k hk => hlt k (List.mem_cons_of_mem _ hk)
    have hfirst : c'.candidatesAt (π id) depth =
        (c.candidatesAt id depth).map (Candidate.renumber π) := by
      simp only [candidatesAt, hd, h.get id d hd, Declaration.renumber]
      cases d.body with
      | interface members =>
        simp [Body.renumber, Candidate.ofMethod, Candidate.renumber, Method.renumber]
      | compound members => rfl
    rw [List.map_cons, Catalogue.candidatesFrom, hfirst, hrest, Catalogue.candidatesFrom,
      List.map_append]

theorem merge {id : DeclId} {m : Merge} (hm : c.merge id = .ok m) :
    c'.merge (π id) = .ok (m.renumber π) := by
  obtain ⟨chain, hchain, rfl⟩ := Outcome.map_eq_ok.1 hm
  obtain ⟨hchain', hlt⟩ := h.chainWithin hchain
  refine Outcome.map_eq_ok.2 ⟨chain.map π, ?_, ?_⟩
  · rw [Catalogue.chain, h.size]
    exact hchain'
  · rw [h.candidatesFrom hlt, Merge.ofCandidates_renumber]

/-! ### Parts of a file -/

theorem importsOf {d : Declaration} {references : List TypeRef} {i : Imports}
    (hi : c.importsOf d references = .ok i) :
    c'.importsOf (d.renumber π) (references.map (TypeRef.renumber π)) = .ok i := by
  obtain ⟨names, hnames, rfl⟩ := Outcome.map_eq_ok.1 hi
  have hids : (d.renumber π).nested ++
      (references.map (TypeRef.renumber π)).flatMap TypeRef.namedTypes =
        (d.nested ++ references.flatMap TypeRef.namedTypes).map π := by
    simp only [Declaration.renumber, List.map_append, List.flatMap_map, List.map_flatMap,
      TypeRef.namedTypes_renumber]
  refine Outcome.map_eq_ok.2 ⟨names, ?_, rfl⟩
  rw [hids]
  exact Outcome.mapM_map_of_same π (fun _ _ hname => h.aidlName hname) hnames

theorem typed {p : Param} {r : TypedResult} (hr : SignaturePlan.typed c p = .ok r) :
    SignaturePlan.typed c' (p.renumber π) = .ok r := by
  obtain ⟨type, htype, rfl⟩ := Outcome.map_eq_ok.1 hr
  exact Outcome.map_eq_ok.2 ⟨type, h.aidlType htype, rfl⟩

theorem ofResults {results : List Param} {plan : SignaturePlan}
    (hplan : SignaturePlan.ofResults c results = .ok plan) :
    SignaturePlan.ofResults c' (results.map (Param.renumber π)) = .ok (plan.renumber π) := by
  obtain ⟨dropped, hdropped, hplan⟩ := Outcome.bind_eq_ok.1 hplan
  have hdropped' := Outcome.mapM_map_of_same (Param.renumber π) (fun _ _ hr => h.typed hr) hdropped
  have hstatus : (results.map (Param.renumber π)).filter (fun p => isStatusName p.name) =
      (results.filter fun p => isStatusName p.name).map (Param.renumber π) := by
    rw [List.filter_map]
    rfl
  have hrest : (results.map (Param.renumber π)).filter (fun p => !isStatusName p.name) =
      (results.filter fun p => !isStatusName p.name).map (Param.renumber π) := by
    rw [List.filter_map]
    rfl
  have hchanges : ((results.filter fun p => isStatusName p.name).map (Param.renumber π)).map
      SignaturePlan.dropChange =
        (results.filter fun p => isStatusName p.name).map SignaturePlan.dropChange := by
    rw [List.map_map]
    rfl
  unfold SignaturePlan.ofResults
  simp only [hstatus, hrest, hchanges, hdropped', Outcome.ok_bind]
  split at hplan
  · next single hsingle =>
    obtain ⟨returned, hreturned, hplan⟩ := Outcome.bind_eq_ok.1 hplan
    cases hplan
    rw [hsingle]
    exact Outcome.bind_eq_ok.2 ⟨returned, h.typed hreturned, rfl⟩
  · next hseveral =>
    cases hplan
    generalize (results.filter fun p => !isStatusName p.name) = rest at hseveral ⊢
    match rest with
    | [] => rfl
    | [single] => exact absurd rfl (hseveral single)
    | first :: second :: more => rfl

theorem aidlParams (out : Bool) {params : List Param} {ps : List AidlParam}
    (hps : params.mapM (c.aidlParam out) = .ok ps) :
    (params.map (Param.renumber π)).mapM (c'.aidlParam out) = .ok ps := by
  have hparam : ∀ p a, c.aidlParam out p = .ok a → c'.aidlParam out (p.renumber π) = .ok a := by
    intro p a ha
    obtain ⟨type, htype, rfl⟩ := Outcome.map_eq_ok.1 ha
    exact Outcome.map_eq_ok.2 ⟨type, h.aidlType htype, rfl⟩
  exact Outcome.mapM_map_of_same (Param.renumber π) hparam hps

theorem aidlMethod {k : Candidate} {m : AidlMethod} (hm : c.aidlMethod k = .ok m) :
    c'.aidlMethod (k.renumber π) = .ok m := by
  obtain ⟨plan, hplan, hm⟩ := Outcome.bind_eq_ok.1 hm
  obtain ⟨args, hargs, hm⟩ := Outcome.bind_eq_ok.1 hm
  obtain ⟨outs, houts, hm⟩ := Outcome.bind_eq_ok.1 hm
  cases hm
  exact Outcome.bind_eq_ok.2 ⟨_, h.ofResults hplan, Outcome.bind_eq_ok.2 ⟨args,
    h.aidlParams false hargs, Outcome.bind_eq_ok.2 ⟨outs, h.aidlParams true houts, rfl⟩⟩⟩

theorem aidlField {f : Field} {field : AidlField} (hf : c.aidlField f = .ok field) :
    c'.aidlField (f.renumber π) = .ok field := by
  obtain ⟨type, htype, rfl⟩ := Outcome.map_eq_ok.1 hf
  exact Outcome.map_eq_ok.2 ⟨type, h.aidlType htype, rfl⟩

theorem ignoredRemark {k : Candidate} {remark : Remark} (hr : c.ignoredRemark k = .ok remark) :
    c'.ignoredRemark (k.renumber π) = .ok remark := by
  obtain ⟨d, hd, rfl⟩ := Outcome.map_eq_ok.1 hr
  exact Outcome.map_eq_ok.2 ⟨_, h.fetch hd, rfl⟩

theorem superName {members : Interface} {name : Option QualifiedName}
    (hname : c.superName members = .ok name) {methods : List Method} :
    c'.superName ⟨members.super.map π, methods⟩ = .ok name := by
  unfold Catalogue.superName at hname ⊢
  cases hs : members.super with
  | none =>
    rw [hs] at hname
    exact hname
  | some super =>
    rw [hs] at hname
    simp only [Option.map_some] at hname ⊢
    by_cases hbase : super = Catalogue.base
    · rw [if_pos hbase] at hname
      rw [hbase, h.base, if_pos rfl]
      exact hname
    · rw [if_neg hbase] at hname
      obtain ⟨d, hd, rfl⟩ := Outcome.map_eq_ok.1 hname
      have hlt : super < c.size := lt_size_of_get? (fetch_eq_ok.1 hd)
      have hother : π super ≠ Catalogue.base := by
        intro heq
        exact hbase (h.injective super _ hlt (Nat.zero_lt_of_lt hlt) (heq.trans h.base.symm))
      rw [if_neg hother]
      exact Outcome.map_eq_ok.2 ⟨_, h.fetch hd, rfl⟩

/-! ### Files -/

theorem translate {id : DeclId} {file : AidlFile} (hfile : c.translate id = .ok file) :
    c'.translate (π id) = .ok file := by
  obtain ⟨d, hd⟩ := exists_get?_of_translate hfile
  have hd' : c'.get? (π id) = some (d.renumber π) := fetch_eq_ok.1 (h.fetch (fetch_eq_ok.2 hd))
  cases hb : d.body with
  | interface members =>
    obtain ⟨merged, imports, lines, super, ignored, methods, hmerged, himports, hlines, hsuper,
      hignored, hmethods, rfl⟩ := (translate_interface_eq_ok_iff hd hb).1 hfile
    have himports' : c'.importsOf (d.renumber π) (merged.renumber π).references = .ok imports := by
      rw [Merge.references_renumber]
      exact h.importsOf himports
    have hignored' : (merged.renumber π).ignored.mapM c'.ignoredRemark = .ok ignored := by
      rw [Merge.ignored_renumber]
      exact Outcome.mapM_map_of_same _ (fun _ _ hk => h.ignoredRemark hk) hignored
    have hmethods' : (merged.renumber π).winners.mapM c'.aidlMethod = .ok methods :=
      Outcome.mapM_map_of_same _ (fun _ _ hk => h.aidlMethod hk) hmethods
    have hbody : (d.renumber π).body =
        .interface ⟨members.super.map π, members.methods.map (Method.renumber π)⟩ := by
      rw [Declaration.renumber, hb, Body.renumber]
    refine (translate_interface_eq_ok_iff hd' hbody).2 ⟨_, imports, lines, super, ignored, methods,
      h.merge hmerged, himports', hlines, h.superName hsuper, hignored', hmethods', ?_⟩
    rw [Merge.mixesOneway_renumber]
    rfl
  | compound members =>
    obtain ⟨imports, lines, fields, himports, hlines, hfields, rfl⟩ :=
      (translate_compound_eq_ok_iff hd hb).1 hfile
    have hbody : (d.renumber π).body =
        .compound { members with fields := members.fields.map (Field.renumber π) } := by
      rw [Declaration.renumber, hb, Body.renumber]
    have himports' : c'.importsOf (d.renumber π) (d.renumber π).body.references = .ok imports := by
      rw [Declaration.renumber, Body.references_renumber]
      exact h.importsOf himports
    have hfields' : (members.fields.map (Field.renumber π)).mapM c'.aidlField = .ok fields :=
      Outcome.mapM_map_of_same _ (fun _ _ hf => h.aidlField hf) hfields
    exact (translate_compound_eq_ok_iff hd' hbody).2
      ⟨imports, lines, fields, himports', hlines, hfields', rfl⟩

theorem render {o : Options} {id : DeclId} {r : Rendering} (hr : c.render o id = .ok r) :
    c'.render o (π id) = .ok r := by
  obtain ⟨file, hfile, hr⟩ := Outcome.bind_eq_ok.1 hr
  exact Outcome.bind_eq_ok.2 ⟨file, h.translate hfile, hr⟩

end Renumbering

end Catalogue

end FlatAidl
