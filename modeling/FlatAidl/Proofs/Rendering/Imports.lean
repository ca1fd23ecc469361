import FlatAidl.Proofs.Rendering.Members
import FlatAidl.Proofs.Signature.Plan

/-!
The imports of a file and the types in it. The imports are the names that nested declarations and
the types of members ask for, each at its first occurrence, without what the file declares and the
base interface. Main statement: with these, every declared type that stands in a signature or a field
of the written text is imported once in that text or needs no import.
-/

namespace FlatAidl

/-! ### The texts of types -/

/-- What follows the name at the leaf of a type. -/
def TypeRef.brackets : TypeRef → Text
  | .vector element => element.brackets ++ Text.ofString "[]"
  | _ => []

def voidText : Text :=
  Text.ofString "void"

/-- The types in a signature: those of the parameters and of the return value, if there is one. -/
def AidlMethod.typeTexts (e : AidlMethod) : List Text :=
  e.params.map AidlParam.type ++ if e.returnType = voidText then [] else [e.returnType]

def AidlBody.typeTexts : AidlBody → List Text
  | .interface _ _ _ _ methods => methods.flatMap AidlMethod.typeTexts
  | .compound _ fields => fields.map AidlField.type

theorem AidlMethod.infix_shown (m : AidlMethod) : ∀ type ∈ m.typeTexts, type <:+: m.shown := by
  intro type htype
  rcases List.mem_append.1 htype with htype | htype
  · obtain ⟨p, hp, rfl⟩ := List.mem_map.1 htype
    have hparam : p.type <:+: p.shown := ⟨_, ' ' :: p.name, rfl⟩
    have hjoin : p.shown <:+: Text.join (Text.ofString ", ") (m.params.map AidlParam.shown) :=
      Text.infix_join _ (List.mem_map_of_mem hp)
    exact (hparam.trans hjoin).trans ⟨_, Text.ofString ");", rfl⟩
  · split at htype
    · cases htype
    · rw [List.mem_singleton.1 htype, shown]
      simp only [List.append_assoc]
      exact ⟨_, _, List.append_assoc ..⟩

/-- Each type stands in the text of a member. -/
theorem AidlBody.exists_infix_shown (body : AidlBody) :
    ∀ type ∈ body.typeTexts, ∃ member ∈ body.shown, type <:+: member := by
  intro type htype
  cases body with
  | interface super mixesOneway comments notes methods =>
    obtain ⟨m, hm, htype⟩ := List.mem_flatMap.1 htype
    exact ⟨m.shown, List.mem_map_of_mem hm, m.infix_shown type htype⟩
  | compound kind fields =>
    obtain ⟨f, hf, rfl⟩ := List.mem_map.1 htype
    exact ⟨f.shown, List.mem_map_of_mem hf, [], ' ' :: f.name ++ [';'],
      (List.append_assoc f.type _ _).symm⟩

theorem Primitive.aidl?_ne_void (kind : Primitive) : kind.aidl? ≠ some voidText := by
  cases kind <;> decide

namespace Catalogue

variable {c : Catalogue}

theorem aidlType_leaf {t : TypeRef} {text : Text} (h : c.aidlType t = .ok text) {id : DeclId}
    (hid : id ∈ t.namedTypes) : ∃ name, c.aidlName id = .ok name ∧ text = name ++ t.brackets := by
  induction t generalizing text with
  | primitive kind => cases hid
  | vector element ih =>
    rw [aidlType] at h
    obtain ⟨inner, hinner, rfl⟩ := Outcome.map_eq_ok.1 h
    obtain ⟨name, hname, rfl⟩ := ih hinner hid
    exact ⟨name, hname, List.append_assoc ..⟩
  | named k =>
    have hsame : id = k := List.mem_singleton.1 hid
    rw [hsame]
    exact ⟨text, h, (List.append_nil text).symm⟩

theorem aidlType_ne_void {t : TypeRef} {text : Text} (h : c.aidlType t = .ok text) :
    text ≠ voidText := by
  cases t with
  | primitive kind =>
    rw [aidlType] at h
    split at h
    · next name hname =>
      cases h
      rintro rfl
      exact Primitive.aidl?_ne_void kind hname
    · cases h
  | vector element =>
    rw [aidlType] at h
    obtain ⟨inner, _, rfl⟩ := Outcome.map_eq_ok.1 h
    intro hvoid
    have hlast := congrArg List.getLast? hvoid
    simp [Text.ofString, voidText] at hlast
  | named id =>
    obtain ⟨d, _, rfl⟩ := Outcome.map_eq_ok.1 h
    intro hvoid
    have hdot : '.' ∈ voidText := by
      rw [← hvoid]
      exact List.mem_append_right _ (List.mem_cons_self ..)
    revert hdot
    decide

theorem types_of_aidlParams {out : Bool} {params : List Param} {ps : List AidlParam}
    (h : params.mapM (c.aidlParam out) = .ok ps) :
    List.Forall₂ (fun t text => c.aidlType t = .ok text) (params.map Param.type)
      (ps.map AidlParam.type) := by
  rw [List.forall₂_map_left_iff, List.forall₂_map_right_iff]
  refine (Outcome.mapM_eq_ok_iff_forall₂.1 h).imp fun p param hp => ?_
  obtain ⟨type, htype, rfl⟩ := Outcome.map_eq_ok.1 hp
  exact htype

/-- A signature shows the types of the arguments and of the results with values. -/
theorem types_of_aidlMethod {m : Candidate} {e : AidlMethod} (h : c.aidlMethod m = .ok e) :
    List.Forall₂ (fun t text => c.aidlType t = .ok text)
      ((m.method.args ++ valueResults m.method.results).map Param.type) e.typeTexts := by
  obtain ⟨plan, args, outs, hplan, hargs, houts, rfl⟩ := aidlMethod_eq_ok_iff.1 h
  have hargs' := types_of_aidlParams hargs
  have houts' := types_of_aidlParams houts
  simp only [AidlMethod.typeTexts, List.map_append]
  obtain ⟨_, _, ⟨single, returned, hsingle, hreturned, rfl⟩ | ⟨_, rfl⟩⟩ :=
    SignaturePlan.ofResults_eq_ok hplan
  · have hnone : outs = [] := by
      cases houts
      rfl
    obtain ⟨type, htype, rfl⟩ := Outcome.map_eq_ok.1 hreturned
    rw [hsingle, hnone, if_neg (aidlType_ne_void htype), List.map_nil, List.append_nil]
    exact List.rel_append hargs' (.cons htype .nil)
  · have hvoid : (Text.ofString "void" : Text) = voidText := rfl
    rw [if_pos hvoid, List.append_nil]
    exact List.rel_append hargs' houts'

theorem types_of_aidlFields {models : List Field} {fields : List AidlField}
    (h : models.mapM c.aidlField = .ok fields) :
    List.Forall₂ (fun t text => c.aidlType t = .ok text) (models.map Field.type)
      (fields.map AidlField.type) := by
  rw [List.forall₂_map_left_iff, List.forall₂_map_right_iff]
  refine (Outcome.mapM_eq_ok_iff_forall₂.1 h).imp fun f field hf => ?_
  obtain ⟨type, htype, rfl⟩ := Outcome.map_eq_ok.1 hf
  exact htype

/-! ### The imports of a declaration -/

/-- The types that the members of a declaration refer to, those of an interface being the merged
methods, and the types that are shown of them: a dropped result is referred to and not shown. -/
inductive MemberTypes (c : Catalogue) (id : DeclId) (d : Declaration) :
    List TypeRef → List TypeRef → Prop
  | interface {members : Interface} {merged : Merge} (body : d.body = .interface members)
      (merge : c.merge id = .ok merged) :
      MemberTypes c id d
        (merged.winners.flatMap fun w => (w.method.args ++ w.method.results).map Param.type)
        (merged.winners.flatMap fun w =>
          (w.method.args ++ valueResults w.method.results).map Param.type)
  | compound {members : Compound} (body : d.body = .compound members) :
      MemberTypes c id d (members.fields.map Field.type) (members.fields.map Field.type)

/-- Whether a text is the AIDL form of a type, and the name at the leaf of the type is imported once
or is one that needs no import. -/
def ShownWith (c : Catalogue) (own : Text) (imports : List Text) (t : TypeRef) (text : Text) : Prop :=
  c.aidlType t = .ok text ∧ ∀ id ∈ t.namedTypes, ∃ name, c.aidlName id = .ok name ∧
    text = name ++ t.brackets ∧
      (name = own ∨ name = Imports.baseName ∨ imports.count (Imports.line name) = 1)

theorem MemberTypes.subset {id : DeclId} {d : Declaration} {asked shown : List TypeRef}
    (h : c.MemberTypes id d asked shown) : shown ⊆ asked := by
  cases h with
  | compound body => exact List.Subset.refl _
  | interface body merge =>
    intro t ht
    obtain ⟨w, hw, ht⟩ := List.mem_flatMap.1 ht
    obtain ⟨p, hp, rfl⟩ := List.mem_map.1 ht
    refine List.mem_flatMap.2 ⟨w, hw, List.mem_map_of_mem ?_⟩
    rcases List.mem_append.1 hp with hp | hp
    · exact List.mem_append_left _ hp
    · exact List.mem_append_right _ (List.mem_of_mem_filter hp)

theorem exists_names_of_importsOf {d : Declaration} {asked : List TypeRef} {i : Imports}
    {lines : List Text} (hi : c.importsOf d asked = .ok i) (hlines : i.statements = .ok lines) :
    ∃ names, (d.nested ++ asked.flatMap TypeRef.namedTypes).mapM c.aidlName = .ok names ∧
      lines = (Imports.firstNames d.name.aidl names).map Imports.line := by
  obtain ⟨names, hnames, rfl⟩ := Outcome.map_eq_ok.1 hi
  exact ⟨names, hnames, Imports.statements_eq_ok hlines⟩

theorem parts_of_translate {id : DeclId} {d : Declaration} {f : AidlFile}
    {asked shown : List TypeRef} (hd : c.get? id = some d) (ht : c.MemberTypes id d asked shown)
    (hf : c.translate id = .ok f) :
    (∃ names, (d.nested ++ asked.flatMap TypeRef.namedTypes).mapM c.aidlName = .ok names ∧
      f.imports = (Imports.firstNames d.name.aidl names).map Imports.line) ∧
      List.Forall₂ (fun t text => c.aidlType t = .ok text) shown f.body.typeTexts := by
  cases ht with
  | interface body merge =>
    obtain ⟨merged, i, imports, _, _, methods, hmerged, hi, himports, _, _, hmethods, rfl⟩ :=
      (translate_interface_eq_ok_iff hd body).1 hf
    rw [merge] at hmerged
    cases hmerged
    refine ⟨exists_names_of_importsOf hi himports, ?_⟩
    exact List.rel_flatMap (Outcome.mapM_eq_ok_iff_forall₂.1 hmethods) fun _ _ => types_of_aidlMethod
  | compound body =>
    obtain ⟨i, imports, fields, hi, himports, hfields, rfl⟩ :=
      (translate_compound_eq_ok_iff hd body).1 hf
    rw [body] at hi
    exact ⟨exists_names_of_importsOf hi himports, types_of_aidlFields hfields⟩

/-- The file of a declaration imports the AIDL names of what is nested in it and then of the declared
types that its members refer to, each where it first occurs, without its own name and the base
interface's. So each declared type that stands in a signature or a field is imported once, or is the
declaration itself or the base interface. The text that is written has these imports, line by line
and no others, and shows the signatures and fields with these types. -/
theorem translate_imports_what_it_shows {ops : List Operation} (h : (build ops).finish = .ok c)
    {id : DeclId} {d : Declaration} (hd : c.get? id = some d) :
    ∃ asked shown, c.MemberTypes id d asked shown ∧
      (SoundReferences c → ∃ f, c.translate id = .ok f ∧ ∀ o, ∃ r, c.render o id = .ok r) ∧
      ∀ f, c.translate id = .ok f →
        (∃ names, (d.nested ++ asked.flatMap TypeRef.namedTypes).mapM c.aidlName = .ok names ∧
          f.imports = (Imports.firstNames d.name.aidl names).map Imports.line) ∧
        List.Forall₂ (c.ShownWith d.name.aidl f.imports) shown f.body.typeTexts ∧
        (∀ type ∈ f.body.typeTexts, ∃ member ∈ f.body.shown, type <:+: member) ∧
        ∀ o r, c.render o id = .ok r → f.WrittenAs o r.text := by
  have htypes : ∃ asked shown, c.MemberTypes id d asked shown := by
    cases hb : d.body with
    | interface members =>
      obtain ⟨chain, hmerge⟩ := exists_merge_of_finish h (isInterface_of_body hd hb)
      exact ⟨_, _, .interface hb hmerge⟩
    | compound members => exact ⟨_, _, .compound hb⟩
  obtain ⟨asked, shown, htypes⟩ := htypes
  refine ⟨asked, shown, htypes, ?_, ?_⟩
  · intro hsound
    have hrenderable := renderable_of_finish h hsound
    obtain ⟨f, hf⟩ := hrenderable.exists_translate (lt_size_of_get? hd)
    exact ⟨f, hf, fun o => hrenderable.exists_render o (lt_size_of_get? hd)⟩
  · intro f hf
    obtain ⟨⟨names, hnames, himports⟩, htexts⟩ := parts_of_translate hd htypes hf
    have hwritten : ∀ o r, c.render o id = .ok r → f.WrittenAs o r.text := by
      intro o r hr
      rw [render_eq_map, hf] at hr
      cases hr
      exact f.writtenAs_text o
    refine ⟨⟨names, hnames, himports⟩, ?_, f.body.exists_infix_shown, hwritten⟩
    -- A shown type is one that the members refer to, so the name at its leaf was asked for.
    have hshown : ∀ t ∈ shown, ∀ text, c.aidlType t = .ok text →
        c.ShownWith d.name.aidl f.imports t text := by
      intro t ht text htext
      refine ⟨htext, fun leaf hleaf => ?_⟩
      obtain ⟨name, hname, heq⟩ := aidlType_leaf htext hleaf
      have hmem : leaf ∈ d.nested ++ asked.flatMap TypeRef.namedTypes :=
        List.mem_append_right _ (List.mem_flatMap.2 ⟨t, htypes.subset ht, hleaf⟩)
      obtain ⟨name', hname', hleafname⟩ := Outcome.exists_of_mem_of_mapM hnames hmem
      rw [hname] at hleafname
      cases hleafname
      refine ⟨name, hname, heq, ?_⟩
      rw [himports]
      exact Imports.known_of_mem hname'
    exact ((List.forall₂_and_left _ _).2 ⟨hshown, htexts⟩).imp fun t text ht => ht.1 text ht.2

/-- A cabinet with a box nested in it. One method takes a vector of vectors of boxes and gives a
cabinet; the other one is left out for it and refers to a crate. -/
def cabinetOps : List Operation :=
  let name (major : Nat) (names : List String) : QualifiedName :=
    ⟨Text.ofString "hw.cabinet", ⟨major, 0⟩, names.map Text.ofString⟩
  let boxes : Param := ⟨Text.ofString "boxes", .vector (.vector (.named 2))⟩
  let cabinet : Param := ⟨Text.ofString "cabinet", .named 1⟩
  let crate : Param := ⟨Text.ofString "crate", .named 3⟩
  [.declareInterface (name 1 ["ICabinet"]) none,
    .declareCompound .struct (name 1 ["ICabinet", "Box"]) (some 1),
    .declareCompound .struct (name 2 ["Crate"]) none,
    .addMethod 1 ⟨Text.ofString "fill", [crate], [], false, none⟩,
    .addMethod 1 ⟨Text.ofString "fill_1_1", [boxes], [cabinet], false, none⟩]

def cabinetFile : AidlFile :=
  let source : QualifiedName :=
    ⟨Text.ofString "hw.cabinet", ⟨1, 0⟩, [Text.ofString "ICabinet"]⟩
  let ignored : Remark := .ignored (Text.ofString "fill") source
  let changes : List Remark :=
    [.renamed (Text.ofString "fill_1_1") (Text.ofString "fill"),
      .returned source.aidl (Text.ofString "cabinet") (Text.ofString "fill_1_1")]
  let fill : AidlMethod :=
    ⟨changes.map Remark.comment, changes.map Remark.note, none, false, source.aidl,
      Text.ofString "fill",
      [⟨false, Text.ofString "hw.cabinet.ICabinetBox[][]", Text.ofString "boxes"⟩]⟩
  ⟨source, [Text.ofString "import hw.cabinet.ICabinetBox;"], none,
    .interface none false [ignored.comment] [ignored.note] [fill]⟩

theorem cabinetFile_imports_what_it_shows :
    (build cabinetOps).finish = .ok (build cabinetOps) ∧
      (build cabinetOps).translate 1 = .ok cabinetFile ∧
      ∃ d asked shown, ∃ r : Rendering, (build cabinetOps).get? 1 = some d ∧
        (build cabinetOps).MemberTypes 1 d asked shown ∧
        List.Forall₂ ((build cabinetOps).ShownWith d.name.aidl
            [Text.ofString "import hw.cabinet.ICabinetBox;"])
          shown [Text.ofString "hw.cabinet.ICabinetBox[][]", Text.ofString "hw.cabinet.ICabinet"] ∧
        (build cabinetOps).render Options.standard 1 = .ok r ∧
        cabinetFile.WrittenAs Options.standard r.text ∧
        ((Text.split '\n' r.text).filter fun line => (Text.ofString "import ").isPrefixOf line) =
          [Text.ofString "import hw.cabinet.ICabinetBox;"] ∧
        Text.ofString "    hw.cabinet.ICabinet fill(in hw.cabinet.ICabinetBox[][] boxes);" ∈
          Text.split '\n' r.text := by
  have hfinish : (build cabinetOps).finish = .ok (build cabinetOps) := by decide
  have hfile : (build cabinetOps).translate 1 = .ok cabinetFile := rfl
  obtain ⟨d, hd⟩ := exists_get? (show 1 < (build cabinetOps).size by decide)
  obtain ⟨asked, shown, htypes, _, hall⟩ := translate_imports_what_it_shows hfinish hd
  obtain ⟨_, hshown, _, hwritten⟩ := hall cabinetFile hfile
  have hrender : (build cabinetOps).render Options.standard 1 =
      .ok (cabinetFile.render Options.standard) := by
    rw [render_eq_map, hfile]
    rfl
  refine ⟨hfinish, hfile, d, asked, shown, _, hd, htypes, hshown, hrender,
    hwritten Options.standard _ hrender, ?_⟩
  decide +kernel

end Catalogue

end FlatAidl
