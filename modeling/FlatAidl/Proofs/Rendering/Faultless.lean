import FlatAidl.Emission.Basic
import FlatAidl.Proofs.Catalogue.Nesting
import FlatAidl.Proofs.Flattening.Candidates
import FlatAidl.Proofs.Flattening.Insertion
import FlatAidl.Proofs.Package.Assembly
import FlatAidl.Proofs.Rendering.ImportNames
import FlatAidl.Proofs.Rendering.Parts

/-!
No fault in rendering. What the renderer asks for and cannot do without was checked when the
catalogue was made: chains end, references lead to declarations and have AIDL forms, and nested
declarations exist. Main statement: from the catalogue of package models every declaration is
rendered, so no emission ends in a fault.
-/

namespace FlatAidl

/-! ### Indentation -/

namespace Pen

theorem balanced_append_of_text {level : Nat} {steps rest : List WritingStep}
    (h : ∀ s ∈ steps, ∃ t, s = .text t) : balanced level (steps ++ rest) = balanced level rest := by
  induction steps with
  | nil => rfl
  | cons s steps ih =>
    obtain ⟨t, rfl⟩ := h s (List.mem_cons_self ..)
    rw [List.cons_append, balanced]
    exact ih fun s hs => h s (List.mem_cons_of_mem _ hs)

end Pen

namespace AidlBody

theorem text_of_mem_lines {lines : List Text} :
    ∀ s ∈ lines.map WritingStep.line, ∃ t, s = .text t := by
  intro s hs
  obtain ⟨t, _, rfl⟩ := List.mem_map.1 hs
  exact ⟨_, rfl⟩

theorem text_of_mem_methodSteps (o : Options) (methods : List AidlMethod) :
    ∀ s ∈ methodSteps o methods, ∃ t, s = .text t := by
  fun_induction methodSteps o methods with
  | case1 =>
    intro s hs
    cases hs
  | case2 m => exact text_of_mem_lines
  | case3 m rest _ ih =>
    intro s hs
    rcases List.mem_append.1 hs with hs | hs
    · exact text_of_mem_lines s hs
    · rcases List.mem_cons.1 hs with rfl | hs
      · exact ⟨_, rfl⟩
      · exact ih s hs

theorem text_of_mem_memberSteps (o : Options) (body : AidlBody) :
    ∀ s ∈ body.memberSteps o, ∃ t, s = .text t := by
  cases body with
  | compound kind fields => exact text_of_mem_lines
  | interface super mixes comments notes methods =>
    intro s hs
    rw [memberSteps, List.append_assoc, List.mem_append, List.mem_append] at hs
    rcases hs with hs | hs | hs
    · obtain ⟨r, _, rfl⟩ := List.mem_map.1 hs
      exact ⟨_, rfl⟩
    · split at hs
      · cases hs
      · rw [List.mem_singleton.1 hs]
        exact ⟨_, rfl⟩
    · exact text_of_mem_methodSteps o methods s hs

end AidlBody

namespace AidlFile

theorem text_of_mem_topSteps (o : Options) (f : AidlFile) :
    ∀ s ∈ f.topSteps o, ∃ t, s = .text t := by
  intro s hs
  simp only [topSteps, List.mem_append] at hs
  rcases hs with ((hs | hs) | hs) | hs
  · split at hs
    · cases hs
    · rcases List.mem_cons.1 hs with rfl | hs
      · exact ⟨_, rfl⟩
      · rw [List.mem_singleton.1 hs]
        exact ⟨_, rfl⟩
  · rcases List.mem_cons.1 hs with rfl | hs
    · exact ⟨_, rfl⟩
    · rw [List.mem_singleton.1 hs]
      exact ⟨_, rfl⟩
  · exact AidlBody.text_of_mem_lines s hs
  · split at hs
    · cases hs
    · rw [List.mem_singleton.1 hs]
      exact ⟨_, rfl⟩

/-- What stands in front of a declaration. -/
def frontSteps (o : Options) (f : AidlFile) : List WritingStep :=
  f.topSteps o ++ (docLines f.doc ++ f.body.preface).map WritingStep.line

theorem text_of_mem_frontSteps (o : Options) (f : AidlFile) :
    ∀ s ∈ f.frontSteps o, ∃ t, s = .text t := by
  intro s hs
  rcases List.mem_append.1 hs with hs | hs
  · exact text_of_mem_topSteps o f s hs
  · exact AidlBody.text_of_mem_lines s hs

theorem steps_eq (o : Options) (f : AidlFile) :
    f.steps o = f.frontSteps o ++
      .line (f.body.keyword ++ ' ' :: f.source.aidlName ++ Text.ofString " \x7b") :: .indent ::
        (f.body.memberSteps o ++ [.dedent, .line ['\x7d']]) := by
  simp only [steps, frontSteps, List.append_assoc, List.cons_append]

/-- A file indents once, for its members, and goes back. -/
theorem balanced_steps (o : Options) (f : AidlFile) : Pen.balanced 0 (f.steps o) = true := by
  have hhead := text_of_mem_frontSteps o f
  have hmembers := AidlBody.text_of_mem_memberSteps o f.body
  rw [steps_eq, Pen.balanced_append_of_text hhead, WritingStep.line, Pen.balanced, Pen.balanced,
    Pen.balanced_append_of_text hmembers]
  rfl

end AidlFile

/-! ### Imports -/

namespace Imports

theorem exists_statements (own : Text) (names : List Text) :
    ∃ lines, (ofNames own names).statements = .ok lines := by
  have hbase : (ofNames own names).contains baseName = true :=
    ((ofNames_spec own names).1 baseName).2 (Or.inr (Or.inr rfl))
  rw [statements, if_pos hbase]
  exact ⟨_, rfl⟩

end Imports

namespace Catalogue

variable {c : Catalogue}

theorem exists_import_statements {d : Declaration} {references : List TypeRef}
    (hnested : ∀ id ∈ d.nested, id < c.size) (hsound : ∀ t ∈ references, t.Sound c) :
    ∃ i lines, c.importsOf d references = .ok i ∧ i.statements = .ok lines := by
  have hnames : ∃ names,
      (d.nested ++ references.flatMap TypeRef.namedTypes).mapM c.aidlName = .ok names := by
    refine Outcome.mapM_ok fun id hid => exists_aidlName ?_
    rcases List.mem_append.1 hid with hid | hid
    · exact hnested id hid
    · obtain ⟨t, ht, hid⟩ := List.mem_flatMap.1 hid
      exact (hsound t ht).lt_size hid
  obtain ⟨names, hnames⟩ := hnames
  obtain ⟨lines, hlines⟩ := Imports.exists_statements d.name.aidl names
  exact ⟨_, lines, Outcome.map_eq_ok.2 ⟨names, hnames, rfl⟩, hlines⟩

/-! ### Methods and fields -/

theorem exists_typed {p : Param} (h : p.type.Sound c) : ∃ r, SignaturePlan.typed c p = .ok r := by
  obtain ⟨type, htype⟩ := exists_aidlType h
  exact ⟨_, Outcome.map_eq_ok.2 ⟨type, htype, rfl⟩⟩

/-- Results with sound types have a plan, which passes on none but them. -/
theorem exists_plan {results : List Param} (h : ∀ p ∈ results, p.type.Sound c) :
    ∃ plan, SignaturePlan.ofResults c results = .ok plan ∧ ∀ p ∈ plan.outParams, p ∈ results := by
  have hdropped : ∃ dropped,
      (results.filter fun p => isStatusName p.name).mapM (SignaturePlan.typed c) = .ok dropped :=
    Outcome.mapM_ok fun p hp => exists_typed (h p (List.mem_of_mem_filter hp))
  obtain ⟨dropped, hdropped⟩ := hdropped
  have hrest : ∀ p ∈ results.filter fun p => !isStatusName p.name, p ∈ results :=
    fun p hp => List.mem_of_mem_filter hp
  unfold SignaturePlan.ofResults
  simp only [hdropped]
  generalize results.filter (fun p => !isStatusName p.name) = rest at hrest
  split
  · next single =>
    obtain ⟨returned, hreturned⟩ := exists_typed (h single (hrest single (List.mem_singleton_self _)))
    refine ⟨_, Outcome.bind_eq_ok.2 ⟨dropped, rfl, Outcome.bind_eq_ok.2 ⟨returned, hreturned, rfl⟩⟩, ?_⟩
    intro p hp
    cases hp
  · exact ⟨_, rfl, hrest⟩

theorem exists_aidlParams (out : Bool) {params : List Param} (h : ∀ p ∈ params, p.type.Sound c) :
    ∃ ps, params.mapM (c.aidlParam out) = .ok ps := by
  refine Outcome.mapM_ok fun p hp => ?_
  obtain ⟨type, htype⟩ := exists_aidlType (h p hp)
  exact ⟨_, Outcome.map_eq_ok.2 ⟨type, htype, rfl⟩⟩

theorem exists_aidlMethod {m : Candidate} (h : ∀ t ∈ m.method.references, t.Sound c) :
    ∃ method, c.aidlMethod m = .ok method := by
  have hparams : ∀ p ∈ m.method.args ++ m.method.results, p.type.Sound c :=
    fun p hp => h p.type (List.mem_map_of_mem hp)
  have hresults : ∀ p ∈ m.method.results, p.type.Sound c :=
    fun p hp => hparams p (List.mem_append_right _ hp)
  obtain ⟨plan, hplan, hout⟩ := exists_plan hresults
  obtain ⟨args, hargs⟩ :=
    exists_aidlParams false fun p hp => hparams p (List.mem_append_left _ hp)
  obtain ⟨outs, houts⟩ := exists_aidlParams true fun p hp => hresults p (hout p hp)
  exact ⟨_, aidlMethod_eq_ok_iff.2 ⟨plan, args, outs, hplan, hargs, houts, rfl⟩⟩

theorem exists_aidlField {f : Field} (h : f.type.Sound c) : ∃ field, c.aidlField f = .ok field := by
  obtain ⟨type, htype⟩ := exists_aidlType h
  exact ⟨_, Outcome.map_eq_ok.2 ⟨type, htype, rfl⟩⟩

theorem exists_ignoredRemark {m : Candidate} (h : m.declaredIn < c.size) :
    ∃ remark, c.ignoredRemark m = .ok remark := by
  obtain ⟨d, hd⟩ := exists_get? h
  exact ⟨_, Outcome.map_eq_ok.2 ⟨d, fetch_eq_ok.2 hd, rfl⟩⟩

/-! ### Declarations -/

/-- What was checked when a catalogue was made, as far as rendering rests on it. -/
structure Renderable (c : Catalogue) : Prop where
  rooted : Rooted c
  acyclic : ∀ id, ¬ c.InheritsFrom id id
  nested : Nested c
  references : SoundReferences c

theorem renderable_ofPackages {files : List (Path × PackageModel)} (h : ofPackages files = .ok c) :
    Renderable c where
  rooted := (built_ofPackages h).1.rooted
  acyclic := (built_ofPackages h).2
  nested := (built_ofPackages h).1.nested
  references := (built_ofPackages h).1.soundReferences

theorem nested_of_finish {ops : List Operation} (h : (build ops).finish = .ok c) : Nested c := by
  obtain ⟨rfl, _⟩ := finish_eq_ok_iff.1 h
  exact (built_build ops).nested

theorem renderable_of_finish {ops : List Operation} (h : (build ops).finish = .ok c)
    (hreferences : SoundReferences c) : Renderable c := by
  obtain ⟨rfl, hacyclic⟩ := finish_eq_ok_iff.1 h
  exact ⟨(built_build ops).rooted, hacyclic, (built_build ops).nested, hreferences⟩

theorem Rooted.exists_merge (hr : Rooted c) (hacyclic : ∀ id, ¬ c.InheritsFrom id id) {id : DeclId}
    (hid : c.isInterface id = true) :
    ∃ chain, c.merge id = .ok (Merge.ofCandidates (c.candidatesFrom 0 chain)) := by
  obtain ⟨chain, hchain, _⟩ := hr.exists_chain hacyclic hid
  exact ⟨chain, Outcome.map_eq_ok.2 ⟨chain, hchain, rfl⟩⟩

theorem exists_merge_of_finish {ops : List Operation} (h : (build ops).finish = .ok c) {id : DeclId}
    (hid : c.isInterface id = true) :
    ∃ chain, c.merge id = .ok (Merge.ofCandidates (c.candidatesFrom 0 chain)) := by
  obtain ⟨rfl, hacyclic⟩ := finish_eq_ok_iff.1 h
  exact (built_build ops).rooted.exists_merge hacyclic hid

theorem isInterface_of_body {id : DeclId} {d : Declaration} {members : Interface}
    (hd : c.get? id = some d) (hb : d.body = .interface members) : c.isInterface id = true :=
  isInterface_iff.2 ⟨members, interface?_eq_some.2 ⟨d, hd, hb⟩⟩

namespace Renderable

variable (h : Renderable c)
include h

theorem sound_of_candidate {depth : Nat} {chain : List DeclId} {k : Candidate}
    (hk : k ∈ c.candidatesFrom depth chain) :
    k.declaredIn < c.size ∧ ∀ t ∈ k.method.references, t.Sound c := by
  obtain ⟨d, members, hd, hb, hmethod⟩ := exists_of_mem_candidatesFrom hk
  refine ⟨lt_size_of_get? hd, fun t ht => h.references _ d hd t ?_⟩
  rw [hb]
  exact List.mem_flatMap.2 ⟨k.method, hmethod, ht⟩

theorem nested_lt_size {id : DeclId} {d : Declaration} (hd : c.get? id = some d) :
    ∀ k ∈ d.nested, k < c.size := by
  intro k hk
  rw [← nestedIn_of_get? hd] at hk
  exact h.nested.lt_size hk

theorem exists_superName {id : DeclId} {members : Interface}
    (hm : c.interface? id = some members) : ∃ name, c.superName members = .ok name := by
  unfold superName
  split
  · next super hs =>
    split
    · exact ⟨none, rfl⟩
    · have hsuper : c.super? id = some super := (super?_of_interface? hm).trans hs
      have hlt := lt_size_of_isInterface (h.rooted.super_isInterface id super hsuper)
      obtain ⟨d, hd⟩ := exists_get? hlt
      exact ⟨some d.name, Outcome.map_eq_ok.2 ⟨d, fetch_eq_ok.2 hd, rfl⟩⟩
  · exact ⟨none, rfl⟩

theorem exists_interface_file {id : DeclId} {d : Declaration} {members : Interface}
    (hd : c.get? id = some d) (hb : d.body = .interface members) :
    ∃ file, c.translate id = .ok file := by
  have hm : c.interface? id = some members := interface?_eq_some.2 ⟨d, hd, hb⟩
  obtain ⟨chain, hmerge⟩ := h.rooted.exists_merge h.acyclic (isInterface_of_body hd hb)
  have hsound : ∀ t ∈ (Merge.ofCandidates (c.candidatesFrom 0 chain)).references, t.Sound c := by
    intro t ht
    obtain ⟨k, hk, ht⟩ := List.mem_flatMap.1 ht
    exact (h.sound_of_candidate (Merge.mem_of_mem_winners hk)).2 t ht
  obtain ⟨i, lines, hi, hlines⟩ := exists_import_statements (h.nested_lt_size hd) hsound
  obtain ⟨super, hsuper⟩ := h.exists_superName hm
  have hignored : ∃ ignored, (Merge.ofCandidates (c.candidatesFrom 0 chain)).ignored.mapM
      c.ignoredRemark = .ok ignored :=
    Outcome.mapM_ok fun k hk =>
      exists_ignoredRemark (h.sound_of_candidate (Merge.mem_of_mem_ignored hk)).1
  have hmethods : ∃ methods, (Merge.ofCandidates (c.candidatesFrom 0 chain)).winners.mapM
      c.aidlMethod = .ok methods :=
    Outcome.mapM_ok fun k hk =>
      exists_aidlMethod (h.sound_of_candidate (Merge.mem_of_mem_winners hk)).2
  obtain ⟨ignored, hignored⟩ := hignored
  obtain ⟨methods, hmethods⟩ := hmethods
  exact ⟨_, (translate_interface_eq_ok_iff hd hb).2 ⟨_, i, lines, super, ignored, methods, hmerge,
    hi, hlines, hsuper, hignored, hmethods, rfl⟩⟩

theorem exists_compound_file {id : DeclId} {d : Declaration} {members : Compound}
    (hd : c.get? id = some d) (hb : d.body = .compound members) :
    ∃ file, c.translate id = .ok file := by
  have hsound : ∀ t ∈ d.body.references, t.Sound c := h.references id d hd
  obtain ⟨i, lines, hi, hlines⟩ := exists_import_statements (h.nested_lt_size hd) hsound
  have hfields : ∃ fields, members.fields.mapM c.aidlField = .ok fields := by
    refine Outcome.mapM_ok fun f hf => exists_aidlField (hsound f.type ?_)
    rw [hb]
    exact List.mem_map_of_mem hf
  obtain ⟨fields, hfields⟩ := hfields
  exact ⟨_, (translate_compound_eq_ok_iff hd hb).2 ⟨i, lines, fields, hi, hlines, hfields, rfl⟩⟩

theorem exists_translate {id : DeclId} (hid : id < c.size) : ∃ file, c.translate id = .ok file := by
  obtain ⟨d, hd⟩ := exists_get? hid
  cases hb : d.body with
  | interface members => exact h.exists_interface_file hd hb
  | compound members => exact h.exists_compound_file hd hb

/-- Every declaration is rendered: its file exists, and its indentation goes back to the margin. -/
theorem exists_render (o : Options) {id : DeclId} (hid : id < c.size) :
    ∃ r, c.render o id = .ok r := by
  obtain ⟨file, hfile⟩ := h.exists_translate hid
  rw [render, hfile, Outcome.ok_bind, if_pos (file.balanced_steps o)]
  exact ⟨_, rfl⟩

end Renderable

/-! ### Emission -/

section

variable {σ : Type} {o : Options} {out : Output σ}

theorem emitOne_ne_fault {p : Progress σ} {id : DeclId} {f : Fault} {r : Rendering}
    (h : c.render o id = .ok r) : (c.emitOne o out p id).2 ≠ .error (.fault f) := by
  unfold emitOne
  rw [h]
  dsimp only
  split
  · simp
  · split <;> simp

theorem emitList_ne_fault {p : Progress σ} {ids : List DeclId} {f : Fault}
    (h : ∀ id ∈ ids, ∃ r, c.render o id = .ok r) :
    (c.emitList o out p ids).2 ≠ .error (.fault f) := by
  induction ids generalizing p with
  | nil => simp [emitList]
  | cons id rest ih =>
    obtain ⟨r, hr⟩ := h id (List.mem_cons_self ..)
    have hone : (c.emitOne o out p id).2 ≠ .error (.fault f) := emitOne_ne_fault hr
    unfold emitList
    cases hstep : c.emitOne o out p id with
    | mk p' result =>
      rw [hstep] at hone
      cases result with
      | error e => simpa using hone
      | ok path =>
        have hrest := ih (p := p') fun k hk => h k (List.mem_cons_of_mem _ hk)
        intro hf
        exact hrest (Outcome.map_eq_error.1 hf)

end

/-- From the catalogue of any package models every declaration is rendered under all options. What
is nested in a declaration exists, and the emission of the declaration, whatever the output and the
log were before, ends in no fault. -/
theorem render_ok_of_ofPackages {files : List (Path × PackageModel)} (h : ofPackages files = .ok c)
    (o : Options) {id : DeclId} (hid : id < c.size) :
    (∃ r, c.render o id = .ok r) ∧ (∀ k ∈ c.emissionOrder id, k < c.size) ∧
      ∀ {σ : Type} (out : Output σ) (p : Progress σ) (f : Fault),
        (c.emit o out p id).2 ≠ .error (.fault f) := by
  have hr := renderable_ofPackages h
  have hnested : ∀ k ∈ c.emissionOrder id, k < c.size := by
    intro k hk
    have hwithin := (hr.nested.mem_emissionOrder (Nat.zero_lt_of_lt hid)).1 hk
    exact hr.nested.within_lt_size hid hwithin
  refine ⟨hr.exists_render o hid, hnested, ?_⟩
  intro σ out p f
  exact emitList_ne_fault fun k hk => hr.exists_render o (hnested k hk)

/-- Two versions of an interface: the first with a type nested in it and a vector of vectors of
that type, the second inheriting from it with a newer form of its method. -/
def gadgetPackages : List (Path × PackageModel) :=
  let package := Text.ofString "hw.gadget"
  let interface := Text.ofString "IGadget"
  let modes : ParamModel := ⟨Text.ofString "modes", Text.ofString "vec<vec<IGadget.Mode>>"⟩
  let mode : DeclModel :=
    .compound .struct (Text.ofString "Mode") none
      [⟨Text.ofString "id", Text.ofString "uint32_t", none⟩] []
  [(Text.ofString "old.json", ⟨package ++ Text.ofString "@1.0",
      [.interface interface none none [⟨Text.ofString "set", [modes], [], false, none⟩] [mode]]⟩),
    (Text.ofString "new.json", ⟨package ++ Text.ofString "@1.1",
      [.interface interface (some (package ++ Text.ofString "@1.0::IGadget")) none
        [⟨Text.ofString "set_1_1", [], [], true, none⟩] []]⟩)]

theorem render_ok_gadgetPackages : ∃ c, ofPackages gadgetPackages = .ok c ∧ 3 < c.size ∧
    ∃ r, c.render Options.standard 3 = .ok r := by
  have hsize : (ofPackages gadgetPackages).toOption.map size = some 4 := by decide +kernel
  cases hc : ofPackages gadgetPackages with
  | error e =>
    rw [hc] at hsize
    cases hsize
  | ok c =>
    rw [hc] at hsize
    have hfour : c.size = 4 := Option.some.inj hsize
    have hid : 3 < c.size := by omega
    exact ⟨c, rfl, hid, (render_ok_of_ofPackages hc Options.standard hid).1⟩

end Catalogue

end FlatAidl
