import FlatAidl.Proofs.Emission.Store
import FlatAidl.Proofs.Emission.Targets
import FlatAidl.Proofs.FileTree.Writing
import FlatAidl.Run.Basic

/-!
What the conversion log of a run records. Every target is translated, also behind one that fails,
but the log takes the notes of the targets in front of the first failure only. Main statement: the
log holds the notes of these targets and nothing else, so it misses what the failing target wrote
before it failed and everything that later targets wrote.
-/

namespace FlatAidl

/-- The line that records the conversion of a declaration. -/
def QualifiedName.conversion (n : QualifiedName) : Text :=
  Text.ofString "Converted " ++ n.text ++ Text.ofString " to " ++ n.aidl

namespace Catalogue

variable {σ : Type} {c : Catalogue} {o : Options} {out : Output σ}

theorem conversion_mem_notes {id : DeclId} {r : Rendering} (h : c.render o id = .ok r) :
    ∃ d, c.get? id = some d ∧ d.name.conversion ∈ r.notes := by
  obtain ⟨f, hf, h⟩ := Outcome.bind_eq_ok.1 h
  obtain ⟨d, hd, hsource⟩ := source_of_translate hf
  refine ⟨d, hd, ?_⟩
  split at h
  · cases h
    rw [← hsource]
    exact List.mem_cons_self ..
  · cases h

/-! ### One target -/

/-- The declarations of a list that are written: those in front of the first refusal. -/
def granted (c : Catalogue) (o : Options) (out : Output σ) (p : Progress σ) :
    List DeclId → List DeclId
  | [] => []
  | id :: rest =>
    match c.emitOne o out p id with
    | (_, .error _) => []
    | (p, .ok _) => id :: c.granted o out p rest

theorem granted_sublist (c : Catalogue) (o : Options) (out : Output σ) (p : Progress σ)
    (ids : List DeclId) : (c.granted o out p ids).Sublist ids := by
  induction ids generalizing p with
  | nil => exact List.Sublist.slnil
  | cons id rest ih =>
    rw [granted]
    split
    · exact List.nil_sublist _
    · next p' _ _ => exact (ih p').cons_cons id

theorem log_of_emitOne {s : σ} {lines : List Text} {id : DeclId} {p : Progress σ} {path : Path}
    (h : c.emitOne o out ⟨s, ⟨lines, none⟩⟩ id = (p, .ok path)) :
    ∃ r, c.render o id = .ok r ∧ p.log = ⟨lines ++ r.notes, none⟩ := by
  unfold emitOne at h
  split at h
  · cases h
  · next r hr =>
    refine ⟨r, hr, ?_⟩
    split at h
    · cases h
    · rw [NoteLog.addAll_of_takes (NoteLog.takes_of_unlimited lines _)] at h
      cases h
      rfl

theorem emitList_eq_ok {s : σ} {lines : List Text} {ids : List DeclId} {p : Progress σ}
    {paths : List Path} (h : c.emitList o out ⟨s, ⟨lines, none⟩⟩ ids = (p, .ok paths)) :
    c.granted o out ⟨s, ⟨lines, none⟩⟩ ids = ids ∧
      ∃ rs, ids.mapM (c.render o) = .ok rs ∧
        p.log = ⟨lines ++ rs.flatMap Rendering.notes, none⟩ := by
  induction ids generalizing s lines p paths with
  | nil =>
    cases h
    exact ⟨rfl, [], rfl, by simp⟩
  | cons id rest ih =>
    rw [granted]
    rw [emitList] at h
    cases hone : c.emitOne o out ⟨s, ⟨lines, none⟩⟩ id with
    | mk p' result =>
      rw [hone] at h
      cases result with
      | error e => cases h
      | ok path =>
        obtain ⟨r, hr, hlog⟩ := log_of_emitOne hone
        obtain ⟨s', log'⟩ := p'
        dsimp only at hlog h ⊢
        subst hlog
        cases hrest : c.emitList o out ⟨s', ⟨lines ++ r.notes, none⟩⟩ rest with
        | mk p'' result =>
          rw [hrest] at h
          obtain ⟨hp, hresult⟩ := Prod.mk.inj h
          obtain ⟨more, hmore, _⟩ := Outcome.map_eq_ok.1 hresult
          dsimp only at hp hmore
          subst hp hmore
          obtain ⟨hgranted, rs, hrs, hnotes⟩ := ih hrest
          refine ⟨by rw [hgranted], r :: rs, ?_, ?_⟩
          · rw [Outcome.mapM_cons, hr, Outcome.ok_bind, hrs]
            rfl
          · rw [hnotes, List.flatMap_cons, List.append_assoc]

end Catalogue

namespace Run

variable {c : Catalogue} {o : Options} {root : Path}

theorem translateOne_eq_ok {t t' : FileTree} {id : DeclId} {paths : List Path}
    {notes : List Text} (h : translateOne c o root t id = (t', .ok (paths, notes))) :
    c.granted o (FileTree.output root) ⟨t, NoteLog.empty⟩ (c.emissionOrder id) =
        c.emissionOrder id ∧
      ∃ rs, (c.emissionOrder id).mapM (c.render o) = .ok rs ∧
        notes = rs.flatMap Rendering.notes := by
  cases hemit : c.emit o (FileTree.output root) ⟨t, NoteLog.empty⟩ id with
  | mk p result =>
    rw [translateOne, hemit] at h
    obtain ⟨_, hresult⟩ := Prod.mk.inj h
    obtain ⟨more, hmore, hpair⟩ := Outcome.map_eq_ok.1 hresult
    subst hmore
    obtain ⟨hgranted, rs, hrs, hlog⟩ := Catalogue.emitList_eq_ok hemit
    refine ⟨hgranted, rs, hrs, ?_⟩
    rw [← (Prod.mk.inj hpair).2, hlog, List.nil_append]

/-! ### All targets -/

/-- The declarations that are written for targets, one target after another. -/
def written (c : Catalogue) (o : Options) (root : Path) (t : FileTree) :
    List DeclId → List DeclId
  | [] => []
  | id :: rest =>
    c.granted o (FileTree.output root) ⟨t, NoteLog.empty⟩ (c.emissionOrder id) ++
      written c o root (translateOne c o root t id).1 rest

theorem written_sublist (c : Catalogue) (o : Options) (root : Path) (t : FileTree)
    (ids : List DeclId) : (written c o root t ids).Sublist (ids.flatMap c.emissionOrder) := by
  induction ids generalizing t with
  | nil => exact List.Sublist.slnil
  | cons id rest ih =>
    rw [written, List.flatMap_cons]
    exact (c.granted_sublist o _ _ _).append (ih _)

/-- The targets in front of the first failure are written in full, and theirs are the notes that
are collected. -/
theorem collect_translateAll (c : Catalogue) (o : Options) (root : Path) (t : FileTree)
    (ids : List DeclId) :
    ∃ front back rs, ids = front ++ back ∧
      (front.flatMap c.emissionOrder).mapM (c.render o) = .ok rs ∧
      written c o root t ids = front.flatMap c.emissionOrder ++
        written c o root (translateAll c o root t front).1 back ∧
      (collect (translateAll c o root t ids).2).2.1 = rs.flatMap Rendering.notes ∧
      ((back = [] ∧ (collect (translateAll c o root t ids).2).2.2 = none) ∨
        ∃ id rest e, back = id :: rest ∧
          (translateOne c o root (translateAll c o root t front).1 id).2 = .error e ∧
          (collect (translateAll c o root t ids).2).2.2 = some e) := by
  induction ids generalizing t with
  | nil => exact ⟨[], [], [], rfl, rfl, rfl, rfl, Or.inl ⟨rfl, rfl⟩⟩
  | cons id rest ih =>
    cases hone : translateOne c o root t id with
    | mk t' result =>
      cases result with
      | error e =>
        refine ⟨[], id :: rest, [], rfl, rfl, rfl, ?_, Or.inr ⟨id, rest, e, rfl, ?_, ?_⟩⟩
        · simp only [translateAll, hone, collect, List.flatMap_nil]
        · simp only [translateAll, hone]
        · simp only [translateAll, hone, collect]
      | ok produced =>
        obtain ⟨paths, notes⟩ := produced
        obtain ⟨hgranted, rs, hrs, hnotes⟩ := translateOne_eq_ok hone
        obtain ⟨front, back, more, hids, hmore, hwritten, hcollect, hend⟩ := ih t'
        refine ⟨id :: front, back, rs ++ more, by rw [hids, List.cons_append], ?_, ?_, ?_, ?_⟩
        · rw [List.flatMap_cons]
          exact Outcome.mapM_append_eq_ok.2 ⟨rs, more, hrs, hmore, rfl⟩
        · simp only [written, hgranted, hone, hwritten, translateAll, List.flatMap_cons,
            List.append_assoc]
        · simp only [translateAll, hone, collect, hnotes, hcollect, List.flatMap_append]
        · simpa only [translateAll, hone, collect] using hend

/-! ### The log -/

theorem exists_of_prepare {t : FileTree} {a : Arguments} {o : Options} {c : Catalogue}
    {ids : List DeclId} (h : prepare t a = .ok (o, c, ids)) :
    ∃ files, Catalogue.ofPackages files = .ok c ∧ c.expandTargets a.targets = .ok ids := by
  unfold prepare at h
  split at h
  · cases h
  · split at h
    · cases h
    · next c' hload =>
      split at h
      · cases h
      · next ids' htargets =>
        cases h
        obtain ⟨files, _, hfiles⟩ := Outcome.bind_eq_ok.1 hload
        exact ⟨files, hfiles, htargets⟩

theorem conclude_of_logged {t : FileTree} {results : List TargetResult}
    (h : ∀ path cause, (conclude root t results).2 ≠ .error (.writeLog path cause)) :
    (conclude root t results).1.contentAt
        ((conclude root t results).1.destination (root.push logName)) =
      some (Utf8.encode ((collect results).2.1.flatMap Text.line)) ∧
    ((collect results).2.2 = none → ∃ summary, (conclude root t results).2 = .ok summary) ∧
    ∀ e, (collect results).2.2 = some e →
      (conclude root t results).2 = .error (.emission e) := by
  rcases hcollect : collect results with ⟨paths, notes, failure⟩
  cases hwrite : t.writeFile (root.push logName) (Utf8.encode (notes.flatMap Text.line)) with
  | error cause =>
    have hrefused : (conclude root t results).2 = .error (.writeLog (root.push logName) cause) := by
      simp only [conclude, hcollect, hwrite]
    exact absurd hrefused (h _ _)
  | ok t' =>
    obtain ⟨hcurrent, hcontent⟩ := FileTree.writeFile_eq_ok hwrite
    have hplace : t'.destination (root.push logName) = t.destination (root.push logName) := by
      simp only [FileTree.destination, FileTree.origin, hcurrent]
    have hheld : t'.contentAt (t'.destination (root.push logName)) =
        some (Utf8.encode (notes.flatMap Text.line)) := by
      rw [hcontent, hplace, Function.update_self]
    cases failure with
    | none => simp [conclude, hcollect, hwrite, hheld]
    | some e => simp [conclude, hcollect, hwrite, hheld]

/-- A run that gets past its preparation and writes its log leaves the notes of the targets in front
of the first failing one there, a conversion line for each of their declarations among them. What
other targets wrote is no part of that: no declaration is written twice. -/
theorem log_records_up_to_first_failure {t t₁ : FileTree} {a : Arguments} {o : Options}
    {c : Catalogue} {ids : List DeclId} (hprepare : prepare t a = .ok (o, c, ids))
    (hmake : t.makeDirectories a.output = (t₁, .ok ()))
    (hlog : ∀ path cause, (run t a).2 ≠ .error (.writeLog path cause)) :
    ∃ front back rs, ids = front ++ back ∧
      ((back = [] ∧ ∃ summary, (run t a).2 = .ok summary) ∨
        ∃ id rest e, back = id :: rest ∧
          (translateOne c o a.output (translateAll c o a.output t₁ front).1 id).2 = .error e ∧
          (run t a).2 = .error (.emission e)) ∧
      (front.flatMap c.emissionOrder).mapM (c.render o) = .ok rs ∧
      (run t a).1.contentAt ((run t a).1.destination (a.output.push logName)) =
        some (Utf8.encode ((rs.flatMap Rendering.notes).flatMap Text.line)) ∧
      (∀ id ∈ front.flatMap c.emissionOrder,
        ∃ d, c.get? id = some d ∧ d.name.conversion ∈ rs.flatMap Rendering.notes) ∧
      written c o a.output t₁ ids = front.flatMap c.emissionOrder ++
        written c o a.output (translateAll c o a.output t₁ front).1 back ∧
      (written c o a.output t₁ ids).Nodup := by
  have hrun : run t a = conclude a.output (translateAll c o a.output t₁ ids).1
      (translateAll c o a.output t₁ ids).2 := by simp only [run, hprepare, hmake]
  rw [hrun] at hlog ⊢
  obtain ⟨files, hfiles, htargets⟩ := exists_of_prepare hprepare
  obtain ⟨front, back, rs, hids, hrs, hwritten, hnotes, hend⟩ :=
    collect_translateAll c o a.output t₁ ids
  obtain ⟨hheld, hnone, hsome⟩ := conclude_of_logged hlog
  rw [hnotes] at hheld
  refine ⟨front, back, rs, hids, ?_, hrs, hheld, ?_, hwritten, ?_⟩
  · rcases hend with ⟨hback, hfailure⟩ | ⟨id, rest, e, hback, hfails, hfailure⟩
    · exact Or.inl ⟨hback, hnone hfailure⟩
    · exact Or.inr ⟨id, rest, e, hback, hfails, hsome e hfailure⟩
  · intro id hid
    obtain ⟨r, hr, hrender⟩ := Outcome.exists_of_mem_of_mapM hrs hid
    obtain ⟨d, hd, hline⟩ := Catalogue.conversion_mem_notes hrender
    exact ⟨d, hd, List.mem_flatMap.2 ⟨r, hr, hline⟩⟩
  · have hnested := (Catalogue.renderable_ofPackages hfiles).nested
    have hnames := (Catalogue.built_ofPackages hfiles).1.distinctNames
    have honce := Catalogue.nodup_emission_of_expandTargets hnested hnames htargets
    exact (written_sublist c o a.output t₁ ids).nodup honce.2

/-! ### A file that cannot be written -/

/-- The text of a model's file. -/
def lampText : Text :=
  Text.ofString "[\"lamp@1.0\",[[\"interface\",\"ILamp\",null,null,[],[[\"struct\",\"Mode\"]]]," ++
    Text.ofString "[\"struct\",\"Info\"]]]"

def lampPlace (names : List String) : Place :=
  names.map Text.ofString

/-- The model's file, and a directory where the interface's file has to go. -/
def blockedTree : FileTree :=
  ⟨[(lampPlace ["lamp.json"], .file (Utf8.encode lampText)), (lampPlace ["out"], .directory),
    (lampPlace ["out", "lamp"], .directory),
    (lampPlace ["out", "lamp", "ILamp.aidl"], .directory)], []⟩

def blockedArguments : Arguments :=
  ⟨Text.ofString "out", [Text.ofString "lamp.json"], none, none, none, none, none,
    ["lamp@1.0::ILamp", "lamp@1.0::Info"].map Text.ofString⟩

def lampCatalogue : Catalogue :=
  let name (names : List String) : QualifiedName :=
    ⟨Text.ofString "lamp", ⟨1, 0⟩, names.map Text.ofString⟩
  ⟨[Catalogue.baseDeclaration,
    ⟨name ["ILamp"], none, .interface ⟨some Catalogue.base, []⟩, [2], none⟩,
    ⟨name ["ILamp", "Mode"], none, .compound ⟨.struct, []⟩, [], some 1⟩,
    ⟨name ["Info"], none, .compound ⟨.struct, []⟩, [], none⟩]⟩

theorem prepare_blocked :
    prepare blockedTree blockedArguments = .ok (Options.standard, lampCatalogue, [1, 3]) := by
  have hoptions : Options.resolve blockedTree blockedArguments = .ok Options.standard := by
    decide +kernel
  have hload : blockedTree.loadModels blockedArguments.models = .ok lampCatalogue := by
    decide +kernel
  have htargets : lampCatalogue.expandTargets blockedArguments.targets = .ok [1, 3] := by
    decide +kernel
  simp only [prepare, hoptions, hload, htargets]

theorem makeDirectories_blocked :
    blockedTree.makeDirectories blockedArguments.output = (blockedTree, .ok ()) := by decide +kernel

theorem run_blocked : run blockedTree blockedArguments =
    conclude blockedArguments.output
      (translateAll lampCatalogue Options.standard blockedArguments.output blockedTree [1, 3]).1
      (translateAll lampCatalogue Options.standard blockedArguments.output blockedTree [1, 3]).2 := by
  simp only [run, prepare_blocked, makeDirectories_blocked]

theorem error_blocked : (run blockedTree blockedArguments).2 =
    .error (.emission (.output ⟨Text.ofString "lamp", ⟨1, 0⟩, [Text.ofString "ILamp"]⟩
      (Text.ofString "lamp/ILamp.aidl") FileError.isADirectory.message)) := by
  rw [run_blocked]
  decide +kernel

theorem blocked_run_records_up_to_first_failure :
    prepare blockedTree blockedArguments = .ok (Options.standard, lampCatalogue, [1, 3]) ∧
      ∃ front back rs, [1, 3] = front ++ back ∧ back ≠ [] ∧
        (front.flatMap lampCatalogue.emissionOrder).mapM
          (lampCatalogue.render Options.standard) = .ok rs ∧
        (run blockedTree blockedArguments).1.contentAt
            ((run blockedTree blockedArguments).1.destination
              (blockedArguments.output.push logName)) =
          some (Utf8.encode ((rs.flatMap Rendering.notes).flatMap Text.line)) := by
  have hlog : ∀ path cause, (run blockedTree blockedArguments).2 ≠ .error (.writeLog path cause) := by
    intro path cause
    rw [error_blocked]
    simp
  obtain ⟨front, back, rs, hids, hend, hrs, hheld, -⟩ :=
    log_records_up_to_first_failure prepare_blocked makeDirectories_blocked hlog
  refine ⟨prepare_blocked, front, back, rs, hids, ?_, hrs, hheld⟩
  rcases hend with ⟨_, summary, hok⟩ | ⟨id, rest, e, hback, _⟩
  · rw [error_blocked] at hok
    cases hok
  · rw [hback]
    simp

def lampFile (name : String) : Text :=
  Text.ofString "// FIXME: license file if you have one\n\npackage lamp;\n\nparcelable " ++
    Text.ofString name ++ Text.ofString " \x7b\n\x7d\n"

/-- The interface's file is refused after the nested type's file was written and before the other
type's is. The log of that run is empty. -/
theorem blocked_run_loses_lines :
    prepare blockedTree blockedArguments = .ok (Options.standard, lampCatalogue, [1, 3]) ∧
      (∃ e, (run blockedTree blockedArguments).2 = .error (.emission e)) ∧
      written lampCatalogue Options.standard blockedArguments.output blockedTree [1, 3] = [2, 3] ∧
      (run blockedTree blockedArguments).1.contentAt
          (lampPlace ["out", "lamp", "ILampMode.aidl"]) =
        some (Utf8.encode (lampFile "ILampMode")) ∧
      (run blockedTree blockedArguments).1.contentAt (lampPlace ["out", "lamp", "Info.aidl"]) =
        some (Utf8.encode (lampFile "Info")) ∧
      (run blockedTree blockedArguments).1.contentAt (lampPlace ["out", "conversion.log"]) =
        some [] := by
  refine ⟨prepare_blocked, ⟨_, error_blocked⟩, by decide +kernel, ?_⟩
  rw [run_blocked]
  refine ⟨?_, ?_, ?_⟩ <;> decide +kernel

end Run

end FlatAidl
