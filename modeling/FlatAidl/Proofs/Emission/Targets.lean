import FlatAidl.Proofs.Catalogue.Forest
import FlatAidl.Proofs.Catalogue.Names
import FlatAidl.Proofs.Emission.Progress
import FlatAidl.Proofs.Occurrence
import FlatAidl.Proofs.Rendering.Faultless

/-!
Which declarations targets lead to. A target asks for declarations by a type's name or by a package;
what is nested in something else that is asked for is left to that. Main statement: the targets are
expanded to the outermost of all declarations that they ask for, in the order of the first mention,
and the emission of these emits what was asked for and all that is nested in it exactly once.
-/

namespace FlatAidl

namespace Catalogue

variable {c : Catalogue}

/-! ### What targets ask for -/

/-- Whether a target asks for a declaration: by its name, or by its package and version if it is
nested in nothing. The base interface belongs to no package in this sense. -/
def asksFor (c : Catalogue) (target : Text) (id : DeclId) : Bool :=
  match QualifiedName.read target with
  | .error _ => false
  | .ok name =>
    if name.isType then c.name? id == some name
    else id != base && (c.parent? id).isNone && (c.name? id).any (·.samePackage name)

/-- What targets ask for, target after target, and for one target in the order of the models. -/
def mentions (c : Catalogue) (targets : List Text) : List DeclId :=
  targets.flatMap fun target => c.ids.filter (c.asksFor target)

def Requested (c : Catalogue) (targets : List Text) (id : DeclId) : Prop :=
  ∃ target ∈ targets, c.asksFor target id = true

theorem lt_size_of_asksFor {target : Text} {id : DeclId} (h : c.asksFor target id = true) :
    id < c.size := by
  by_contra hid
  have hnone : c.name? id = none := by
    rw [name?, get?_eq_none (Nat.not_lt.1 hid)]
    rfl
  unfold asksFor at h
  cases hread : QualifiedName.read target with
  | error e => simp [hread] at h
  | ok name => simp [hread, hnone] at h

theorem mem_mentions {targets : List Text} {id : DeclId} :
    id ∈ c.mentions targets ↔ c.Requested targets id := by
  simp only [mentions, Requested, List.mem_flatMap, List.mem_filter, ids, List.mem_range]
  constructor
  · rintro ⟨target, htarget, _, hasks⟩
    exact ⟨target, htarget, hasks⟩
  · rintro ⟨target, htarget, hasks⟩
    exact ⟨target, htarget, lt_size_of_asksFor hasks, hasks⟩

theorem filter_name? (hc : DistinctNames c) {name : QualifiedName} {id : DeclId}
    (h : c.name? id = some name) : (c.ids.filter fun k => c.name? k == some name) = [id] := by
  have hsame : (c.ids.filter fun k => c.name? k == some name) = c.ids.filter (· == id) := by
    refine List.filter_congr fun k _ => ?_
    by_cases hk : k = id
    · simp [hk, h]
    · have hne : c.name? k ≠ some name := fun hk' => hk (hc k id name hk' h)
      simp [hk, hne]
  have hmem : id ∈ c.ids := List.mem_range.2 (lt_size_of_name? h)
  have hnodup : c.ids.Nodup := List.nodup_range
  rw [hsame, List.filter_beq, List.count_eq_one_of_mem hnodup hmem]
  rfl

theorem requested_eq_ok (hc : DistinctNames c) {target : Text} {found : List DeclId}
    (h : c.requested target = .ok found) : found = c.ids.filter (c.asksFor target) := by
  unfold requested at h
  unfold asksFor
  cases hread : QualifiedName.read target with
  | error e => simp [hread] at h
  | ok name =>
    simp only [hread] at h ⊢
    by_cases htype : name.isType = true
    · simp only [htype, if_true] at h ⊢
      cases hl : c.lookup name with
      | none => simp [hl] at h
      | some id =>
        simp only [hl] at h
        split at h
        · cases h
        · cases h
          exact (filter_name? hc (name?_of_lookup hl)).symm
    · simp only [htype, Bool.false_eq_true, if_false] at h ⊢
      have hpackage : c.ofPackage name = c.ids.filter fun id =>
          id != base && (c.parent? id).isNone && (c.name? id).any (·.samePackage name) := by
        rw [ofPackage, topLevel, List.filter_filter]
        exact List.filter_congr fun id _ => Bool.and_comm ..
      rw [← hpackage]
      split at h
      · cases h
      · cases h
        rfl

theorem foldl_addNew (l : List DeclId) : l.foldl addNew [] = l.eraseDups := by
  induction l using List.reverseRecOn with
  | nil => rfl
  | append_singleton l id ih =>
    rw [List.foldl_concat, ih, Occurrence.eraseDups_concat, addNew]
    simp only [List.contains_iff_mem, List.mem_eraseDups]

theorem requestedAll_eq_ok (hc : DistinctNames c) {targets : List Text} {found : List DeclId}
    (h : c.requestedAll targets = .ok found) : found = (c.mentions targets).eraseDups := by
  obtain ⟨lists, hlists, rfl⟩ := Outcome.map_eq_ok.1 h
  have hlist : lists = targets.map fun target => c.ids.filter (c.asksFor target) :=
    Outcome.eq_map_of_mapM hlists fun target _ found hfound => requested_eq_ok hc hfound
  rw [foldl_addNew, hlist, mentions, List.flatMap_def]

/-- The expanded targets are the outermost ones of all that is asked for. -/
theorem expandTargets_eq_ok (hn : Nested c) (hc : DistinctNames c) {targets : List Text}
    {roots : List DeclId} (h : c.expandTargets targets = .ok roots) :
    roots.Sublist (c.mentions targets).eraseDups ∧
      ∀ id, id ∈ roots ↔ c.Requested targets id ∧ ∀ outer, c.Requested targets outer →
        ¬ c.Inside outer id := by
  obtain ⟨found, hfound, rfl⟩ := Outcome.map_eq_ok.1 h
  rw [requestedAll_eq_ok hc hfound]
  refine ⟨List.filter_sublist, ?_⟩
  intro id
  rw [List.mem_filter, List.mem_eraseDups, mem_mentions]
  refine and_congr_right fun hid => ?_
  obtain ⟨target, _, hasks⟩ := hid
  rw [Bool.not_eq_true', ← Bool.not_eq_true, hn.isInside_iff _ (lt_size_of_asksFor hasks)]
  simp only [List.mem_eraseDups, mem_mentions, not_exists, not_and]

/-- Everything that is asked for, and all that is nested in it, stands below the outermost ones. -/
theorem mem_flatMap_emissionOrder (hn : Nested c) {P : DeclId → Prop} {roots : List DeclId}
    (hroots : ∀ id, id ∈ roots ↔ P id ∧ ∀ outer, P outer → ¬ c.Inside outer id)
    (hsize : 0 < c.size) (id : DeclId) :
    id ∈ roots.flatMap c.emissionOrder ↔ ∃ root, P root ∧ c.Within root id := by
  rw [List.mem_flatMap]
  constructor
  · rintro ⟨root, hroot, hid⟩
    exact ⟨root, ((hroots root).1 hroot).1, (hn.mem_emissionOrder hsize).1 hid⟩
  · rintro ⟨root, hroot, hid⟩
    obtain ⟨outer, houter, hwithin, hlast⟩ := hn.exists_outermost hroot
    exact ⟨outer, (hroots outer).2 ⟨houter, hlast⟩,
      (hn.mem_emissionOrder hsize).2 (hwithin.trans hid)⟩

theorem nodup_emission_of_expandTargets (hn : Nested c) (hc : DistinctNames c)
    {targets : List Text} {roots : List DeclId} (h : c.expandTargets targets = .ok roots) :
    roots.Nodup ∧ (roots.flatMap c.emissionOrder).Nodup := by
  obtain ⟨hsub, hroots⟩ := expandTargets_eq_ok hn hc h
  have hnodup : roots.Nodup := hsub.nodup (Occurrence.nodup_eraseDups _)
  have happart : ∀ a ∈ roots, ∀ b ∈ roots, ¬ c.Inside a b :=
    fun a ha b hb => ((hroots b).1 hb).2 a ((hroots a).1 ha).1
  exact ⟨hnodup, hn.nodup_flatMap_emissionOrder hnodup happart⟩

/-! ### Emission into a record -/

/-- An output that takes down every file in the order of writing. -/
def recording : Output (List (Path × Text)) where
  put files p t := (files ++ [(p, t)], none)

/-- Emits declarations one after another, each with everything nested in it. -/
def emitEach {σ : Type} (c : Catalogue) (o : Options) (out : Output σ) (p : Progress σ)
    (roots : List DeclId) : Progress σ :=
  roots.foldl (fun p root => (c.emit o out p root).1) p

/-- The files and notes of renderings, added to what is recorded already. -/
def recorded (files : List (Path × Text)) (lines : List Text) (rs : List Rendering) :
    Progress (List (Path × Text)) :=
  ⟨files ++ rs.map (fun r => (r.path, r.text)), ⟨lines ++ rs.flatMap Rendering.notes, none⟩⟩

theorem recording_refusesExactly : recording.RefusesExactly ∅ where
  refuses _ p _ hp := absurd hp (Set.notMem_empty p)
  takes _ _ _ _ := ⟨_, rfl⟩

theorem after_recording (files : List (Path × Text)) (lines : List Text) (rs : List Rendering) :
    Progress.after recording ⟨files, ⟨lines, none⟩⟩ rs = recorded files lines rs := by
  rw [Progress.after, NoteLog.extend_unlimited, recorded]
  congr 1
  induction rs generalizing files with
  | nil => exact (List.append_nil files).symm
  | cons r rest ih =>
    have hrest := ih (files ++ [(r.path, r.text)])
    rw [List.append_assoc, List.singleton_append] at hrest
    exact hrest

theorem emitList_recording {o : Options} {ids : List DeclId} {rs : List Rendering}
    (h : ids.mapM (c.render o) = .ok rs) (files : List (Path × Text)) (lines : List Text) :
    (c.emitList o recording ⟨files, ⟨lines, none⟩⟩ ids).1 = recorded files lines rs := by
  have hfree : Unrefused ∅ ⟨lines, none⟩ rs :=
    ⟨fun r _ => Set.notMem_empty r.path, NoteLog.takes_of_unlimited lines _⟩
  rw [emitList_of_unrefused recording_refusesExactly h hfree, after_recording]

theorem emitEach_recording {o : Options} {roots : List DeclId}
    (h : ∀ root ∈ roots, ∀ id ∈ c.emissionOrder root, ∃ r, c.render o id = .ok r)
    (files : List (Path × Text)) (lines : List Text) :
    ∃ rs, (roots.flatMap c.emissionOrder).mapM (c.render o) = .ok rs ∧
      c.emitEach o recording ⟨files, ⟨lines, none⟩⟩ roots = recorded files lines rs := by
  induction roots generalizing files lines with
  | nil => exact ⟨[], rfl, by simp [emitEach, recorded]⟩
  | cons root rest ih =>
    obtain ⟨rs, hrs⟩ := Outcome.mapM_ok (h root (List.mem_cons_self ..))
    obtain ⟨more, hmore, heach⟩ := ih (fun k hk => h k (List.mem_cons_of_mem _ hk))
      (files ++ rs.map fun r => (r.path, r.text)) (lines ++ rs.flatMap Rendering.notes)
    refine ⟨rs ++ more, ?_, ?_⟩
    · rw [List.flatMap_cons]
      exact Outcome.mapM_append_eq_ok.2 ⟨rs, more, hrs, hmore, rfl⟩
    · have hfirst := emitList_recording hrs files lines
      rw [emitEach, List.foldl_cons, emit, hfirst]
      rw [recorded, ← emitEach, heach]
      simp [recorded]

/-- The targets of a catalogue of package models are expanded to the declarations that are asked for
and stand inside no other one that is, each once and in the order of the first mention. The emission
of these, one after another, goes through each declaration that is asked for or nested in one that
is, and through each exactly once: its file and notes are recorded in that order. -/
theorem expandTargets_emit_once {files : List (Path × PackageModel)} (h : ofPackages files = .ok c)
    {targets : List Text} {roots : List DeclId} (htargets : c.expandTargets targets = .ok roots) :
    (roots.Sublist (c.mentions targets).eraseDups ∧ roots.Nodup ∧
      ∀ id, id ∈ roots ↔ c.Requested targets id ∧ ∀ outer, c.Requested targets outer →
        ¬ c.Inside outer id) ∧
      (roots.flatMap c.emissionOrder).Nodup ∧
      (∀ id, id ∈ roots.flatMap c.emissionOrder ↔
        ∃ root, c.Requested targets root ∧ c.Within root id) ∧
      ∀ o, ∃ rs, (roots.flatMap c.emissionOrder).mapM (c.render o) = .ok rs ∧
        c.emitEach o recording ⟨[], NoteLog.empty⟩ roots =
          ⟨rs.map fun r => (r.path, r.text), ⟨rs.flatMap Rendering.notes, none⟩⟩ := by
  have hr := renderable_ofPackages h
  have hbuilt := (built_ofPackages h).1
  have hsize : 0 < c.size :=
    Nat.zero_lt_of_lt (lt_size_of_isInterface hr.rooted.base_isInterface)
  obtain ⟨hsub, hroots⟩ := expandTargets_eq_ok hr.nested hbuilt.distinctNames htargets
  obtain ⟨hnodup, honce⟩ :=
    nodup_emission_of_expandTargets hr.nested hbuilt.distinctNames htargets
  refine ⟨⟨hsub, hnodup, hroots⟩, honce, mem_flatMap_emissionOrder hr.nested hroots hsize, ?_⟩
  intro o
  have hrender : ∀ root ∈ roots, ∀ id ∈ c.emissionOrder root, ∃ r, c.render o id = .ok r := by
    intro root hroot id hid
    obtain ⟨target, _, hasks⟩ := ((hroots root).1 hroot).1
    have hwithin := (hr.nested.mem_emissionOrder hsize).1 hid
    exact hr.exists_render o (hr.nested.within_lt_size (lt_size_of_asksFor hasks) hwithin)
  obtain ⟨rs, hrs, heach⟩ := emitEach_recording hrender [] []
  exact ⟨rs, hrs, heach⟩

/-- A structured type beside an interface in which two types stand one inside the other. -/
def cameraPackages : List (Path × PackageModel) :=
  let extra : DeclModel := .compound .union (Text.ofString "Extra") none [] []
  let config : DeclModel := .compound .struct (Text.ofString "Config") none [] [extra]
  [(Text.ofString "camera.json", ⟨Text.ofString "hw.camera@1.0",
    [.compound .struct (Text.ofString "Status") none [] [],
      .interface (Text.ofString "ICamera") none none [] [config]]⟩)]

/-- The innermost type first, then what is beside and around it, then the whole package. -/
def cameraTargets : List Text :=
  ["hw.camera@1.0::ICamera.Config.Extra", "hw.camera@1.0::Status", "hw.camera@1.0::ICamera",
    "hw.camera@1.0"].map Text.ofString

theorem cameraTargets_emit_once : ∃ c, ofPackages cameraPackages = .ok c ∧
    c.expandTargets cameraTargets = .ok [1, 2] ∧
      ([1, 2].flatMap c.emissionOrder).Nodup ∧
        ∀ id, id ∈ [1, 2].flatMap c.emissionOrder ↔
          ∃ root, c.Requested cameraTargets root ∧ c.Within root id := by
  have hroots : (ofPackages cameraPackages).toOption.bind
      (fun c => (c.expandTargets cameraTargets).toOption) = some [1, 2] := by decide +kernel
  cases hc : ofPackages cameraPackages with
  | error e =>
    rw [hc] at hroots
    cases hroots
  | ok c =>
    rw [hc] at hroots
    cases ht : c.expandTargets cameraTargets with
    | error e => simp [Except.toOption, ht] at hroots
    | ok roots =>
      have heq : roots = [1, 2] := by simpa [Except.toOption, ht] using hroots
      subst heq
      have honce := expandTargets_emit_once hc ht
      exact ⟨c, rfl, ht, honce.2.1, honce.2.2.1⟩

end Catalogue

end FlatAidl
