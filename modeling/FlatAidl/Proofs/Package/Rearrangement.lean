import FlatAidl.Proofs.Package.Relocation
import FlatAidl.Proofs.Rendering.Faultless
import FlatAidl.Proofs.Renumbering.Rendering

/-!
The order of files and of the models in each file. It decides the places of declarations and nothing
else: the same sets of models are accepted, and the declaration of each name is rendered to the same
file.
-/

namespace FlatAidl

/-- The same files in another order, the models of each file in another order as well. -/
def Rearranged (files files' : List (Path × PackageModel)) : Prop :=
  ∃ reordered, files.Perm reordered ∧ List.Forall₂ (fun file file' => file'.1 = file.1 ∧
    file'.2.package = file.2.package ∧ file.2.declarations.Perm file'.2.declarations)
      reordered files'

namespace Rearranged

variable {files files' : List (Path × PackageModel)}

theorem symm (h : Rearranged files files') : Rearranged files' files := by
  obtain ⟨reordered, hperm, hfiles⟩ := h
  obtain ⟨reordered', hfiles', hperm'⟩ := List.perm_comp_forall₂ hperm hfiles
  refine ⟨reordered', hperm'.symm, hfiles'.flip.imp ?_⟩
  rintro file' file ⟨hpath, hpackage, hmodels⟩
  exact ⟨hpath.symm, hpackage.symm, hmodels.symm⟩

theorem packages_perm (h : Rearranged files files') :
    (files.map fun file => file.2.package).Perm (files'.map fun file => file.2.package) := by
  obtain ⟨reordered, hperm, hfiles⟩ := h
  have hsame : reordered.map (fun file => file.2.package) =
      files'.map fun file => file.2.package := by
    rw [← List.forall₂_eq_eq_eq, List.forall₂_map_left_iff, List.forall₂_map_right_iff]
    exact hfiles.imp fun _ _ hfile => hfile.2.1.symm
  rw [← hsame]
  exact hperm.map _

theorem tops_perm (h : Rearranged files files') :
    (Assembly.tops files).Perm (Assembly.tops files') := by
  obtain ⟨reordered, hperm, hfiles⟩ := h
  refine (hperm.flatMap_right _).trans ?_
  refine List.Perm.flatten_congr ?_
  rw [List.forall₂_map_left_iff, List.forall₂_map_right_iff]
  refine hfiles.imp ?_
  rintro file file' ⟨hpath, hpackage, hmodels⟩
  rw [hpath, hpackage]
  exact hmodels.map _

end Rearranged

namespace Assembly

variable {files files' : List (Path × PackageModel)} {hs hs' : List Heading} {a a' : Assembly}

/-! ### Declaring -/

/-- Two lists of headings with the same declarations in another order, where what is directly inside
each declaration keeps its order. -/
structure Reordered (hs hs' : List Heading) : Prop where
  perm : hs.Perm hs'
  inside : ∀ n, inside hs n = inside hs' n

theorem Reordered.symm (h : Reordered hs hs') : Reordered hs' hs :=
  ⟨h.perm.symm, fun n => (h.inside n).symm⟩

theorem exists_headings {declared : Assembly}
    (hdeclared : files.foldlM declarePackage empty = .ok declared) :
    ∃ blocks, (tops files).mapM block = .ok blocks ∧ (∀ hs ∈ blocks, ParentsFirst [] hs) ∧
      Placeable blocks.flatten ∧ Outlined blocks.flatten declared := by
  obtain ⟨_, blocks, hblocks, hplace⟩ := foldlM_declarePackage_eq_ok_iff.1 hdeclared
  have hparents : ∀ hs ∈ blocks, ParentsFirst [] hs := by
    intro hs hmem
    obtain ⟨top, _, htop⟩ := Outcome.exists_of_mem_mapM hblocks hmem
    exact parentsFirst_block htop
  exact ⟨blocks, hblocks, hparents, outlined_of_foldlM_place (parentsFirst_flatten hparents) hplace⟩

theorem exists_declared_of_rearranged (h : Rearranged files files') {declared : Assembly}
    (hdeclared : files.foldlM declarePackage empty = .ok declared) :
    ∃ hs hs' declared', files'.foldlM declarePackage empty = .ok declared' ∧ Reordered hs hs' ∧
      Outlined hs declared ∧ Outlined hs' declared' := by
  obtain ⟨hread, _⟩ := foldlM_declarePackage_eq_ok_iff.1 hdeclared
  obtain ⟨blocks, hblocks, hparents, hplaceable, ho⟩ := exists_headings hdeclared
  obtain ⟨blocks', hblocks', hperm⟩ := Outcome.mapM_perm h.tops_perm hblocks
  have hread' : ∀ file ∈ files', ∃ package, QualifiedName.read file.2.package = .ok package := by
    intro file' hfile'
    obtain ⟨file, hfile, hsame⟩ :=
      List.mem_map.1 (h.packages_perm.mem_iff.2 (List.mem_map_of_mem hfile'))
    rw [← hsame]
    exact hread file hfile
  have hparents' : ∀ hs ∈ blocks', ParentsFirst [] hs :=
    fun hs hmem => hparents hs (hperm.mem_iff.2 hmem)
  have hplaceable' := hplaceable.perm hperm.flatten
  obtain ⟨declared', hplace'⟩ := exists_foldlM_place (parentsFirst_flatten hparents') hplaceable'
  have hinside := inside_flatten_of_nodup hperm hparents (List.nodup_cons.1 hplaceable.nodup).2
  exact ⟨_, _, declared', foldlM_declarePackage_eq_ok_iff.2 ⟨hread', blocks', hblocks', hplace'⟩,
    ⟨hperm.flatten, hinside⟩, ho,
    (outlined_of_foldlM_place (parentsFirst_flatten hparents') hplace').2⟩

/-! ### Defining -/

section

variable (hr : Reordered hs hs') (ho : Outlined hs a) (ho' : Outlined hs' a')
include hr ho ho'

theorem exists_pending_of_reordered {p' : PendingModel} (hp' : p' ∈ a'.pending) :
    ∃ p ∈ a.pending, p' = { p with id := relocate a.catalogue a'.catalogue p.id } := by
  rw [ho'.pending] at hp'
  obtain ⟨h, hh, hid', hp'⟩ := mem_pendingOf.1 hp'
  have hmem := hr.perm.mem_iff.2 hh
  obtain ⟨id, hid⟩ := ho.exists_lookup (List.mem_map_of_mem hmem)
  rw [lookup_relocate ho ho' hr.perm, hid, Option.map_some] at hid'
  refine ⟨⟨id, h.path, h.model⟩, ?_, ?_⟩
  · rw [ho.pending]
    exact mem_pendingOf.2 ⟨h, hmem, hid, rfl⟩
  · rw [hp', ← Option.some.inj hid']

theorem pending_of_reordered {p : PendingModel} (hp : p ∈ a.pending) :
    { p with id := relocate a.catalogue a'.catalogue p.id } ∈ a'.pending := by
  rw [ho.pending] at hp
  obtain ⟨h, hh, hid, hp⟩ := mem_pendingOf.1 hp
  rw [ho'.pending]
  refine mem_pendingOf.2 ⟨h, hr.perm.mem_iff.1 hh, ?_, ?_⟩
  · rw [lookup_relocate ho ho' hr.perm, hid]
    rfl
  · rw [hp]

theorem relocate_mem_pending {id : DeclId} (hid : id < a.catalogue.size)
    (h : relocate a.catalogue a'.catalogue id ∈ a'.pending.map PendingModel.id) :
    id ∈ a.pending.map PendingModel.id := by
  obtain ⟨p', hp', heq⟩ := List.mem_map.1 h
  obtain ⟨p, hp, rfl⟩ := exists_pending_of_reordered hr ho ho' hp'
  obtain ⟨d, hd, _⟩ := ho.awaits.declared p hp
  have hren := renumbering_relocate ho ho' hr.perm hr.inside
  have hsame := hren.injective p.id id (Catalogue.lt_size_of_get? hd) hid heq
  exact hsame ▸ List.mem_map_of_mem hp

open Catalogue

variable {defined defined' : Catalogue}
  (hdefined : a.pending.foldlM define a.catalogue = .ok defined)
include hdefined

theorem fills_of_reordered {p : PendingModel} (hp : p ∈ a.pending) :
    ∃ d e, a'.catalogue.get? (relocate a.catalogue a'.catalogue p.id) = some d ∧
      defined.get? p.id = some e ∧
        a'.catalogue.Fills { p with id := relocate a.catalogue a'.catalogue p.id } d
          (e.renumber (relocate a.catalogue a'.catalogue)) := by
  have hren := renumbering_relocate ho ho' hr.perm hr.inside
  have hlookup := lookup_relocate ho ho' hr.perm
  obtain ⟨_, _, hfilled⟩ := fills_of_foldlM_define ho.awaits hdefined
  obtain ⟨d, e, hd, hfills, he⟩ := hfilled p hp
  exact ⟨_, e, hren.get _ d hd, he, hfills.renumber hren hlookup (lt_size_of_get? hd)⟩

theorem exists_defined_of_reordered :
    ∃ defined', a'.pending.foldlM define a'.catalogue = .ok defined' := by
  refine exists_foldlM_define ho'.awaits ?_
  intro p' hp'
  obtain ⟨p, hp, rfl⟩ := exists_pending_of_reordered hr ho ho' hp'
  obtain ⟨d, _, hd, _, hfills⟩ := fills_of_reordered hr ho ho' hdefined hp
  exact ⟨d, _, hd, hfills⟩

/-- Declared models that were reordered get the same members at their other places. -/
theorem renumbering_of_reordered
    (hdefined' : a'.pending.foldlM define a'.catalogue = .ok defined') :
    Renumbering (relocate a.catalogue a'.catalogue) defined defined' := by
  have hren := renumbering_relocate ho ho' hr.perm hr.inside
  obtain ⟨hsize, hother, _⟩ := fills_of_foldlM_define ho.awaits hdefined
  obtain ⟨hsize', hother', hfilled'⟩ := fills_of_foldlM_define ho'.awaits hdefined'
  refine ⟨?_, hren.base, ?_, ?_⟩
  · rw [hsize, hsize', hren.size]
  · intro id e he
    by_cases hid : id ∈ a.pending.map PendingModel.id
    · -- Both catalogues were filled in here, and there is one way to do it.
      obtain ⟨p, hp, rfl⟩ := List.mem_map.1 hid
      obtain ⟨d, e', hd, he', hfills⟩ := fills_of_reordered hr ho ho' hdefined hp
      rw [he] at he'
      cases he'
      obtain ⟨d', filled, hd', hfills', hget⟩ := hfilled' _ (pending_of_reordered hr ho ho' hp)
      rw [hd] at hd'
      cases hd'
      rw [hget, hfills'.unique hfills]
    · rw [hother id hid] at he
      have hid' : relocate a.catalogue a'.catalogue id ∉ a'.pending.map PendingModel.id :=
        fun hmem => hid (relocate_mem_pending hr ho ho' (lt_size_of_get? he) hmem)
      rw [hother' _ hid']
      exact hren.get id e he
  · intro i j hi hj
    rw [hsize] at hi hj
    exact hren.injective i j hi hj

end

end Assembly

namespace Catalogue

variable {files files' : List (Path × PackageModel)} {c c' : Catalogue}

theorem exists_ofPackages_of_rearranged (h : Rearranged files files')
    (hc : ofPackages files = .ok c) :
    ∃ c' π, ofPackages files' = .ok c' ∧ Renumbering π c c' := by
  obtain ⟨declared, hdeclared, hdefined, hacyclic⟩ := ofPackages_eq_ok_iff.1 hc
  obtain ⟨hs, hs', declared', hdeclared', hr, ho, ho'⟩ :=
    Assembly.exists_declared_of_rearranged h hdeclared
  obtain ⟨c', hdefined'⟩ := Assembly.exists_defined_of_reordered hr ho ho' hdefined
  have hren := Assembly.renumbering_of_reordered hr ho ho' hdefined hdefined'
  have hback := Assembly.renumbering_of_reordered hr.symm ho' ho hdefined' hdefined
  refine ⟨c', _, ofPackages_eq_ok_iff.2 ⟨declared', hdeclared', hdefined', ?_⟩, hren⟩
  intro id hid
  exact hacyclic _ (hback.inheritsFrom hid)

theorem renumbering_of_rearranged (h : Rearranged files files') (hc : ofPackages files = .ok c)
    (hc' : ofPackages files' = .ok c') : ∃ π, Renumbering π c c' := by
  obtain ⟨moved, π, hmoved, hren⟩ := exists_ofPackages_of_rearranged h hc
  rw [hc'] at hmoved
  cases hmoved
  exact ⟨π, hren⟩

/-- Files in another order, with the models of each in another order, are accepted exactly if the
files are. They then declare the same names, and the declaration of each name has the same rendering
(path, text and notes) under all options. -/
theorem ofPackages_rearranged (h : Rearranged files files') :
    ((∃ c, ofPackages files = .ok c) ↔ ∃ c', ofPackages files' = .ok c') ∧
      ∀ c c', ofPackages files = .ok c → ofPackages files' = .ok c' →
        (∀ n, (∃ id, c.name? id = some n) ↔ ∃ id', c'.name? id' = some n) ∧
          ∀ n id id', c.name? id = some n → c'.name? id' = some n →
            ∀ o, ∃ r, c.render o id = .ok r ∧ c'.render o id' = .ok r := by
  refine ⟨⟨?_, ?_⟩, ?_⟩
  · rintro ⟨c, hc⟩
    obtain ⟨c', _, hc', _⟩ := exists_ofPackages_of_rearranged h hc
    exact ⟨c', hc'⟩
  · rintro ⟨c', hc'⟩
    obtain ⟨c, _, hc, _⟩ := exists_ofPackages_of_rearranged h.symm hc'
    exact ⟨c, hc⟩
  intro c c' hc hc'
  obtain ⟨π, hren⟩ := renumbering_of_rearranged h hc hc'
  obtain ⟨π', hren'⟩ := renumbering_of_rearranged h.symm hc' hc
  refine ⟨fun n => ⟨?_, ?_⟩, ?_⟩
  · rintro ⟨id, hid⟩
    exact ⟨π id, hren.name? hid⟩
  · rintro ⟨id', hid'⟩
    exact ⟨π' id', hren'.name? hid'⟩
  · intro n id id' hid hid' o
    have hplace : id' = π id := (built_ofPackages hc').1.distinctNames _ _ n hid' (hren.name? hid)
    obtain ⟨r, hr⟩ := (renderable_ofPackages hc).exists_render o (lt_size_of_name? hid)
    rw [hplace]
    exact ⟨r, hr, hren.render hr⟩

/-- Two versions of a package: in the first one an interface uses a type that comes after it, the
second one inherits from the first. -/
def deviceFiles : List (Path × PackageModel) :=
  let interface := Text.ofString "IDevice"
  let states : ParamModel := ⟨Text.ofString "states", Text.ofString "vec<State>"⟩
  [(Text.ofString "old.json", ⟨Text.ofString "hw.device@1.0",
      [.interface interface none none [⟨Text.ofString "read", [], [states], false, none⟩] [],
        .compound .struct (Text.ofString "State") none [] []]⟩),
    (Text.ofString "new.json", ⟨Text.ofString "hw.device@1.1",
      [.interface interface (some (Text.ofString "hw.device@1.0::IDevice")) none [] []]⟩)]

/-- The files of both versions the other way round, and the models of the first one as well. -/
def deviceFilesReversed : List (Path × PackageModel) :=
  deviceFiles.reverse.map fun file => (file.1, ⟨file.2.package, file.2.declarations.reverse⟩)

theorem rearranged_deviceFiles : Rearranged deviceFiles deviceFilesReversed := by
  refine ⟨deviceFiles.reverse, deviceFiles.reverse_perm.symm, ?_⟩
  rw [deviceFilesReversed, List.forall₂_map_right_iff, List.forall₂_same]
  exact fun file _ => ⟨rfl, rfl, file.2.declarations.reverse_perm.symm⟩

theorem deviceFiles_reversed_render_alike : ∃ c c', ofPackages deviceFiles = .ok c ∧
    ofPackages deviceFilesReversed = .ok c' ∧ c.name? 3 = c'.name? 1 ∧
      ∀ o, ∃ r, c.render o 3 = .ok r ∧ c'.render o 1 = .ok r := by
  let latest : QualifiedName := ⟨Text.ofString "hw.device", ⟨1, 1⟩, [Text.ofString "IDevice"]⟩
  have hname : (ofPackages deviceFiles).toOption.bind (fun c => c.name? 3) = some latest := by
    decide +kernel
  obtain ⟨_, hall⟩ := ofPackages_rearranged rearranged_deviceFiles
  cases hc : ofPackages deviceFiles with
  | error e =>
    rw [hc] at hname
    cases hname
  | ok c =>
    have hname' : (ofPackages deviceFilesReversed).toOption.bind (fun c => c.name? 1) =
        some latest := by decide +kernel
    cases hc' : ofPackages deviceFilesReversed with
    | error e =>
      rw [hc'] at hname'
      cases hname'
    | ok c' =>
      rw [hc] at hname
      rw [hc'] at hname'
      exact ⟨c, c', rfl, rfl, hname.trans hname'.symm,
        (hall c c' hc hc').2 latest 3 1 hname hname'⟩

end Catalogue

end FlatAidl
