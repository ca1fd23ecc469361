import FlatAidl.FileTree.Writing
import FlatAidl.Proofs.Emission.Store
import FlatAidl.Proofs.Outcome

/-!
What writing a file below a directory does to the files of a tree. Making directories changes no
file, and a file that is written is the only one that changes. A path that can be followed leads
where its runs say, so the directory is a store.
-/

namespace FlatAidl

namespace FileTree

/-- The content of the file at a place. -/
def contentAt (t : FileTree) (p : Place) : Option Bytes :=
  match t.entry? p with
  | some (.file content) => some content
  | _ => none

/-- The place after one more run. -/
def walk (p : Place) (run : Text) : Place :=
  if run = [] || run = ['.'] then p
  else if run = ['.', '.'] then p.dropLast
  else p ++ [run]

/-- The place that the runs of a path lead to, if they can be followed. -/
def destination (t : FileTree) (p : Path) : Place :=
  (Text.split '/' p).foldl walk (t.origin p)

/-- Two trees with the same files, whatever their directories are. -/
structure SameFiles (t t' : FileTree) : Prop where
  current : t'.current = t.current
  contentAt : t'.contentAt = t.contentAt

namespace SameFiles

theorem refl (t : FileTree) : SameFiles t t :=
  ⟨rfl, rfl⟩

theorem trans {t₁ t₂ t₃ : FileTree} (h : SameFiles t₁ t₂) (h' : SameFiles t₂ t₃) :
    SameFiles t₁ t₃ :=
  ⟨h'.current.trans h.current, h'.contentAt.trans h.contentAt⟩

theorem destination {t t' : FileTree} (h : SameFiles t t') (p : Path) :
    t'.destination p = t.destination p := by
  rw [FileTree.destination, FileTree.destination, origin, origin, h.current]

end SameFiles

/-! ### Entries -/

theorem entry?_put {t : FileTree} {p : Place} (e : Entry) (hp : p ≠ []) (q : Place) :
    FileTree.entry? (t.put p e) q = if q = p then some e else t.entry? q := by
  by_cases hq : q = []
  · subst hq
    rw [ entry?, entry?, if_pos rfl, if_pos rfl, if_neg (Ne.symm hp)]
  rw [ entry?, entry?, if_neg hq, if_neg hq, put]
  split
  · next hany =>
    have hkeeps : ∀ old : Place × Entry, (if old.1 = p then (p, e) else old).1 = old.1 := by
      intro old
      split
      · next h => exact h.symm
      · rfl
    rw [List.find?_map]
    simp only [Function.comp_def, hkeeps]
    cases hfind : t.entries.find? fun old => decide (old.1 = q) with
    | none =>
      have hne : q ≠ p := by
        rintro rfl
        obtain ⟨old, hold, heq⟩ := List.any_eq_true.1 hany
        exact List.find?_eq_none.1 hfind old hold heq
      rw [if_neg hne]
      rfl
    | some old =>
      have hold : old.1 = q := by simpa using List.find?_some hfind
      by_cases hqp : q = p
      · simp [hold, hqp]
      · simp [hold, hqp]
  · next hany =>
    have hnew : ∀ old ∈ t.entries, old.1 ≠ p := by
      intro old hold heq
      exact hany (List.any_eq_true.2 ⟨old, hold, by simpa using heq⟩)
    rw [List.find?_append]
    by_cases hqp : q = p
    · subst hqp
      rw [List.find?_eq_none.2 fun old hold => by simpa using hnew old hold]
      simp
    · simp [hqp, Ne.symm hqp]

theorem put_file (t : FileTree) {p : Place} (content : Bytes) (hp : p ≠ []) :
    (t.put p (.file content)).contentAt = Function.update t.contentAt p (some content) := by
  funext q
  rw [contentAt, entry?_put _ hp]
  by_cases hq : q = p
  · rw [if_pos hq, hq, Function.update_self]
  · rw [if_neg hq, Function.update_of_ne hq, contentAt]

@[simp] theorem current_put (t : FileTree) (p : Place) (e : Entry) :
    (t.put p e).current = t.current := by
  unfold put
  split <;> rfl

theorem sameFiles_put_directory {t : FileTree} {p : Place} (h : t.entry? p = none) :
    SameFiles t (t.put p .directory) := by
  have hp : p ≠ [] := by
    rintro rfl
    cases h
  refine ⟨current_put t p .directory, ?_⟩
  funext q
  rw [contentAt, contentAt, entry?_put _ hp]
  by_cases hq : q = p
  · rw [if_pos hq, hq, h]
  · rw [if_neg hq]

/-! ### Paths -/

/-- A path that can be followed leads where its runs say. -/
theorem follow_eq_ok {t : FileTree} {p q : Place} {runs : List Text}
    (h : t.follow p runs = .ok q) : q = runs.foldl walk p := by
  induction runs generalizing p with
  | nil =>
    cases h
    rfl
  | cons run rest ih =>
    rw [follow] at h
    obtain ⟨_, _, h⟩ := Outcome.bind_eq_ok.1 h
    rw [List.foldl_cons, walk]
    split at h
    · next hstay =>
      rw [if_pos hstay]
      exact ih h
    · next hstay =>
      rw [if_neg hstay]
      split at h
      · next hup =>
        rw [if_pos hup]
        exact ih h
      · next hup =>
        rw [if_neg hup]
        obtain ⟨_, _, h⟩ := Outcome.bind_eq_ok.1 h
        exact ih h

theorem locate_eq_ok {t : FileTree} {p : Path} {q : Place} (h : t.locate p = .ok q) :
    q = t.destination p := by
  obtain ⟨_, _, h⟩ := Outcome.bind_eq_ok.1 h
  exact follow_eq_ok h

/-! ### Directories -/

theorem sameFiles_makeDirectory {t t' : FileTree} {p : Path} (h : t.makeDirectory p = .ok t') :
    SameFiles t t' := by
  obtain ⟨_, _, h⟩ := Outcome.bind_eq_ok.1 h
  split at h
  · cases h
  · obtain ⟨parent, _, h⟩ := Outcome.bind_eq_ok.1 h
    obtain ⟨_, _, h⟩ := Outcome.bind_eq_ok.1 h
    split at h
    · cases h
    · obtain ⟨_, _, h⟩ := Outcome.bind_eq_ok.1 h
      split at h
      · cases h
      · next hnone =>
        cases h
        exact sameFiles_put_directory hnone

theorem sameFiles_makeOrKeep {t t' : FileTree} {p : Path} (h : t.makeOrKeep p = .ok t') :
    SameFiles t t' := by
  unfold makeOrKeep at h
  split at h
  · next made hmade =>
    cases h
    exact sameFiles_makeDirectory hmade
  · split at h
    · cases h
      exact .refl t
    · cases h

theorem sameFiles_makeDirectoriesWithin (room : Nat) (t : FileTree) (p : Path) :
    SameFiles t (makeDirectoriesWithin room t p).1 := by
  induction room generalizing t p with
  | zero =>
    unfold makeDirectoriesWithin
    split
    · exact .refl t
    · split
      · next made hmade => exact sameFiles_makeDirectory hmade
      · exact .refl t
      · split <;> exact .refl t
  | succ room ih =>
    unfold makeDirectoriesWithin
    split
    · exact .refl t
    · split
      · next made hmade => exact sameFiles_makeDirectory hmade
      · cases hparent : p.parent? with
        | none => exact .refl t
        | some parent =>
          have hparents := ih t parent
          dsimp only
          split
          · next t₁ e hmade =>
            rw [hmade] at hparents
            exact hparents
          · next t₁ hmade =>
            rw [hmade] at hparents
            split
            · next made hlast => exact hparents.trans (sameFiles_makeOrKeep hlast)
            · exact hparents
      · split <;> exact .refl t

theorem sameFiles_makeDirectories (t : FileTree) (p : Path) :
    SameFiles t (t.makeDirectories p).1 :=
  sameFiles_makeDirectoriesWithin _ t p

/-! ### Files -/

theorem writeFile_eq_ok {t t' : FileTree} {p : Path} {content : Bytes}
    (h : t.writeFile p content = .ok t') :
    t'.current = t.current ∧
      t'.contentAt = Function.update t.contentAt (t.destination p) (some content) := by
  obtain ⟨place, hplace, h⟩ := Outcome.bind_eq_ok.1 h
  obtain ⟨_, _, h⟩ := Outcome.bind_eq_ok.1 h
  rw [← locate_eq_ok hplace]
  split at h
  · cases h
  · next hdirectory =>
    have hne : place ≠ [] := by
      rintro rfl
      exact hdirectory rfl
    cases h
    exact ⟨current_put t place _, put_file t content hne⟩

theorem exists_of_writeBelow {root : Path} {t t' : FileTree} {p : Path} {text : Text}
    (h : writeBelow root t p text = (t', .ok ())) :
    ∃ t₁, SameFiles t t₁ ∧ t₁.writeFile (root.push p) (Utf8.encode text) = .ok t' := by
  unfold writeBelow at h
  dsimp only at h
  cases hparent : Path.parent? (root.push p) with
  | none =>
    rw [hparent] at h
    dsimp only at h
    split at h
    · next t₂ hwrite =>
      cases h
      exact ⟨t, .refl t, hwrite⟩
    · cases h
  | some parent =>
    have hsame := sameFiles_makeDirectories t parent
    rw [hparent] at h
    dsimp only at h
    split at h
    · cases h
    · next t₁ hmade =>
      rw [hmade] at hsame
      split at h
      · next t₂ hwrite =>
        cases h
        exact ⟨t₁, hsame, hwrite⟩
      · cases h

theorem writeBelow_eq_ok {root : Path} {t t' : FileTree} {p : Path} {text : Text}
    (h : writeBelow root t p text = (t', .ok ())) :
    t'.current = t.current ∧
      t'.contentAt =
        Function.update t.contentAt (t.destination (root.push p)) (some (Utf8.encode text)) := by
  obtain ⟨t₁, hsame, hwrite⟩ := exists_of_writeBelow h
  obtain ⟨hcurrent, hcontent⟩ := writeFile_eq_ok hwrite
  rw [hsame.contentAt, hsame.destination] at hcontent
  exact ⟨hcurrent.trans hsame.current, hcontent⟩

/-- The directory at a path as a store: files are held by their places, as bytes. -/
def store (root : Path) : Store FileTree where
  toOutput := output root
  Key := Place
  Content := Bytes
  key t p := t.destination (root.push p)
  content := Utf8.encode
  held := contentAt
  key_put {s s' p t} h := by
    unfold output at h
    dsimp only at h
    split at h
    · next t₁ hwrite =>
      cases h
      funext q
      rw [destination, destination, origin, origin, (writeBelow_eq_ok hwrite).1]
    · cases h
  held_put {s s' p t} h := by
    unfold output at h
    dsimp only at h
    split at h
    · next t₁ hwrite =>
      cases h
      exact (writeBelow_eq_ok hwrite).2
    · cases h

end FileTree

end FlatAidl
