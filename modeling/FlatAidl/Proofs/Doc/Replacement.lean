import FlatAidl.Proofs.Doc.Update
import FlatAidl.Proofs.Signature.Plan

/-!
The stages of an update. Every line of the comment is replaced by lines of its own: a description by
the words that the first record for its result asks for, any other line by itself. The empty lines at
the end go then, every line that is left is stripped once more, and what is empty at the start goes
too.
-/

namespace FlatAidl

namespace ResultChange

/-- The first record for a result says what became of it. -/
def FirstRecord (changes : List ResultChange) (name : Text) (fate : ResultFate) : Prop :=
  ∃ front back, changes = front ++ ⟨name, fate⟩ :: back ∧ ∀ change ∈ front, change.result ≠ name

theorem find?_eq_some_iff {changes : List ResultChange} {name : Text} {fate : ResultFate} :
    find? changes name = some fate ↔ FirstRecord changes name fate := by
  rw [find?, Option.map_eq_some_iff]
  constructor
  · rintro ⟨⟨result, fate'⟩, hfound, rfl⟩
    obtain ⟨hname, front, back, hsplit, hfront⟩ := List.find?_eq_some_iff_append.1 hfound
    obtain rfl : result = name := beq_iff_eq.1 hname
    refine ⟨front, back, hsplit, fun change hchange => ?_⟩
    simpa using hfront change hchange
  · intro h
    obtain ⟨front, back, hsplit, hfront⟩ := h
    refine ⟨⟨name, fate⟩, List.find?_eq_some_iff_append.2 ⟨beq_self_eq_true name, ?_⟩, rfl⟩
    refine ⟨front, back, hsplit, fun change hchange => ?_⟩
    simpa using hfront change hchange

end ResultChange

namespace DocComment

open Text ResultChange

variable {changes : List ResultChange}

/-- The lines that an update puts in the place of a line, before it strips them. -/
inductive Replaced (changes : List ResultChange) (line : Text) : List Text → Prop
  | kept (plain : ∀ name rest, words line ≠ returnTag :: name :: rest) :
      Replaced changes line [line]
  | returned {name : Text} {rest : List Text} (described : words line = returnTag :: name :: rest)
      (record : FirstRecord changes name .returned) :
      Replaced changes line [join [' '] (returnTag :: rest)]
  | dropped {name : Text} {rest : List Text} (described : words line = returnTag :: name :: rest)
      (record : FirstRecord changes name .dropped) :
      Replaced changes line [removalLine, join [' '] (returnTag :: name :: rest)]
  | out {name : Text} {rest : List Text} (described : words line = returnTag :: name :: rest)
      (record : name ∉ changes.map ResultChange.result) :
      Replaced changes line [join [' '] (outTag :: name :: rest)]

def replacement (changes : List ResultChange) (line : Text) : List Text :=
  match described? line with
  | some (name, rest) => resultLines (find? changes name) name rest
  | none => [line]

theorem replacement_of_described {line name : Text} {rest : List Text}
    (h : described? line = some (name, rest)) :
    replacement changes line = resultLines (find? changes name) name rest := by
  rw [replacement, h]

theorem replacement_of_plain {line : Text} (h : described? line = none) :
    replacement changes line = [line] := by
  rw [replacement, h]

theorem described?_eq_some_iff {line name : Text} {rest : List Text} :
    described? line = some (name, rest) ↔ words line = returnTag :: name :: rest := by
  constructor
  · exact words_of_described
  · intro h
    rw [described?, h]
    exact if_pos rfl

theorem described?_eq_none_iff {line : Text} :
    described? line = none ↔ ∀ name rest, words line ≠ returnTag :: name :: rest := by
  rw [Option.eq_none_iff_forall_ne_some]
  constructor
  · intro h name rest hwords
    exact h (name, rest) (described?_eq_some_iff.2 hwords)
  · intro h description hline
    exact h description.1 description.2 (described?_eq_some_iff.1 hline)

theorem replaced_iff {line : Text} {block : List Text} :
    Replaced changes line block ↔ block = replacement changes line := by
  constructor
  · intro h
    cases h with
    | kept plain => rw [replacement_of_plain (described?_eq_none_iff.2 plain)]
    | returned described record =>
      rw [replacement_of_described (described?_eq_some_iff.2 described),
        find?_eq_some_iff.2 record, resultLines]
    | dropped described record =>
      rw [replacement_of_described (described?_eq_some_iff.2 described),
        find?_eq_some_iff.2 record, resultLines]
    | out described record =>
      rw [replacement_of_described (described?_eq_some_iff.2 described),
        find?_eq_none_iff.2 record, resultLines]
  · rintro rfl
    cases hline : described? line with
    | none =>
      rw [replacement_of_plain hline]
      exact .kept (described?_eq_none_iff.1 hline)
    | some description =>
      obtain ⟨name, rest⟩ := description
      have hwords := words_of_described hline
      rw [replacement_of_described hline]
      cases hfate : find? changes name with
      | none => exact .out hwords (find?_eq_none_iff.1 hfate)
      | some fate =>
        have hrecord := find?_eq_some_iff.1 hfate
        cases fate with
        | returned => exact .returned hwords hrecord
        | dropped => exact .dropped hwords hrecord

/-! ### What is left of a replacement -/

/-- The lines that take a description's place can be put into a comment as they are. -/
theorem resultLines_kept {fate : Option ResultFate} {name : Text} {rest : List Text}
    (h : ∀ w ∈ name :: rest, LinePart w) :
    ∀ line ∈ resultLines fate name rest, LinePart line ∧ bareLine line = line := by
  have hrest : ∀ w ∈ rest, LinePart w := fun w hw => h w (List.mem_cons_of_mem name hw)
  match fate with
  | some .returned =>
    exact List.forall_mem_singleton.2
      (tagged_line (by decide) (by decide) linePart_returnTag hrest)
  | some .dropped =>
    have hremoval : LinePart removalLine ∧ bareLine removalLine = removalLine := by
      refine ⟨⟨?_, ?_, ?_⟩, ?_⟩ <;> decide
    exact List.forall_mem_cons.2 ⟨hremoval, List.forall_mem_singleton.2
      (tagged_line (by decide) (by decide) linePart_returnTag h)⟩
  | none =>
    exact List.forall_mem_singleton.2 (tagged_line (by decide) (by decide) linePart_outTag h)

theorem map_bareLine_replacement (line : Text) :
    (replacement changes line).map bareLine = renewed changes line := by
  cases hline : described? line with
  | none =>
    rw [replacement_of_plain hline, renewed_of_plain changes hline]
    rfl
  | some description =>
    obtain ⟨name, rest⟩ := description
    rw [replacement_of_described hline, renewed_of_described changes hline]
    have hkept : ∀ line ∈ resultLines (find? changes name) name rest,
        LinePart line ∧ bareLine line = line := resultLines_kept (linePart_of_described hline)
    exact (List.map_congr_left fun line hmem => (hkept line hmem).2).trans (List.map_id _)

theorem unbroken_replacement {line : Text} (h : '\n' ∉ line) :
    ∀ more ∈ replacement changes line, '\n' ∉ more := by
  cases hline : described? line with
  | none =>
    rw [replacement_of_plain hline]
    exact List.forall_mem_singleton.2 h
  | some description =>
    obtain ⟨name, rest⟩ := description
    rw [replacement_of_described hline]
    intro more hmore
    exact (resultLines_kept (linePart_of_described hline) more hmore).1.unbroken

/-- The last line of a replacement is empty only if the line itself was. -/
theorem exists_last_replacement (changes : List ResultChange) {line : Text} (h : line ≠ []) :
    ∃ front last, replacement changes line = front ++ [last] ∧ last ≠ [] := by
  cases hline : described? line with
  | none => exact ⟨[], line, replacement_of_plain hline, h⟩
  | some description =>
    obtain ⟨name, rest⟩ := description
    have hparts := linePart_of_described hline
    obtain ⟨first, more, hlines, _⟩ := resultLines_ne_nil (find? changes name) hparts
    have hne : resultLines (find? changes name) name rest ≠ [] := by
      rw [hlines]
      exact List.cons_ne_nil first more
    rw [replacement_of_described hline]
    exact ⟨_, _, (List.dropLast_concat_getLast hne).symm,
      (resultLines_kept hparts _ (List.getLast_mem hne)).1.nonempty⟩

theorem rdropWhile_flatMap_replacement (lines : List Text) :
    (lines.flatMap (replacement changes)).rdropWhile List.isEmpty =
      (lines.rdropWhile List.isEmpty).flatMap (replacement changes) := by
  refine rdropWhile_flatMap (fun line _ hempty => ?_) fun line _ hfull => ?_
  · obtain rfl : line = [] := List.isEmpty_iff.1 hempty
    exact List.forall_mem_singleton.2 rfl
  · have hne : line ≠ [] := by
      rintro rfl
      cases hfull
    obtain ⟨front, last, hlines, hlast⟩ := exists_last_replacement changes hne
    exact ⟨front, last, hlines, by simpa using hlast⟩

/-- The lines of an updated comment come from one replacement for each line, in the order of the
lines. None of them holds a line break, so no line is put together with its neighbour or split; only
the replacement for a dropped result has two lines. The empty lines at the end are left out first,
then each line is stripped once, and then the empty lines at the start are left out. -/
theorem update_lines_in_stages (t : Text) (l : Location) (changes : List ResultChange) :
    ∃ blocks, List.Forall₂ (Replaced changes) (read t l).lines blocks ∧
      (∀ block ∈ blocks, ∀ line ∈ block, '\n' ∉ line) ∧
      ((read t l).update changes).lines =
        ((blocks.flatten.rdropWhile List.isEmpty).map bareLine).dropWhile List.isEmpty := by
  have hclean : Clean (read t l).lines := readLines_clean t
  refine ⟨(read t l).lines.map (replacement changes), ?_, ?_, ?_⟩
  · rw [List.forall₂_map_right_iff, List.forall₂_same]
    exact fun line _ => replaced_iff.2 rfl
  · intro block hblock
    obtain ⟨line, hline, rfl⟩ := List.mem_map.1 hblock
    exact unbroken_replacement (hclean.unbroken line hline)
  · rw [update_lines hclean, ← List.flatMap_def, rdropWhile_flatMap_replacement, List.map_flatMap]
    congr 2
    funext line
    exact (map_bareLine_replacement line).symm

/-- A comment with a description of each kind and, at its end, a line that starts with two stars. -/
def readsComment : DocComment :=
  read (ofString "Reads.\n@return value the  total\n@return status why\n@return n more\n** kept")
    .unknown

/-- The result of one name is returned and that of another one dropped. -/
def readsChanges : List ResultChange :=
  [⟨ofString "value", .returned⟩, ⟨ofString "status", .dropped⟩]

theorem readsComment_update_in_stages :
    readsComment.lines = ["Reads.", "@return value the  total", "@return status why",
        "@return n more", "* kept"].map ofString ∧
      (readsComment.update readsChanges).lines = ["Reads.", "@return the total",
        "The following return was removed", "@return status why", "@param out n more",
        "kept"].map ofString ∧
      ∃ blocks, List.Forall₂ (Replaced readsChanges) readsComment.lines blocks ∧
        (readsComment.update readsChanges).lines =
          ((blocks.flatten.rdropWhile List.isEmpty).map bareLine).dropWhile List.isEmpty := by
  obtain ⟨blocks, hblocks, _, hlines⟩ := update_lines_in_stages
    (ofString "Reads.\n@return value the  total\n@return status why\n@return n more\n** kept")
    .unknown readsChanges
  exact ⟨by decide, by decide, blocks, hblocks, hlines⟩

end DocComment

end FlatAidl
