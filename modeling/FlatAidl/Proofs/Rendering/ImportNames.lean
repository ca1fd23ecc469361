import FlatAidl.Proofs.Occurrence
import FlatAidl.Rendering.Imports
import Mathlib.Data.List.Count
import Mathlib.Tactic.Tauto

/-!
The names that a file imports: those that are asked for, each at its first occurrence, without the
name that the file declares and that of the base interface.
-/

namespace FlatAidl

namespace Imports

/-- The statement that imports a name. -/
def line (name : Text) : Text :=
  Text.ofString "import " ++ name ++ [';']

/-- Names at their first occurrence, without the one that a file declares and the base interface. -/
def firstNames (own : Text) (names : List Text) : List Text :=
  names.eraseDups.filter fun name => decide (name ≠ own ∧ name ≠ baseName)

theorem mem_firstNames {own name : Text} {names : List Text} :
    name ∈ firstNames own names ↔ name ∈ names ∧ name ≠ own ∧ name ≠ baseName := by
  simp only [firstNames, List.mem_filter, List.mem_eraseDups, decide_eq_true_eq]

theorem nodup_firstNames (own : Text) (names : List Text) : (firstNames own names).Nodup :=
  (Occurrence.nodup_eraseDups names).filter _

theorem firstNames_concat (own : Text) (names : List Text) (name : Text) :
    firstNames own (names ++ [name]) =
      if name ∈ names ∨ name = own ∨ name = baseName then firstNames own names
      else firstNames own names ++ [name] := by
  simp only [firstNames]
  rw [Occurrence.eraseDups_concat]
  by_cases hmem : name ∈ names
  · rw [if_pos hmem, if_pos (Or.inl hmem)]
  · rw [if_neg hmem, List.filter_append]
    by_cases hknown : name = own ∨ name = baseName
    · have hnone : ¬ (name ≠ own ∧ name ≠ baseName) := by tauto
      rw [if_pos (Or.inr hknown)]
      simp [hnone]
    · have hsome : name ≠ own ∧ name ≠ baseName := by tauto
      have hnew : ¬ (name ∈ names ∨ name = own ∨ name = baseName) := by tauto
      rw [if_neg hnew]
      simp [hsome]

theorem contains_iff {i : Imports} {name : Text} : i.contains name = true ↔ name ∈ i.known :=
  List.contains_iff_mem

/-- What is known after some names, and what of it is imported. -/
theorem ofNames_spec (own : Text) (names : List Text) :
    (∀ name, (ofNames own names).contains name = true ↔
      name ∈ names ∨ name = own ∨ name = baseName) ∧
      (ofNames own names).names = firstNames own names := by
  induction names using List.reverseRecOn with
  | nil =>
    have hstart : ofNames own [] = empty.exclude own := rfl
    rw [hstart, exclude]
    by_cases hown : own = baseName
    · have hknown : empty.contains own = true := by simp [contains, empty, hown]
      rw [if_pos hknown]
      refine ⟨fun name => ?_, rfl⟩
      simp [contains, empty, hown]
    · have hnew : ¬ empty.contains own = true := by simp [contains, empty, hown]
      rw [if_neg hnew]
      refine ⟨fun name => ?_, rfl⟩
      simp [contains, empty, or_comm]
  | append_singleton names name ih =>
    obtain ⟨hknown, hnames⟩ := ih
    have hstep : ofNames own (names ++ [name]) = (ofNames own names).insert name := by
      rw [ofNames, List.foldl_concat]
      rfl
    rw [hstep, insert, firstNames_concat]
    by_cases hold : (ofNames own names).contains name = true
    · rw [if_pos hold, if_pos ((hknown name).1 hold)]
      refine ⟨fun other => ?_, hnames⟩
      rw [hknown, List.mem_append, List.mem_singleton]
      have hname := (hknown name).1 hold
      constructor
      · tauto
      · rintro ((hother | rfl) | hother)
        · exact Or.inl hother
        · exact hname
        · exact Or.inr hother
    · rw [if_neg hold, if_neg fun h => hold ((hknown name).2 h), hnames]
      refine ⟨fun other => ?_, rfl⟩
      rw [contains_iff, List.mem_append, ← contains_iff, hknown, List.mem_append]
      tauto

theorem statements_eq_ok {own : Text} {names lines : List Text}
    (h : (ofNames own names).statements = .ok lines) : lines = (firstNames own names).map line := by
  rw [statements] at h
  split at h
  · cases h
    rw [(ofNames_spec own names).2]
    rfl
  · cases h

theorem line_injective : Function.Injective line := by
  intro name other h
  simpa [line] using h

/-- A name that is asked for is imported once, or it is one that needs no import. -/
theorem known_of_mem {own name : Text} {names : List Text} (h : name ∈ names) :
    name = own ∨ name = baseName ∨ ((firstNames own names).map line).count (line name) = 1 := by
  by_cases hown : name = own
  · exact Or.inl hown
  by_cases hbase : name = baseName
  · exact Or.inr (Or.inl hbase)
  refine Or.inr (Or.inr ?_)
  rw [List.count_map_of_injective _ line line_injective]
  exact List.count_eq_one_of_mem (nodup_firstNames own names) (mem_firstNames.2 ⟨h, hown, hbase⟩)

end Imports

end FlatAidl
