import Mathlib.Data.List.Induction
import Mathlib.Data.List.Nodup

/-!
Values of a list in the order of their first occurrence, as a list that grows at its end sees them.
-/

namespace FlatAidl

namespace Occurrence

variable {α : Type} [BEq α] [LawfulBEq α]

theorem eraseDups_concat (l : List α) (a : α) :
    (l ++ [a]).eraseDups = if a ∈ l then l.eraseDups else l.eraseDups ++ [a] := by
  rw [List.eraseDups_append]
  by_cases h : a ∈ l
  · have hnone : [a].removeAll l = [] := by simp [List.removeAll, h]
    rw [hnone, if_pos h]
    simp
  · have hone : [a].removeAll l = [a] := by simp [List.removeAll, h]
    rw [hone, if_neg h]
    rfl

/-- Behind other values only the new ones of a list are first occurrences. -/
theorem eraseDups_append_eq_filter (front l : List α) :
    (front ++ l).eraseDups =
      front.eraseDups ++ l.eraseDups.filter fun a => !front.contains a := by
  induction l using List.reverseRecOn with
  | nil => simp
  | append_singleton l a ih =>
    rw [← List.append_assoc, eraseDups_concat, ih, eraseDups_concat]
    by_cases hfront : a ∈ front
    · by_cases hl : a ∈ l
      · simp [hfront, hl]
      · simp [hfront, hl]
    · by_cases hl : a ∈ l
      · simp [hl]
      · simp [hfront, hl]

theorem nodup_eraseDups (l : List α) : l.eraseDups.Nodup := by
  induction l using List.reverseRecOn with
  | nil => exact List.nodup_nil
  | append_singleton l a ih =>
    rw [eraseDups_concat]
    by_cases h : a ∈ l
    · rw [if_pos h]
      exact ih
    · rw [if_neg h]
      refine List.nodup_append.2 ⟨ih, List.nodup_singleton a, ?_⟩
      rintro b hb _ hlast rfl
      rw [List.mem_singleton.1 hlast, List.mem_eraseDups] at hb
      exact h hb

end Occurrence

end FlatAidl
