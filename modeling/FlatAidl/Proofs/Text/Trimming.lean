import FlatAidl.Proofs.Text.Lines
import FlatAidl.Text.Blank
import Mathlib.Data.List.DropRight

/-!
Trimmed texts. Blanks go from the ends only, so the two sides are trimmed independently, and a text
whose last character is no blank keeps its end; words are such texts, and so is a line of them.
-/

namespace FlatAidl

namespace Text

theorem trimStart_eq_dropWhile (t : Text) : trimStart t = t.dropWhile isBlank := by
  induction t with
  | nil => rfl
  | cons c rest ih =>
    rw [trimStart, List.dropWhile_cons, ih]

theorem trimStart_suffix (t : Text) : trimStart t <:+ t := by
  rw [trimStart_eq_dropWhile]
  exact List.dropWhile_suffix isBlank

theorem trimEnd_concat (t : Text) (c : Char) :
    trimEnd (t ++ [c]) = if isBlank c then trimEnd t else t ++ [c] := by
  induction t with
  | nil =>
    rw [List.nil_append, trimEnd]
    simp [trimEnd]
  | cons x rest ih =>
    rw [List.cons_append, trimEnd, ih]
    by_cases hc : isBlank c = true
    · rw [if_pos hc, if_pos hc, trimEnd]
    · rw [if_neg hc, if_neg hc]
      cases rest <;> rfl

theorem trimEnd_eq_rdropWhile (t : Text) : trimEnd t = t.rdropWhile isBlank := by
  induction t using List.reverseRecOn with
  | nil => rfl
  | append_singleton t c ih => rw [trimEnd_concat, List.rdropWhile_concat, ih]

theorem trimEnd_trimEnd (t : Text) : trimEnd (trimEnd t) = trimEnd t := by
  simp only [trimEnd_eq_rdropWhile]
  exact List.rdropWhile_idempotent isBlank t

theorem prefix_trimEnd (t : Text) : trimEnd t <+: t := by
  rw [trimEnd_eq_rdropWhile]
  exact List.rdropWhile_prefix isBlank t

theorem trimEnd_cons_of_not_blank {c : Char} (h : isBlank c = false) (t : Text) :
    trimEnd (c :: t) = c :: trimEnd t := by
  rw [trimEnd]
  cases trimEnd t with
  | nil => simp [h]
  | cons d rest => rfl

theorem trimEnd_append {s t : Text} (h : trimEnd t = t) (hne : t ≠ []) :
    trimEnd (s ++ t) = s ++ t := by
  rw [trimEnd_eq_rdropWhile, List.rdropWhile_eq_self_iff] at h ⊢
  intro hall
  rw [List.getLast_append_of_right_ne_nil _ _ hne]
  exact h hne

theorem trimEnd_trimStart (t : Text) : trimEnd (trimStart t) = trimStart (trimEnd t) := by
  induction t with
  | nil => rfl
  | cons c rest ih =>
    by_cases hc : isBlank c = true
    · rw [trimStart, if_pos hc, ih, trimEnd]
      cases trimEnd rest with
      | nil => simp [hc, trimStart]
      | cons d more => simp [hc, trimStart]
    · have hfalse := Bool.eq_false_iff.2 hc
      rw [trimStart, if_neg hc, trimEnd_cons_of_not_blank hfalse, trimStart, if_neg hc]

theorem trim_surrounded {front back : Text} (hfront : ∀ c ∈ front, isBlank c = true)
    (hback : ∀ c ∈ back, isBlank c = true) (t : Text) : trim (front ++ t ++ back) = trim t := by
  have hstart : trimStart (front ++ (t ++ back)) = trimStart (t ++ back) := by
    rw [trimStart_eq_dropWhile, trimStart_eq_dropWhile, List.dropWhile_append_of_pos hfront]
  have hend : trimEnd (t ++ back) = trimEnd t := by
    rw [trimEnd_eq_rdropWhile, trimEnd_eq_rdropWhile, List.rdropWhile, List.rdropWhile,
      List.reverse_append, List.dropWhile_append_of_pos]
    simpa using hback
  rw [List.append_assoc, trim, hstart, trimEnd_trimStart, hend, trim, trimEnd_trimStart]

theorem exists_surrounded (t : Text) :
    ∃ front back, t = front ++ trim t ++ back ∧ (∀ c ∈ front, isBlank c = true) ∧
      ∀ c ∈ back, isBlank c = true := by
  refine ⟨t.takeWhile isBlank, (trimStart t).rtakeWhile isBlank, ?_, fun c hc => ?_, fun c hc => ?_⟩
  · rw [trim, trimEnd_eq_rdropWhile, List.append_assoc, List.rdropWhile_append_rtakeWhile,
      trimStart_eq_dropWhile, List.takeWhile_append_dropWhile]
  · exact List.mem_takeWhile_imp hc
  · exact List.mem_rtakeWhile_imp hc

theorem mem_words {t w : Text} (h : w ∈ words t) : w ≠ [] ∧ ∀ c ∈ w, isBlank c = false := by
  rw [words, List.mem_filter] at h
  refine ⟨?_, no_separator_of_mem_pieces h.1⟩
  intro hnil
  rw [hnil] at h
  cases h.2

theorem trimEnd_of_mem_words {t w : Text} (h : w ∈ words t) : trimEnd w = w := by
  rw [trimEnd_eq_rdropWhile, List.rdropWhile_eq_self_iff]
  intro hne
  rw [(mem_words h).2 _ (List.getLast_mem hne)]
  exact Bool.false_ne_true

theorem join_ne_nil {sep : Text} {ts : List Text} (hne : ts ≠ []) (h : ∀ t ∈ ts, t ≠ []) :
    join sep ts ≠ [] := by
  cases ts with
  | nil => exact absurd rfl hne
  | cons t rest =>
    have ht := h t (List.mem_cons_self ..)
    cases rest with
    | nil => exact ht
    | cons u more =>
      rw [join_cons (List.cons_ne_nil u more), List.append_assoc]
      exact List.append_ne_nil_of_left_ne_nil ht _

/-- Texts without blanks at their ends make a text without blanks at its end. -/
theorem trimEnd_join {sep : Text} {ts : List Text} (h : ∀ t ∈ ts, t ≠ [] ∧ trimEnd t = t) :
    trimEnd (join sep ts) = join sep ts := by
  induction ts with
  | nil => rfl
  | cons t rest ih =>
    cases rest with
    | nil => exact (h t (List.mem_cons_self ..)).2
    | cons u more =>
      have hmore : ∀ s ∈ u :: more, s ≠ [] ∧ trimEnd s = s := fun s hs =>
        h s (List.mem_cons_of_mem _ hs)
      have hne : u :: more ≠ [] := List.cons_ne_nil u more
      rw [join_cons hne]
      exact trimEnd_append (ih hmore) (join_ne_nil hne fun s hs => (hmore s hs).1)

end Text

end FlatAidl
