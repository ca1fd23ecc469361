import FlatAidl.Text.Basic
import Mathlib.Data.List.Basic

/-!
Cutting a text at its separators and putting the pieces together again. A piece holds no separator,
and texts put together with a separator fall apart into the pieces of each of them.
-/

namespace FlatAidl

namespace Text

theorem pieces_eq_splitOnP (sep : Char → Bool) (t : Text) : pieces sep t = t.splitOnP sep := by
  induction t with
  | nil => rw [List.splitOnP_nil, pieces]
  | cons x rest ih =>
    rw [List.splitOnP_cons_eq_if_modifyHead, pieces, ih]
    by_cases hx : sep x = true
    · rw [if_pos hx, if_pos hx]
    · rw [if_neg hx, if_neg hx]
      cases h : rest.splitOnP sep with
      | nil => exact absurd h (List.splitOnP_ne_nil sep rest)
      | cons run runs => rfl

theorem pieces_ne_nil (sep : Char → Bool) (t : Text) : pieces sep t ≠ [] := by
  rw [pieces_eq_splitOnP]
  exact List.splitOnP_ne_nil sep t

theorem pieces_append_cons {sep : Char → Bool} {x : Char} (hx : sep x = true) (s t : Text) :
    pieces sep (s ++ x :: t) = pieces sep s ++ pieces sep t := by
  simp only [pieces_eq_splitOnP]
  exact List.splitOnP_append_cons s t hx

theorem pieces_of_no_separator {sep : Char → Bool} {t : Text} (h : ∀ c ∈ t, sep c = false) :
    pieces sep t = [t] := by
  rw [pieces_eq_splitOnP]
  exact List.splitOnP_eq_singleton h

theorem no_separator_of_mem_pieces {sep : Char → Bool} {t run : Text} (h : run ∈ pieces sep t) :
    ∀ c ∈ run, sep c = false := by
  induction t generalizing run with
  | nil =>
    rw [pieces, List.mem_singleton] at h
    rw [h]
    exact fun c hc => absurd hc List.not_mem_nil
  | cons x rest ih =>
    cases hrest : pieces sep rest with
    | nil => exact absurd hrest (pieces_ne_nil sep rest)
    | cons first runs =>
      rw [hrest] at ih
      simp only [pieces, hrest] at h
      by_cases hx : sep x = true
      · rw [if_pos hx] at h
        rcases List.mem_cons.1 h with rfl | h
        · exact fun c hc => absurd hc List.not_mem_nil
        · exact ih h
      · rw [if_neg hx] at h
        rcases List.mem_cons.1 h with rfl | h
        · intro c hc
          rcases List.mem_cons.1 hc with rfl | hc
          · exact Bool.eq_false_iff.2 hx
          · exact ih (List.mem_cons_self ..) c hc
        · exact ih (List.mem_cons_of_mem _ h)

/-- A character that separates nothing goes to the end of the last piece. -/
theorem exists_pieces_concat (sep : Char → Bool) {x : Char} (hx : sep x = false) (t : Text) :
    ∃ front last, pieces sep t = front ++ [last] ∧ pieces sep (t ++ [x]) = front ++ [last ++ [x]] := by
  induction t with
  | nil => exact ⟨[], [], rfl, by simp [pieces, hx]⟩
  | cons y rest ih =>
    obtain ⟨front, last, hrest, hmore⟩ := ih
    by_cases hy : sep y = true
    · refine ⟨[] :: front, last, ?_, ?_⟩
      · rw [pieces, if_pos hy, hrest, List.cons_append]
      · rw [List.cons_append, pieces, if_pos hy, hmore, List.cons_append]
    · cases front with
      | nil =>
        refine ⟨[], y :: last, ?_, ?_⟩
        · rw [pieces, if_neg hy, hrest]
          rfl
        · rw [List.cons_append, pieces, if_neg hy, hmore]
          rfl
      | cons run runs =>
        refine ⟨(y :: run) :: runs, last, ?_, ?_⟩
        · rw [pieces, if_neg hy, hrest]
          rfl
        · rw [List.cons_append, pieces, if_neg hy, hmore]
          rfl

theorem split_of_not_mem {c : Char} {t : Text} (h : c ∉ t) : split c t = [t] := by
  refine pieces_of_no_separator fun x hx => ?_
  rw [beq_eq_false_iff_ne]
  exact fun heq => h (heq ▸ hx)

theorem not_mem_of_mem_split {c : Char} {t run : Text} (h : run ∈ split c t) : c ∉ run := by
  intro hc
  have hsep := no_separator_of_mem_pieces h c hc
  simp at hsep

theorem split_append_cons (c : Char) (s t : Text) :
    split c (s ++ c :: t) = split c s ++ split c t := by
  rw [split, pieces_append_cons]
  exact beq_self_eq_true c

/-- What is put in front of a text without a separator goes to the front of the first piece. -/
theorem split_append_of_not_mem {c : Char} {s t first : Text} {more : List Text} (h : c ∉ s)
    (ht : split c t = first :: more) : split c (s ++ t) = (s ++ first) :: more := by
  induction s with
  | nil => exact ht
  | cons x s ih =>
    rw [List.mem_cons, not_or] at h
    have hx : ¬ (x == c) = true := by simpa using Ne.symm h.1
    have hrest : pieces (· == c) (s ++ t) = (s ++ first) :: more := ih h.2
    rw [split, List.cons_append, pieces, if_neg hx, hrest]
    rfl

theorem join_cons {sep t : Text} {ts : List Text} (h : ts ≠ []) :
    join sep (t :: ts) = t ++ sep ++ join sep ts := by
  cases ts with
  | nil => exact absurd rfl h
  | cons u rest => rfl

theorem join_append (sep : Text) {front back : List Text} (hfront : front ≠ [])
    (hback : back ≠ []) :
    join sep (front ++ back) = join sep front ++ (sep ++ join sep back) := by
  induction front with
  | nil => exact absurd rfl hfront
  | cons t rest ih =>
    cases rest with
    | nil => rw [List.singleton_append, join_cons hback, join, List.append_assoc]
    | cons u more =>
      have hne : u :: more ≠ [] := List.cons_ne_nil u more
      rw [List.cons_append, join_cons (by simp), ih hne, join_cons hne]
      simp only [List.append_assoc]

/-- What is put together with a separator falls apart into the pieces of each text. -/
theorem split_join (c : Char) {ts : List Text} (h : ts ≠ []) :
    split c (join [c] ts) = ts.flatMap (split c) := by
  induction ts with
  | nil => exact absurd rfl h
  | cons t rest ih =>
    cases rest with
    | nil => simp [join]
    | cons u more =>
      have hne : u :: more ≠ [] := List.cons_ne_nil u more
      rw [join_cons hne, List.append_assoc, List.singleton_append, split_append_cons, ih hne]
      rfl

theorem mem_join {sep : Text} {ts : List Text} {x : Char} (h : x ∈ join sep ts) :
    x ∈ sep ∨ ∃ t ∈ ts, x ∈ t := by
  induction ts with
  | nil => exact absurd h List.not_mem_nil
  | cons t rest ih =>
    cases rest with
    | nil => exact Or.inr ⟨t, List.mem_cons_self .., h⟩
    | cons u more =>
      rw [join_cons (List.cons_ne_nil u more), List.append_assoc, List.mem_append,
        List.mem_append] at h
      rcases h with h | h | h
      · exact Or.inr ⟨t, List.mem_cons_self .., h⟩
      · exact Or.inl h
      · rcases ih h with h | ⟨s, hs, h⟩
        · exact Or.inl h
        · exact Or.inr ⟨s, List.mem_cons_of_mem _ hs, h⟩

theorem infix_join (sep : Text) {t : Text} {ts : List Text} (ht : t ∈ ts) : t <:+: join sep ts := by
  induction ts with
  | nil => exact absurd ht List.not_mem_nil
  | cons u rest ih =>
    cases rest with
    | nil =>
      rw [List.mem_singleton.1 ht]
      exact List.infix_refl u
    | cons v more =>
      rw [join_cons (List.cons_ne_nil v more)]
      rcases List.mem_cons.1 ht with rfl | ht
      · exact ⟨[], sep ++ join sep (v :: more), by simp only [List.nil_append, List.append_assoc]⟩
      · exact (ih ht).trans (List.suffix_append _ _).isInfix

theorem mem_join_of_mem {sep t : Text} {ts : List Text} (ht : t ∈ ts) {x : Char} (hx : x ∈ t) :
    x ∈ join sep ts :=
  (infix_join sep ht).subset hx

end Text

end FlatAidl
