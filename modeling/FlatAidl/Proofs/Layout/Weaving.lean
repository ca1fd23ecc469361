import FlatAidl.Layout.Wrapped
import FlatAidl.Proofs.Text.Lines
import Mathlib.Data.List.Induction

/-!
What a layout puts between its parts. In front of a group stands nothing if it is the first, and a
space or a line break with the margin otherwise; nothing stands in front of other text. Main
statement: the lines of a layout, joined by line breaks, are its parts in order with such gaps.
-/

namespace FlatAidl

namespace LineShape

/-- What every line but the first starts with. -/
def margin (s : LineShape) : Text :=
  List.replicate s.indent ' '

def lineBreak (s : LineShape) : Text :=
  '\n' :: s.margin

end LineShape

namespace Layout

variable {s : LineShape} {l : Layout}

/-! ### Steps -/

/-- All that a group can do to a layout: it opens the first line's groups, goes behind a space if it
fits there, or else starts a line of its own. -/
theorem addGroup_cases (s : LineShape) (l : Layout) (t : Text) :
    (l.groups = 0 ∧ l.addGroup s t = ⟨l.done, l.current ++ t, 1, l.breaks⟩) ∨
    (l.groups ≠ 0 ∧ l.column s + 1 + t.length ≤ s.width ∧
      l.addGroup s t = ⟨l.done, l.current ++ ' ' :: t, l.groups + 1, l.breaks⟩) ∨
    (l.groups ≠ 0 ∧ s.width < l.column s + 1 + t.length ∧
      l.addGroup s t = ⟨l.done ++ [l.current], s.margin ++ t, l.groups + 1,
        l.breaks ++ [⟨l.column s, t.length, s.width⟩]⟩) := by
  rw [addGroup]
  by_cases hg : l.groups = 0
  · rw [if_pos hg]
    exact Or.inl ⟨hg, rfl⟩
  · rw [if_neg hg]
    by_cases hfit : l.column s + 1 + t.length ≤ s.width
    · rw [fits, if_pos (decide_eq_true hfit)]
      exact Or.inr (Or.inl ⟨hg, hfit, rfl⟩)
    · rw [fits, if_neg (by simpa using hfit)]
      exact Or.inr (Or.inr ⟨hg, Nat.lt_of_not_le hfit, rfl⟩)

theorem groups_addGroup (t : Text) : (l.addGroup s t).groups = l.groups + 1 := by
  obtain ⟨hg, hadd⟩ | ⟨_, _, hadd⟩ | ⟨_, _, hadd⟩ := addGroup_cases s l t
  · rw [hadd, hg]
  · rw [hadd]
  · rw [hadd]

theorem ofParts_concat (s : LineShape) (parts : List LayoutPart) (p : LayoutPart) :
    ofParts s (parts ++ [p]) = (ofParts s parts).add s p := by
  rw [ofParts, List.foldl_append]
  rfl

/-- The text of a layout as far as it goes. -/
def soFar (l : Layout) : Text :=
  l.done.flatMap Text.line ++ l.current

theorem soFar_addGroup_first (hg : l.groups = 0) (t : Text) :
    (l.addGroup s t).done = l.done ∧ (l.addGroup s t).soFar = l.soFar ++ t := by
  obtain ⟨_, hadd⟩ | ⟨hne, _, _⟩ | ⟨hne, _, _⟩ := addGroup_cases s l t
  · rw [hadd]
    exact ⟨rfl, (List.append_assoc ..).symm⟩
  · exact absurd hg hne
  · exact absurd hg hne

/-- A further group goes behind a space, or behind a line break and the margin. -/
theorem soFar_addGroup (hg : l.groups ≠ 0) (t : Text) :
    ((l.addGroup s t).done.length = l.done.length ∧
      (l.addGroup s t).soFar = l.soFar ++ ([' '] ++ t)) ∨
    ((l.addGroup s t).done.length = l.done.length + 1 ∧
      (l.addGroup s t).soFar = l.soFar ++ (s.lineBreak ++ t)) := by
  obtain ⟨hzero, _⟩ | ⟨_, _, hadd⟩ | ⟨_, _, hadd⟩ := addGroup_cases s l t
  · exact absurd hzero hg
  · rw [hadd]
    exact Or.inl ⟨rfl, (List.append_assoc ..).symm⟩
  · rw [hadd]
    refine Or.inr ⟨List.length_append .., ?_⟩
    simp [soFar, Text.line, LineShape.lineBreak]

/-! ### Lines -/

/-- A line that follows another one starts with a group, so it is not empty. -/
theorem current_ne_nil {parts : List LayoutPart} (h : ∀ t, .group t ∈ parts → t ≠ []) :
    (ofParts s parts).done ≠ [] → (ofParts s parts).current ≠ [] := by
  induction parts using List.reverseRecOn with
  | nil => exact fun hdone => absurd rfl hdone
  | append_singleton parts p ih =>
    have hparts := ih fun t ht => h t (List.mem_append_left _ ht)
    rw [ofParts_concat]
    cases p with
    | text t => exact fun hdone => List.append_ne_nil_of_left_ne_nil (hparts hdone) t
    | group t =>
      have ht : t ≠ [] := h t (List.mem_append_right _ (List.mem_singleton_self _))
      rw [add]
      obtain ⟨_, hadd⟩ | ⟨_, _, hadd⟩ | ⟨_, _, hadd⟩ := addGroup_cases s (ofParts s parts) t
      · rw [hadd]
        exact fun _ => List.append_ne_nil_of_right_ne_nil _ ht
      · rw [hadd]
        exact fun _ => List.append_ne_nil_of_right_ne_nil _ (List.cons_ne_nil ' ' t)
      · rw [hadd]
        exact fun _ => List.append_ne_nil_of_right_ne_nil _ ht

theorem lines_eq (h : l.done ≠ [] → l.current ≠ []) : l.lines = l.done ++ [l.current] := by
  rw [lines, if_neg]
  rw [Bool.and_eq_true, Bool.not_eq_true', List.isEmpty_iff, List.isEmpty_eq_false_iff]
  exact fun hempty => h hempty.2 hempty.1

theorem join_lines (h : l.done ≠ [] → l.current ≠ []) : Text.join ['\n'] l.lines = l.soFar := by
  rw [lines_eq h, soFar]
  induction l.done with
  | nil => rfl
  | cons t rest ih =>
    rw [List.cons_append, Text.join_cons (by simp), ih, List.flatMap_cons,
      List.append_assoc _ _ l.current]
    rfl

end Layout

/-! ### Gaps -/

namespace LayoutPart

def isGroup : LayoutPart → Bool
  | text _ => false
  | group _ => true

/-- The texts of parts in order; the next of the gaps stands in front of each group. -/
def weave : List Text → List LayoutPart → Text
  | _, [] => []
  | gaps, .text t :: parts => t ++ weave gaps parts
  | gaps, .group t :: parts => gaps.headD [] ++ t ++ weave gaps.tail parts

theorem weave_concat_text (gaps : List Text) (parts : List LayoutPart) (t : Text) :
    weave gaps (parts ++ [.text t]) = weave gaps parts ++ t := by
  induction parts generalizing gaps with
  | nil => exact List.append_nil t
  | cons p rest ih =>
    cases p with
    | text u => rw [List.cons_append, weave, weave, ih, List.append_assoc]
    | group u =>
      rw [List.cons_append, weave, weave, ih]
      simp only [List.append_assoc]

theorem weave_concat_group {gaps : List Text} {parts : List LayoutPart}
    (h : gaps.length = parts.countP isGroup) (gap t : Text) :
    weave (gaps ++ [gap]) (parts ++ [.group t]) = weave gaps parts ++ (gap ++ t) := by
  induction parts generalizing gaps with
  | nil =>
    obtain rfl := List.length_eq_zero_iff.1 h
    exact List.append_nil (gap ++ t)
  | cons p rest ih =>
    cases p with
    | text u =>
      rw [List.countP_cons_of_neg (by simp [isGroup])] at h
      rw [List.cons_append, weave, weave, ih h, List.append_assoc]
    | group u =>
      rw [List.countP_cons_of_pos rfl] at h
      obtain ⟨first, more, rfl⟩ := List.exists_cons_of_length_eq_add_one h
      rw [List.cons_append, List.cons_append, weave, weave, List.tail_cons, List.tail_cons,
        ih (Nat.succ.inj h)]
      simp only [List.headD_cons, List.append_assoc]

end LayoutPart

/-- Gaps in front of groups: none in front of the first, and a space or a line break with the margin
in front of each further one. -/
structure Gaps (s : LineShape) (gaps : List Text) : Prop where
  first : ∀ gap ∈ gaps.head?, gap = []
  further : ∀ gap ∈ gaps.tail, gap = [' '] ∨ gap = s.lineBreak

theorem Gaps.concat {s : LineShape} {gaps : List Text} (h : Gaps s gaps) (hne : gaps ≠ [])
    {gap : Text} (hgap : gap = [' '] ∨ gap = s.lineBreak) : Gaps s (gaps ++ [gap]) := by
  refine ⟨?_, ?_⟩
  · rw [List.head?_append_of_ne_nil _ hne]
    exact h.first
  · rw [List.tail_append_of_ne_nil hne]
    simp only [List.forall_mem_append, List.forall_mem_singleton]
    exact ⟨h.further, hgap⟩

namespace Layout

theorem groups_ofParts (s : LineShape) (parts : List LayoutPart) :
    (ofParts s parts).groups = parts.countP LayoutPart.isGroup := by
  induction parts using List.reverseRecOn with
  | nil => rfl
  | append_singleton parts p ih =>
    rw [ofParts_concat, List.countP_append, ← ih]
    cases p with
    | text t => rfl
    | group t => exact groups_addGroup t

/-- What holds of a layout after every part: its text is its parts with gaps between them, and it has
finished one line for each line break among the gaps. -/
structure Woven (s : LineShape) (parts : List LayoutPart) (gaps : List Text) : Prop where
  length : gaps.length = parts.countP LayoutPart.isGroup
  between : Gaps s gaps
  text : (ofParts s parts).soFar = LayoutPart.weave gaps parts
  done : (ofParts s parts).done.length = gaps.count s.lineBreak

namespace Woven

variable {parts : List LayoutPart} {gaps : List Text}

theorem concat_text (h : Woven s parts gaps) (t : Text) : Woven s (parts ++ [.text t]) gaps := by
  refine ⟨?_, h.between, ?_, ?_⟩
  · simpa [LayoutPart.isGroup] using h.length
  · rw [ofParts_concat, LayoutPart.weave_concat_text, ← h.text]
    exact (List.append_assoc ..).symm
  · rw [ofParts_concat]
    exact h.done

theorem concat_group (h : Woven s parts gaps) {gap t : Text} (hgaps : Gaps s (gaps ++ [gap]))
    (htext : ((ofParts s parts).addGroup s t).soFar = (ofParts s parts).soFar ++ (gap ++ t))
    (hdone : ((ofParts s parts).addGroup s t).done.length =
      (ofParts s parts).done.length + [gap].count s.lineBreak) :
    Woven s (parts ++ [.group t]) (gaps ++ [gap]) := by
  refine ⟨?_, hgaps, ?_, ?_⟩
  · simpa [LayoutPart.isGroup] using h.length
  · rw [ofParts_concat, add, htext, h.text, LayoutPart.weave_concat_group h.length]
  · rw [ofParts_concat, add, hdone, h.done, List.count_append]

theorem exists_concat_group (h : Woven s parts gaps) (t : Text) :
    ∃ gap, Woven s (parts ++ [.group t]) (gaps ++ [gap]) := by
  have hgroups : (ofParts s parts).groups = gaps.length :=
    (groups_ofParts s parts).trans h.length.symm
  by_cases hnone : gaps = []
  · have hg : (ofParts s parts).groups = 0 := by rw [hgroups, hnone, List.length_nil]
    have hfirst : Gaps s (gaps ++ [[]]) := by
      rw [hnone]
      exact ⟨by simp, by simp⟩
    obtain ⟨hdone, htext⟩ := soFar_addGroup_first (s := s) hg t
    exact ⟨[], h.concat_group hfirst htext (congrArg List.length hdone)⟩
  · have hg : (ofParts s parts).groups ≠ 0 := by
      rw [hgroups]
      exact List.length_eq_zero_iff.not.2 hnone
    obtain ⟨hdone, htext⟩ | ⟨hdone, htext⟩ := soFar_addGroup (s := s) hg t
    · exact ⟨[' '], h.concat_group (h.between.concat hnone (Or.inl rfl)) htext hdone⟩
    · refine ⟨s.lineBreak, h.concat_group (h.between.concat hnone (Or.inr rfl)) htext ?_⟩
      rw [hdone, List.count_singleton_self]

end Woven

theorem exists_woven (s : LineShape) (parts : List LayoutPart) : ∃ gaps, Woven s parts gaps := by
  induction parts using List.reverseRecOn with
  | nil => exact ⟨[], rfl, ⟨by simp, by simp⟩, rfl, rfl⟩
  | append_singleton parts p ih =>
    obtain ⟨gaps, h⟩ := ih
    cases p with
    | text t => exact ⟨gaps, h.concat_text t⟩
    | group t =>
      obtain ⟨gap, hmore⟩ := h.exists_concat_group t
      exact ⟨gaps ++ [gap], hmore⟩

/-- The lines of a layout, joined by line breaks, are all parts in order, with nothing in front of
the first group, a space or a line break with the margin in front of each further one, and nothing
anywhere else. There is a line more than line breaks among these gaps. -/
theorem join_lines_eq_weave (s : LineShape) {parts : List LayoutPart}
    (h : ∀ t, .group t ∈ parts → t ≠ []) :
    ∃ gaps, gaps.length = parts.countP LayoutPart.isGroup ∧ Gaps s gaps ∧
      Text.join ['\n'] (ofParts s parts).lines = LayoutPart.weave gaps parts ∧
      (ofParts s parts).lines.length = gaps.count s.lineBreak + 1 := by
  obtain ⟨gaps, hwoven⟩ := exists_woven s parts
  have hcurrent := current_ne_nil (s := s) h
  refine ⟨gaps, hwoven.length, hwoven.between, ?_, ?_⟩
  · rw [join_lines hcurrent, hwoven.text]
  · rw [lines_eq hcurrent, List.length_append, hwoven.done]
    rfl

/-- Text in front of the groups, between them and behind them, on two lines. -/
def tuning : List LayoutPart :=
  [.text (Text.ofString "tune("), .group (Text.ofString "in int band,"),
    .group (Text.ofString "in int channel"), .text (Text.ofString ");")]

theorem tuning_eq_weave :
    (∀ t, .group t ∈ tuning → t ≠ []) ∧
    (ofParts ⟨20, 0, 2⟩ tuning).lines =
      [Text.ofString "tune(in int band,", Text.ofString "  in int channel);"] ∧
    ∃ gaps, gaps.length = 2 ∧ Gaps ⟨20, 0, 2⟩ gaps ∧
      Text.join ['\n'] (ofParts ⟨20, 0, 2⟩ tuning).lines = LayoutPart.weave gaps tuning ∧
      (ofParts ⟨20, 0, 2⟩ tuning).lines.length = gaps.count (LineShape.lineBreak ⟨20, 0, 2⟩) + 1 := by
  have hgroups : ∀ t, .group t ∈ tuning → t ≠ [] := by
    rintro t ht rfl
    exact absurd ht (by decide)
  exact ⟨hgroups, by decide, join_lines_eq_weave ⟨20, 0, 2⟩ hgroups⟩

end Layout

end FlatAidl
