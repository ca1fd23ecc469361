import FlatAidl.Layout.Indented
import FlatAidl.Proofs.Text.Lines

/-!
What a pen writes. It stands at the start of a line behind every line break, at the level that the
steps so far have led to. From there, a line without a line break in it gets the blanks of that level,
and a step that writes a line ends a line of the whole text.
-/

namespace FlatAidl

open Text

/-- A line that stands some columns in. -/
def Text.indented (n : Nat) (t : Text) : Text :=
  List.replicate n ' ' ++ t

theorem Text.not_mem_indented (n : Nat) {t : Text} (h : '\n' ∉ t) : '\n' ∉ t.indented n := by
  rw [indented, List.mem_append, not_or]
  exact ⟨fun hmem => absurd (List.eq_of_mem_replicate hmem) (by decide), h⟩

/-- The text of a step without its indentation. -/
def WritingStep.content : WritingStep → Text
  | text t => t
  | indent => []
  | dedent => []

theorem WritingStep.content_lines (lines : List Text) :
    (lines.map WritingStep.line).flatMap content = lines.flatMap Text.line := by
  rw [List.flatMap_map]
  rfl

namespace Pen

variable (width : Nat)

theorem level_foldl_pass (p : Pen) (t : Text) : (t.foldl pass p).level = p.level := by
  induction t generalizing p with
  | nil => rfl
  | cons c rest ih => exact ih (p.pass c)

theorem foldl_pass_line (p : Pen) (t : Text) : (line t).foldl pass p = ⟨p.level, true⟩ := by
  rw [line, List.foldl_append]
  change (⟨(t.foldl pass p).level, '\n' == '\n'⟩ : Pen) = _
  rw [level_foldl_pass]
  rfl

theorem write_append (p : Pen) (s t : Text) :
    p.write width (s ++ t) = p.write width s ++ (s.foldl pass p).write width t := by
  induction s generalizing p with
  | nil => rfl
  | cons c rest ih =>
    rw [List.cons_append, write, write, ih, List.append_assoc]
    rfl

theorem write_line (p : Pen) (t : Text) : p.write width (line t) = line (p.write width t) := by
  rw [line, write_append]
  rfl

theorem text_append (p : Pen) (front back : List WritingStep) :
    p.text width (front ++ back) = p.text width front ++ (front.foldl after p).text width back := by
  induction front generalizing p with
  | nil => rfl
  | cons step rest ih =>
    rw [List.cons_append, text, text, ih, List.append_assoc]
    rfl

theorem level_foldl_after (p : Pen) {steps : List WritingStep}
    (h : ∀ step ∈ steps, ∃ t, step = .text t) : (steps.foldl after p).level = p.level := by
  induction steps generalizing p with
  | nil => rfl
  | cons step rest ih =>
    obtain ⟨⟨t, rfl⟩, hrest⟩ := List.forall_mem_cons.1 h
    rw [List.foldl_cons, ih _ hrest]
    exact level_foldl_pass p t

theorem write_level_zero {p : Pen} (hp : p.level = 0) (t : Text) : p.write width t = t := by
  induction t generalizing p with
  | nil => rfl
  | cons c rest ih =>
    have hput : p.put width c = [c] := by
      simp [put, column, hp]
    rw [write, hput, ih (show (p.pass c).level = 0 from hp)]
    rfl

/-- Without indentation the text is that of the steps. -/
theorem text_level_zero {p : Pen} (hp : p.level = 0) {steps : List WritingStep}
    (h : ∀ step ∈ steps, ∃ t, step = .text t) :
    p.text width steps = steps.flatMap WritingStep.content := by
  induction steps generalizing p with
  | nil => rfl
  | cons step rest ih =>
    obtain ⟨⟨t, rfl⟩, hrest⟩ := List.forall_mem_cons.1 h
    have hlevel : (t.foldl pass p).level = 0 := (level_foldl_pass p t).trans hp
    rw [text, List.flatMap_cons]
    change p.write width t ++ (t.foldl pass p).text width rest = _
    rw [write_level_zero width hp, ih hlevel hrest]
    rfl

theorem text_line_cons (p : Pen) (t : Text) (rest : List WritingStep) :
    p.text width (.line t :: rest) =
      p.write width t ++ '\n' :: (⟨p.level, true⟩ : Pen).text width rest := by
  rw [text]
  change p.write width (line t) ++ ((line t).foldl pass p).text width rest = _
  rw [write_line, foldl_pass_line, line, List.append_assoc, List.singleton_append]

/-- Lines that are written end lines of the text, and the rest starts a new one. -/
theorem split_text_lines (level : Nat) (ts : List Text) (rest : List WritingStep) :
    split '\n' ((⟨level, true⟩ : Pen).text width (ts.map .line ++ rest)) =
      ts.flatMap (fun t => split '\n' ((⟨level, true⟩ : Pen).write width t)) ++
        split '\n' ((⟨level, true⟩ : Pen).text width rest) := by
  induction ts with
  | nil => rfl
  | cons t ts ih =>
    rw [List.map_cons, List.cons_append, text_line_cons, split_append_cons, ih, List.flatMap_cons,
      List.append_assoc]

/-- Inside of a line nothing is added. -/
theorem write_of_inside {p : Pen} {t : Text} (hp : p.lineStart = false) (h : '\n' ∉ t) :
    p.write width t = t := by
  induction t generalizing p with
  | nil => rfl
  | cons c rest ih =>
    rw [List.mem_cons, not_or] at h
    have hc : c ≠ '\n' := Ne.symm h.1
    have hpass : (p.pass c).lineStart = false := beq_eq_false_iff_ne.2 hc
    have hput : p.put width c = [c] := by
      rw [put, if_neg hc, if_neg (by rw [hp]; exact Bool.false_ne_true)]
    rw [write, hput, ih hpass h.2]
    rfl

theorem write_unbroken {level : Nat} {t : Text} (hne : t ≠ []) (h : '\n' ∉ t) :
    (⟨level, true⟩ : Pen).write width t = t.indented (level * width) := by
  cases t with
  | nil => exact absurd rfl hne
  | cons c rest =>
    rw [List.mem_cons, not_or] at h
    have hc : c ≠ '\n' := Ne.symm h.1
    have hpass : ((⟨level, true⟩ : Pen).pass c).lineStart = false := beq_eq_false_iff_ne.2 hc
    have hput : (⟨level, true⟩ : Pen).put width c = List.replicate (level * width) ' ' ++ [c] := by
      rw [put, if_neg hc, if_pos rfl, column]
    rw [write, hput, write_of_inside width hpass h.2, indented, List.append_assoc,
      List.singleton_append]

theorem flatMap_split_write (level : Nat) {ts : List Text} (h : ∀ t ∈ ts, t ≠ [] ∧ '\n' ∉ t) :
    ts.flatMap (fun t => split '\n' ((⟨level, true⟩ : Pen).write width t)) =
      ts.map (Text.indented (level * width)) := by
  rw [List.map_eq_flatMap]
  refine List.flatMap_congr fun t ht => ?_
  obtain ⟨hne, hbreak⟩ := h t ht
  rw [write_unbroken width hne hbreak]
  exact split_of_not_mem (not_mem_indented _ hbreak)

theorem text_unbroken_lines (level : Nat) {ts : List Text} (h : ∀ t ∈ ts, t ≠ [] ∧ '\n' ∉ t) :
    (⟨level, true⟩ : Pen).text width (ts.map .line) =
      ts.flatMap fun t => t.indented (level * width) ++ ['\n'] := by
  induction ts with
  | nil => rfl
  | cons t ts ih =>
    obtain ⟨⟨hne, hbreak⟩, hts⟩ := List.forall_mem_cons.1 h
    rw [List.map_cons, text_line_cons, write_unbroken width hne hbreak, ih hts, List.flatMap_cons,
      List.append_assoc, List.singleton_append]

end Pen

end FlatAidl
