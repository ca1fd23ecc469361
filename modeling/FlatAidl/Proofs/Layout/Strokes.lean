import FlatAidl.Proofs.Layout.Indentation

/-!
Indentation line by line. Every character that steps write is put down at the level which the steps
in front of it have led to. A line of the text is the line that was written, behind the blanks for
the level of its first character, wherever the steps cut it and whatever they do to the level
inside of it. Main statement: the lines of the text are the lines written, each indented by its
first stroke.
-/

namespace FlatAidl

open Text

/-- The level behind some steps: how many levels they enter, less those that they leave. -/
def levelBehind (steps : List WritingStep) : Nat :=
  steps.count .indent - steps.count .dedent

/-- A written character, and the level in force when it was written. -/
structure Stroke where
  level : Nat
  char : Char
deriving DecidableEq

namespace Stroke

def isBreak (s : Stroke) : Bool :=
  s.char == '\n'

/-- What further steps write behind some steps. -/
def ofStepsBehind (front : List WritingStep) : List WritingStep → List Stroke
  | [] => []
  | step :: rest =>
    step.content.map (Stroke.mk (levelBehind front)) ++ ofStepsBehind (front ++ [step]) rest

/-- The lines that steps write, stroke by stroke. -/
def lines (steps : List WritingStep) : List (List Stroke) :=
  (ofStepsBehind [] steps).splitOnP isBreak

/-- A written line as it stands in the text: nothing if it is empty, and otherwise its characters
behind the blanks for the level of the first of them. -/
def indentedLine (width : Nat) : List Stroke → Text
  | [] => []
  | first :: rest => Text.indented (first.level * width) (first.char :: rest.map Stroke.char)

theorem chars_ofStepsBehind (front steps : List WritingStep) :
    (ofStepsBehind front steps).map Stroke.char = steps.flatMap WritingStep.content := by
  induction steps generalizing front with
  | nil => rfl
  | cons step rest ih =>
    rw [ofStepsBehind, List.map_append, List.map_map, ih, List.flatMap_cons]
    congr 1
    exact List.map_id _

/-! ### Lines of strokes -/

theorem splitOnP_cons_of_break {s : Stroke} (hs : s.isBreak = true) (rest : List Stroke) :
    (s :: rest).splitOnP isBreak = [] :: rest.splitOnP isBreak := by
  rw [List.splitOnP_cons_eq_if_modifyHead, if_pos hs]

theorem splitOnP_cons_of_not_break {s : Stroke} (hs : s.isBreak = false) {rest first : List Stroke}
    {more : List (List Stroke)} (hrest : rest.splitOnP isBreak = first :: more) :
    (s :: rest).splitOnP isBreak = (s :: first) :: more := by
  rw [List.splitOnP_cons_eq_if_modifyHead, hs, if_neg Bool.false_ne_true, hrest]
  rfl

theorem not_mem_of_not_break {s : Stroke} (hs : s.isBreak = false) : '\n' ∉ [s.char] := by
  rw [List.mem_singleton]
  exact Ne.symm (beq_eq_false_iff_ne.1 hs)

theorem chars_splitOnP (strokes : List Stroke) :
    (strokes.splitOnP isBreak).map (List.map Stroke.char) =
      split '\n' (strokes.map Stroke.char) := by
  induction strokes with
  | nil =>
    rw [List.splitOnP_nil]
    rfl
  | cons s rest ih =>
    rw [List.map_cons]
    cases hs : s.isBreak with
    | true =>
      have hchar : s.char = '\n' := beq_iff_eq.1 hs
      rw [splitOnP_cons_of_break hs, hchar, List.map_cons, ih]
      exact (split_append_cons '\n' [] _).symm
    | false =>
      cases hrest : rest.splitOnP isBreak with
      | nil => exact absurd hrest (List.splitOnP_ne_nil _ _)
      | cons first more =>
        rw [hrest, List.map_cons] at ih
        rw [splitOnP_cons_of_not_break hs hrest]
        exact (split_append_of_not_mem (not_mem_of_not_break hs) ih.symm).symm

/-! ### What a pen makes of strokes -/

/-- The text that strokes leave, the first one at the start of a line or inside of one. -/
def ink (width : Nat) (lineStart : Bool) : List Stroke → Text
  | [] => []
  | s :: rest => (⟨s.level, lineStart⟩ : Pen).put width s.char ++ ink width s.isBreak rest

/-- A line that is begun goes on as it was written, and every later one is indented. -/
theorem exists_split_ink (width : Nat) (lineStart : Bool) (strokes : List Stroke) :
    ∃ first more, strokes.splitOnP isBreak = first :: more ∧
      split '\n' (ink width lineStart strokes) =
        (if lineStart then indentedLine width first else first.map Stroke.char) ::
          more.map (indentedLine width) := by
  induction strokes generalizing lineStart with
  | nil =>
    refine ⟨[], [], List.splitOnP_nil, ?_⟩
    cases lineStart with
    | true => rfl
    | false => rfl
  | cons s rest ih =>
    obtain ⟨first, more, hrest, hink⟩ := ih s.isBreak
    cases hs : s.isBreak with
    | true =>
      rw [hs, if_pos rfl] at hink
      have hchar : s.char = '\n' := beq_iff_eq.1 hs
      refine ⟨[], first :: more, by rw [splitOnP_cons_of_break hs, hrest], ?_⟩
      have hput : ink width lineStart (s :: rest) = '\n' :: ink width true rest := by
        rw [ink, hs, hchar]
        rfl
      have hsplit := split_append_cons '\n' [] (ink width true rest)
      rw [List.nil_append] at hsplit
      rw [hput, hsplit, hink]
      cases lineStart with
      | true => rfl
      | false => rfl
    | false =>
      rw [hs, if_neg Bool.false_ne_true] at hink
      have hchar : s.char ≠ '\n' := beq_eq_false_iff_ne.1 hs
      refine ⟨s :: first, more, splitOnP_cons_of_not_break hs hrest, ?_⟩
      cases lineStart with
      | true =>
        have hput : ink width true (s :: rest) =
            Text.indented (s.level * width) [s.char] ++ ink width false rest := by
          rw [ink, hs, Pen.put, if_neg hchar, if_pos rfl]
          rfl
        rw [hput, split_append_of_not_mem (not_mem_indented _ (not_mem_of_not_break hs)) hink]
        simp [indentedLine, Text.indented]
      | false =>
        have hput : ink width false (s :: rest) = [s.char] ++ ink width false rest := by
          rw [ink, hs, Pen.put, if_neg hchar, if_neg Bool.false_ne_true]
        rw [hput, split_append_of_not_mem (not_mem_of_not_break hs) hink]
        rfl

end Stroke

/-! ### The level of a pen -/

theorem levelBehind_concat_text (front : List WritingStep) (t : Text) :
    levelBehind (front ++ [.text t]) = levelBehind front := by
  simp [levelBehind]

theorem levelBehind_concat_indent {front : List WritingStep}
    (h : front.count .dedent ≤ front.count .indent) :
    levelBehind (front ++ [.indent]) = levelBehind front + 1 := by
  simp only [levelBehind, List.count_append, List.count_singleton_self]
  have hother : [WritingStep.indent].count .dedent = 0 := rfl
  omega

theorem levelBehind_concat_dedent (front : List WritingStep) :
    levelBehind (front ++ [.dedent]) = levelBehind front - 1 := by
  simp only [levelBehind, List.count_append, List.count_singleton_self]
  have hother : [WritingStep.dedent].count .indent = 0 := rfl
  omega

namespace Pen

variable (width : Nat)

theorem write_append_ink (p : Pen) (t : Text) (strokes : List Stroke) :
    p.write width t ++ Stroke.ink width (t.foldl pass p).lineStart strokes =
      Stroke.ink width p.lineStart (t.map (Stroke.mk p.level) ++ strokes) := by
  induction t generalizing p with
  | nil => rfl
  | cons c rest ih =>
    have hrest := ih (p.pass c)
    rw [write, List.append_assoc, List.foldl_cons, hrest]
    rfl

/-- The level is the one that the steps in front have led to, as long as none leaves level 0. -/
theorem text_eq_ink {front steps : List WritingStep} {p : Pen}
    (hlevel : p.level = levelBehind front) (hfront : front.count .dedent ≤ front.count .indent)
    (h : balanced p.level steps = true) :
    p.text width steps = Stroke.ink width p.lineStart (Stroke.ofStepsBehind front steps) := by
  induction steps generalizing p front with
  | nil => rfl
  | cons step rest ih =>
    rw [text, Stroke.ofStepsBehind]
    cases step with
    | text t =>
      have hafter : (p.after (.text t)).level = levelBehind (front ++ [.text t]) := by
        rw [levelBehind_concat_text, ← hlevel]
        exact level_foldl_pass p t
      have hbalanced : balanced (p.after (.text t)).level rest = true := by
        rw [hafter, levelBehind_concat_text, ← hlevel]
        exact h
      rw [ih hafter (by simpa using hfront) hbalanced, ← hlevel]
      exact write_append_ink width p t _
    | indent =>
      have hafter : (p.after .indent).level = levelBehind (front ++ [.indent]) := by
        rw [levelBehind_concat_indent hfront, ← hlevel]
        rfl
      have hcount : (front ++ [WritingStep.indent]).count .dedent ≤
          (front ++ [WritingStep.indent]).count .indent := by
        simp
        omega
      exact ih hafter hcount h
    | dedent =>
      rw [balanced, Bool.and_eq_true] at h
      obtain ⟨hpos, hrest⟩ := h
      have hafter : (p.after .dedent).level = levelBehind (front ++ [.dedent]) := by
        rw [levelBehind_concat_dedent, ← hlevel]
        rfl
      have hcount : (front ++ [WritingStep.dedent]).count .dedent ≤
          (front ++ [WritingStep.dedent]).count .indent := by
        rw [decide_eq_true_eq, hlevel, levelBehind] at hpos
        simp
        omega
      exact ih hafter hcount hrest

/-- A text may be cut anywhere and written piece by piece. -/
theorem text_pieces (p : Pen) (ts : List Text) (back : List WritingStep) :
    p.text width (ts.map .text ++ back) = p.text width (.text ts.flatten :: back) := by
  induction ts generalizing p with
  | nil => rfl
  | cons t ts ih =>
    rw [List.map_cons, List.cons_append, text, ih, text, text, List.flatten_cons]
    simp only [apply, after, write_append, List.foldl_append, List.append_assoc]

/-- The lines of a text are the lines that were written, the empty ones as they are and each other
one behind the blanks for the level in force at its first character. How the writing was cut into
steps does not show. -/
theorem text_indents_each_line {steps : List WritingStep} (h : balanced 0 steps = true) :
    (Stroke.lines steps).map (List.map Stroke.char) =
        split '\n' (steps.flatMap WritingStep.content) ∧
      split '\n' (start.text width steps) =
        (Stroke.lines steps).map (Stroke.indentedLine width) ∧
      ∀ (front : List WritingStep) (ts : List Text) (back : List WritingStep),
        steps = front ++ (ts.map .text ++ back) →
          start.text width steps = start.text width (front ++ .text ts.flatten :: back) := by
  refine ⟨?_, ?_, ?_⟩
  · rw [Stroke.lines, Stroke.chars_splitOnP, Stroke.chars_ofStepsBehind]
  · obtain ⟨first, more, hlines, hsplit⟩ :=
      Stroke.exists_split_ink width true (Stroke.ofStepsBehind [] steps)
    have htext : start.text width steps = Stroke.ink width true (Stroke.ofStepsBehind [] steps) :=
      text_eq_ink width rfl (Nat.le_refl 0) h
    rw [htext, hsplit, Stroke.lines, hlines]
    rfl
  · rintro front ts back rfl
    rw [text_append width start front, text_append width start front, text_pieces]

/-- A gate, the only method of which is written in pieces; the level falls amid its line. -/
def gateSteps : List WritingStep :=
  [.line (Text.ofString "interface IGate \x7b"), .indent, .text (Text.ofString "void "),
    .text (Text.ofString "open("), .dedent, .line (Text.ofString ");"), .newline,
    .text (Text.ofString "\x7d")]

theorem gateSteps_indent_each_line :
    balanced 0 gateSteps = true ∧
      split '\n' (start.text 4 gateSteps) = [Text.ofString "interface IGate \x7b",
        Text.ofString "    void open();", [], Text.ofString "\x7d"] ∧
      start.text 4 gateSteps = start.text 4
        [.line (Text.ofString "interface IGate \x7b"), .indent, .text (Text.ofString "void open("),
          .dedent, .line (Text.ofString ");"), .newline, .text (Text.ofString "\x7d")] := by
  have hbalanced : balanced 0 gateSteps = true := rfl
  obtain ⟨_, hlines, hpieces⟩ := text_indents_each_line 4 hbalanced
  refine ⟨hbalanced, hlines.trans (by decide), ?_⟩
  exact hpieces [.line (Text.ofString "interface IGate \x7b"), .indent]
    [Text.ofString "void ", Text.ofString "open("] _ rfl

end Pen

end FlatAidl
