import FlatAidl.Proofs.Doc.Block
import FlatAidl.Proofs.Text.Cuts
import Mathlib.Data.List.Chain

/-!
Where a comment block ends. A block comment goes up to the first end mark behind its start, so the
block of a comment is one comment exactly if no line of the comment holds an end mark. Nothing else
can make one: neither what reading takes from a line nor what the block puts around it.
-/

namespace FlatAidl

namespace Text

/-- The mark that ends a block comment. -/
def endMark : Text :=
  ofString "*/"

theorem not_closes_iff_isChain {t : Text} :
    ¬ endMark <:+: t ↔ t.IsChain fun x y => ¬ (x = '*' ∧ y = '/') := by
  rw [List.isChain_iff_forall_rel_of_append_cons_cons]
  constructor
  · rintro h x y front back rfl ⟨rfl, rfl⟩
    exact h ⟨front, back, by simp [endMark, ofString]⟩
  · rintro h ⟨front, back, rfl⟩
    have hparts : front ++ endMark ++ back = front ++ '*' :: '/' :: back := by
      simp [endMark, ofString]
    exact h hparts ⟨rfl, rfl⟩

/-- Two texts make an end mark together only if the first ends with its star and the second starts
with its slash. -/
theorem closes_append {s t : Text} (h : s.getLast? ≠ some '*' ∨ t.head? ≠ some '/') :
    endMark <:+: s ++ t ↔ endMark <:+: s ∨ endMark <:+: t := by
  rw [← not_iff_not, not_or, not_closes_iff_isChain, not_closes_iff_isChain,
    not_closes_iff_isChain, List.isChain_append]
  constructor
  · intro hchain
    exact ⟨hchain.1, hchain.2.1⟩
  · intro hchain
    refine ⟨hchain.1, hchain.2, ?_⟩
    rintro x hx y hy ⟨rfl, rfl⟩
    rcases h with h | h
    · exact h hx
    · exact h hy

theorem not_closes_of_no_star {t : Text} (h : '*' ∉ t) : ¬ endMark <:+: t := by
  intro hmark
  exact h (hmark.mem (by decide))

theorem closes_indented (n : Nat) (t : Text) : endMark <:+: t.indented n ↔ endMark <:+: t := by
  have hmargin : '*' ∉ List.replicate n ' ' := fun h =>
    absurd (List.eq_of_mem_replicate h) (by decide)
  rw [indented, closes_append (Or.inl fun h => hmargin (List.mem_of_getLast? h)),
    or_iff_right (not_closes_of_no_star hmargin)]

/-- Lines that are written one below the other hold an end mark exactly if one of them does. -/
theorem closes_lines {ts : List Text} :
    endMark <:+: (ts.flatMap fun t => t ++ ['\n']) ↔ ∃ t ∈ ts, endMark <:+: t := by
  induction ts with
  | nil => simp [endMark, ofString]
  | cons t ts ih =>
    have hbreak : ¬ endMark <:+: ['\n'] := not_closes_of_no_star (by decide)
    have hline : endMark <:+: t ++ ['\n'] ↔ endMark <:+: t := by
      rw [closes_append (Or.inr (by decide)), or_iff_left hbreak]
    have hlast : (t ++ ['\n']).getLast? ≠ some '*' := by simp
    rw [List.flatMap_cons, closes_append (Or.inl hlast), hline, ih, List.exists_mem_cons_iff]

theorem trimStart_indented (n : Nat) (t : Text) : trimStart (t.indented n) = trimStart t := by
  induction n with
  | zero => rfl
  | succ n ih =>
    have hblank : isBlank ' ' = true := by decide
    have hcons : t.indented (n + 1) = ' ' :: t.indented n := rfl
    rw [hcons, trimStart, if_pos hblank, ih]

end Text

namespace DocComment

open Text

/-- Lines that hold the end mark once, at the end of the last one. -/
def ClosedAtEnd (lines : List Text) : Prop :=
  ∃ front last, lines = front ++ [last ++ endMark] ∧ (∀ line ∈ front, ¬ endMark <:+: line) ∧
    ¬ endMark <:+: last

/-- A text starts with a block comment and has `rest` behind the end mark of it. -/
def CommentThen (t rest : Text) : Prop :=
  ∃ inner, t = ofString "/*" ++ inner ++ endMark ++ rest ∧ ¬ endMark <:+: inner

theorem CommentThen.iff_of_eq {t inner rest : Text}
    (h : t = ofString "/*" ++ inner ++ endMark ++ rest) :
    CommentThen t rest ↔ ¬ endMark <:+: inner := by
  constructor
  · rintro ⟨other, hother, hclosed⟩
    rw [h, List.append_assoc, List.append_assoc, List.append_assoc, List.append_assoc] at hother
    rwa [List.append_cancel_right (List.append_cancel_left hother)]
  · intro hclosed
    exact ⟨inner, h, hclosed⟩

theorem closes_blockLine (line : Text) : endMark <:+: blockLine line ↔ endMark <:+: line := by
  rw [blockLine]
  cases line with
  | nil => decide
  | cons c rest =>
    have hmarks : ¬ endMark <:+: ofString " * " := by decide
    show endMark <:+: ofString " * " ++ c :: rest ↔ endMark <:+: c :: rest
    rw [closes_append (Or.inl (by decide)), or_iff_right hmarks]

theorem block_eq (d : DocComment) :
    d.block = (ofString "/**" :: d.lines.map blockLine) ++ [ofString " " ++ endMark] :=
  rfl

theorem closedAtEnd_block_iff (d : DocComment) :
    ClosedAtEnd d.block ↔ ∀ line ∈ d.lines, ¬ endMark <:+: line := by
  constructor
  · rintro ⟨front, last, hblock, hfront, _⟩ line hline
    rw [block_eq] at hblock
    have hlines := (List.append_inj' hblock rfl).1
    have hmem : blockLine line ∈ front := by
      rw [← hlines]
      exact List.mem_cons_of_mem _ (List.mem_map_of_mem hline)
    rw [← closes_blockLine]
    exact hfront _ hmem
  · intro hlines
    refine ⟨_, _, block_eq d, List.forall_mem_cons.2 ⟨by decide, fun line hline => ?_⟩, by decide⟩
    obtain ⟨inner, hinner, rfl⟩ := List.mem_map.1 hline
    rw [closes_blockLine]
    exact hlines inner hinner

/-- What stands between the two ends of a block as a pen writes it. -/
def written (n : Nat) (lines : List Text) : Text :=
  ofString "*\n" ++ (lines.flatMap fun line => (blockLine line).indented n ++ ['\n']) ++
    (ofString " ").indented n

theorem text_block {d : DocComment} (h : ∀ line ∈ d.lines, '\n' ∉ line) (width level : Nat)
    (after : Text) :
    trimStart ((⟨level, true⟩ : Pen).text width (d.block.map .line) ++ after) =
      ofString "/*" ++ written (level * width) d.lines ++ endMark ++ '\n' :: after := by
  have hlines : ∀ line ∈ d.block, line ≠ [] ∧ '\n' ∉ line := by
    rw [block_eq, List.forall_mem_append, List.forall_mem_cons, List.forall_mem_singleton]
    refine ⟨⟨by decide, fun line hline => ?_⟩, by decide⟩
    obtain ⟨inner, hinner, rfl⟩ := List.mem_map.1 hline
    exact ⟨blockLine_ne_nil inner, blockLine_unbroken (h inner hinner)⟩
  have hstart : ∀ t, trimStart (ofString "/**" ++ t) = ofString "/**" ++ t := fun t =>
    if_neg (by decide)
  rw [Pen.text_unbroken_lines width level hlines, block_eq, List.flatMap_append, List.flatMap_cons,
    List.flatMap_map, List.flatMap_singleton, written]
  have hmargin : ∀ t u : Text, t.indented (level * width) ++ u = (t ++ u).indented (level * width) :=
    fun t u => List.append_assoc _ t u
  rw [List.append_assoc, List.append_assoc, List.append_assoc, hmargin, trimStart_indented, hstart]
  simp [ofString, endMark, indented]

theorem closes_written (n : Nat) (lines : List Text) :
    endMark <:+: written n lines ↔ ∃ line ∈ lines, endMark <:+: line := by
  have hstart : ¬ endMark <:+: ofString "*\n" := by decide
  have hend : ¬ endMark <:+: (ofString " ").indented n := by
    rw [closes_indented]
    decide
  have hmiddle : (lines.flatMap fun line => (blockLine line).indented n ++ ['\n']) =
      (lines.map fun line => (blockLine line).indented n).flatMap fun t => t ++ ['\n'] := by
    rw [List.flatMap_map]
  have hblank : ((ofString " ").indented n).head? ≠ some '/' := by
    cases n with
    | zero => decide
    | succ n =>
      show some ' ' ≠ some '/'
      decide
  rw [written, closes_append (Or.inr hblank), closes_append (Or.inl (by decide)), hmiddle,
    closes_lines, or_iff_left hend, or_iff_right hstart]
  simp only [List.mem_map, exists_exists_and_eq_and, closes_indented, closes_blockLine]

/-- Each line of a comment stands in the text that the comment was read from. -/
theorem infix_of_mem_readLines {t line : Text} (h : line ∈ readLines t) : line <:+: t := by
  obtain ⟨piece, hpiece, rfl⟩ := List.mem_map.1 ((List.dropWhile_sublist _).mem h)
  have htrim : trim t <:+: t := (prefix_trimEnd _).isInfix.trans (trimStart_suffix t).isInfix
  exact (infix_bareLine piece).trans ((infix_of_mem_split hpiece).trans htrim)

/-- The block of a comment holds an end mark at its end only, and is one block comment whatever
follows it, exactly if no line of the comment holds an end mark. That is so if the text of the
comment holds none. -/
theorem closed_block_iff (t : Text) (l : Location) :
    (ClosedAtEnd (read t l).block ↔ ∀ line ∈ (read t l).lines, ¬ endMark <:+: line) ∧
      (∀ width level after,
        CommentThen (trimStart ((⟨level, true⟩ : Pen).text width
          ((read t l).block.map .line) ++ after)) ('\n' :: after) ↔
        ∀ line ∈ (read t l).lines, ¬ endMark <:+: line) ∧
      (¬ endMark <:+: t → ∀ line ∈ (read t l).lines, ¬ endMark <:+: line) := by
  refine ⟨closedAtEnd_block_iff _, fun width level after => ?_, fun h line hline hmark => ?_⟩
  · rw [CommentThen.iff_of_eq (text_block (readLines_clean t).unbroken width level after),
      closes_written]
    simp only [not_exists, not_and]
  · exact h (hmark.trans (infix_of_mem_readLines hline))

def timerText : Text :=
  Text.ofString "Stops the timer. */ Never twice."

/-- A comment whose text holds an end mark ends there, and the rest of its line leaks out. -/
theorem timer_closed_early :
    ¬ ClosedAtEnd (read timerText .unknown).block ∧
      CommentThen ((⟨0, true⟩ : Pen).text 4 ((read timerText .unknown).block.map .line))
        (ofString " Never twice.\n */\n") := by
  have hline : timerText ∈ (read timerText .unknown).lines := by decide
  have hmark : endMark <:+: timerText :=
    ⟨ofString "Stops the timer. ", ofString " Never twice.", rfl⟩
  refine ⟨fun h => (closedAtEnd_block_iff _).1 h timerText hline hmark, ?_⟩
  refine ⟨ofString "*\n * Stops the timer. ", rfl, ?_⟩
  exact not_closes_iff_isChain.2 (by decide)

end DocComment

end FlatAidl
