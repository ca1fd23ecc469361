import FlatAidl.Proofs.Doc.Reading
import FlatAidl.Proofs.Layout.Indentation

/-!
Reading undoes writing. The lines of a comment block are read as the lines that the block was made
of, wherever the block stands: its margin and its star are taken off once, and what follows is kept,
be it a blank, another star or nothing.
-/

namespace FlatAidl

namespace DocComment

open Text

theorem blockLine_eq (line : Text) :
    blockLine line = ofString " *" ∨ blockLine line = ofString " * " ++ line := by
  rw [blockLine]
  split
  · exact Or.inl rfl
  · exact Or.inr rfl

theorem blockLine_ne_nil (line : Text) : blockLine line ≠ [] := by
  obtain h | h := blockLine_eq line
  · rw [h]
    exact List.cons_ne_nil _ _
  · rw [h]
    exact List.cons_ne_nil _ _

theorem blockLine_unbroken {line : Text} (h : '\n' ∉ line) : '\n' ∉ blockLine line := by
  obtain hline | hline := blockLine_eq line
  · rw [hline]
    decide
  · rw [hline, List.mem_append, not_or]
    exact ⟨by decide, h⟩

theorem blockLine_not_blank (line : Text) : (blockLine line).all isBlank = false := by
  have hstar : '*' ∈ blockLine line := by
    obtain hline | hline := blockLine_eq line
    · rw [hline]
      decide
    · rw [hline]
      exact List.mem_append_left _ (by decide)
  exact List.all_eq_false.2 ⟨'*', hstar, by decide⟩

theorem bareLine_indented (n : Nat) (line : Text) : bareLine (line.indented n) = bareLine line := by
  induction n with
  | zero => rfl
  | succ n ih =>
    have hblank : isBlank ' ' = true := by decide
    exact (bareLine_cons_of_blank hblank _).trans ih

theorem bareLine_blockLine {line : Text} (h : trimEnd line = line) :
    bareLine (blockLine line) = line := by
  rw [blockLine]
  cases line with
  | nil => decide
  | cons c rest =>
    have hblank : isBlank ' ' = true := by decide
    have hstart : trimStart ('*' :: ' ' :: c :: rest) = '*' :: ' ' :: c :: rest :=
      if_neg (by decide)
    change bareLine (' ' :: '*' :: ' ' :: c :: rest) = c :: rest
    rw [bareLine_cons_of_blank hblank, bareLine, hstart, dropOne, if_pos rfl, dropOne, if_pos rfl, h]

theorem readLines_dropWhile (t : Text) : (readLines t).dropWhile List.isEmpty = readLines t := by
  rw [readLines]
  exact List.dropWhile_idempotent _ _

/-- A text is read as the lines that it was written from, if it falls apart into the indented lines
of their block with nothing but blank lines behind them. -/
theorem readLines_of_split {t u : Text} (n : Nat) (tail : List Text)
    (hsplit : split '\n' u = (readLines t).map (fun line => (blockLine line).indented n) ++ tail)
    (htail : ∀ line ∈ tail, line.all isBlank = true) : readLines u = readLines t := by
  have hkept : (split '\n' u).rdropWhile (fun line => line.all isBlank) =
      (readLines t).map fun line => (blockLine line).indented n := by
    rw [hsplit, List.rdropWhile, List.reverse_append,
      List.dropWhile_append_of_pos (by simpa using htail)]
    refine List.rdropWhile_eq_self_iff.2 fun hne => ?_
    obtain ⟨line, _, hline⟩ := List.mem_map.1 (List.getLast_mem hne)
    rw [← hline, indented, List.all_append, blockLine_not_blank, Bool.and_false]
    exact Bool.false_ne_true
  have hbare : ((readLines t).map fun line => (blockLine line).indented n).map bareLine =
      readLines t := by
    rw [List.map_map]
    refine (List.map_congr_left fun line hline => ?_).trans (List.map_id _)
    rw [Function.comp_apply, bareLine_indented, bareLine_blockLine]
    · rfl
    · exact (readLines_clean t).trimmed line hline
  rw [readLines_eq u, hkept, hbare, readLines_dropWhile]

theorem blockLine_unbroken_of_mem {t line : Text} (h : line ∈ readLines t) :
    '\n' ∉ blockLine line :=
  blockLine_unbroken ((readLines_clean t).unbroken line h)

theorem readLines_join_block (t : Text) (n : Nat) :
    readLines (join ['\n'] (((readLines t).map blockLine).map (Text.indented n))) = readLines t := by
  by_cases hnone : readLines t = []
  · refine readLines_of_split n [[]] ?_ (by simp)
    rw [hnone]
    rfl
  · refine readLines_of_split n [] ?_ (by simp)
    rw [split_join '\n' (by simpa using hnone), List.map_map, List.append_nil, List.flatMap_map,
      List.map_eq_flatMap]
    refine List.flatMap_congr fun line hline => split_of_not_mem ?_
    exact not_mem_indented n (blockLine_unbroken_of_mem hline)

/-- A pen ends the last line too, which leaves an empty line that is not read. -/
theorem readLines_text_block (t : Text) (width level : Nat) :
    readLines ((⟨level, true⟩ : Pen).text width
      (((readLines t).map blockLine).map WritingStep.line)) = readLines t := by
  have hlines : ∀ line ∈ (readLines t).map blockLine, line ≠ [] ∧ '\n' ∉ line := by
    intro line hline
    obtain ⟨text, htext, rfl⟩ := List.mem_map.1 hline
    exact ⟨blockLine_ne_nil text, blockLine_unbroken_of_mem htext⟩
  refine readLines_of_split (level * width) [[]] ?_ (by simp)
  rw [← List.append_nil (List.map WritingStep.line _), Pen.split_text_lines,
    Pen.flatMap_split_write width level hlines, List.map_map]
  rfl

/-- The block of a comment that was read, without its first and its last line, is read as the same
lines. That holds at every indentation, for lines put together by line breaks and for lines as a pen
writes them. -/
theorem read_block (t : Text) (l l' : Location) :
    (∀ n, (read (join ['\n'] ((read t l).block.tail.dropLast.map (Text.indented n))) l').lines =
      (read t l).lines) ∧
    ∀ width level, (read ((⟨level, true⟩ : Pen).text width
      ((read t l).block.tail.dropLast.map WritingStep.line)) l').lines = (read t l).lines := by
  have hinner : (read t l).block.tail.dropLast = (readLines t).map blockLine :=
    List.dropLast_concat ..
  rw [hinner]
  exact ⟨readLines_join_block t, readLines_text_block t⟩

/-- A second star, an empty line and further blanks are kept. -/
theorem stars_read_again :
    let d := read (ofString "** stars\n *\n *   blanks \n") .unknown
    d.lines = [ofString "* stars", [], ofString "  blanks"] ∧
      (read (join ['\n'] (d.block.tail.dropLast.map (Text.indented 4))) .generated).lines = d.lines ∧
      (read ((⟨2, true⟩ : Pen).text 4 (d.block.tail.dropLast.map WritingStep.line))
        .generated).lines = d.lines := by
  obtain ⟨hjoined, hwritten⟩ :=
    read_block (ofString "** stars\n *\n *   blanks \n") .unknown .generated
  exact ⟨by decide, hjoined 4, hwritten 4 2⟩

end DocComment

end FlatAidl
