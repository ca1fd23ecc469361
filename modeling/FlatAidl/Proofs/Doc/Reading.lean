import FlatAidl.Doc.Comment
import FlatAidl.Proofs.Text.Trimming

/-!
Reading a comment line by line. The blanks around the whole text make no difference to its lines,
except that the blank lines at its end are no lines of the comment; so a comment is read by reading
each line by itself.
-/

namespace FlatAidl

namespace DocComment

open Text

theorem dropOne_trimEnd (c : Char) (t : Text) : dropOne c (trimEnd t) = trimEnd (dropOne c t) := by
  cases t with
  | nil => rfl
  | cons x rest =>
    cases hrest : trimEnd rest with
    | nil =>
      by_cases hx : isBlank x = true <;> by_cases hc : x = c <;>
        simp [trimEnd, dropOne, hrest, hx, hc] <;> simp_all
    | cons d more => by_cases hc : x = c <;> simp [trimEnd, dropOne, hrest, hc]

theorem dropOne_of_head_ne {c x : Char} (h : x ≠ c) (t : Text) : dropOne c (x :: t) = x :: t :=
  if_neg h

theorem dropOne_suffix (c : Char) (t : Text) : dropOne c t <:+ t := by
  cases t with
  | nil => exact List.suffix_rfl
  | cons x rest =>
    rw [dropOne]
    split
    · exact List.suffix_cons x rest
    · exact List.suffix_rfl

theorem infix_bareLine (t : Text) : bareLine t <:+: t := by
  have hstart : dropOne ' ' (dropOne '*' (trimStart t)) <:+ t :=
    (dropOne_suffix ' ' _).trans ((dropOne_suffix '*' _).trans (trimStart_suffix t))
  exact (prefix_trimEnd _).isInfix.trans hstart.isInfix

theorem bareLine_sublist (t : Text) : (bareLine t).Sublist t :=
  (infix_bareLine t).sublist

theorem bareLine_cons_of_blank {c : Char} (h : isBlank c = true) (t : Text) :
    bareLine (c :: t) = bareLine t := by
  rw [bareLine, trimStart, if_pos h, bareLine]

theorem bareLine_trimEnd (t : Text) : bareLine (trimEnd t) = bareLine t := by
  rw [bareLine, ← trimEnd_trimStart, dropOne_trimEnd, dropOne_trimEnd, trimEnd_trimEnd, bareLine]

theorem trimEnd_bareLine (t : Text) : trimEnd (bareLine t) = bareLine t :=
  trimEnd_trimEnd _

theorem bareLine_concat_of_blank {c : Char} (h : isBlank c = true) (t : Text) :
    bareLine (t ++ [c]) = bareLine t := by
  rw [← bareLine_trimEnd, trimEnd_concat, if_pos h, bareLine_trimEnd]

/-- A line that starts with neither a blank nor a star loses the blanks at its end only. -/
theorem bareLine_of_lead {c : Char} (hblank : isBlank c = false) (hstar : c ≠ '*') (t : Text) :
    bareLine (c :: t) = trimEnd (c :: t) := by
  have hspace : c ≠ ' ' := by
    rintro rfl
    exact absurd hblank (by decide)
  have hstart : trimStart (c :: t) = c :: t := by
    rw [trimStart, if_neg (Bool.eq_false_iff.1 hblank)]
  rw [bareLine, hstart, dropOne_of_head_ne hstar, dropOne_of_head_ne hspace]

/-- A line without blanks at its end stays as it is exactly if neither a margin nor a star can be
taken from it. -/
theorem bareLine_eq_self_iff {line : Text} (h : trimEnd line = line) :
    bareLine line = line ↔ ∀ c, line.head? = some c → isBlank c = false ∧ c ≠ '*' := by
  cases line with
  | nil => simp [bareLine, trimStart, dropOne, trimEnd]
  | cons c rest =>
    have hkept : bareLine (c :: rest) = c :: rest → ¬(bareLine (c :: rest)).Sublist rest := by
      intro heq hsub
      have hlength := hsub.length_le
      rw [heq, List.length_cons] at hlength
      exact Nat.not_succ_le_self _ hlength
    constructor
    · intro heq d hd
      obtain rfl : c = d := Option.some.inj hd
      constructor
      · by_contra hblank
        refine hkept heq ?_
        rw [bareLine_cons_of_blank (Bool.not_eq_false _ ▸ hblank)]
        exact bareLine_sublist rest
      · rintro rfl
        exact hkept heq ((prefix_trimEnd _).sublist.trans (dropOne_suffix ' ' rest).sublist)
    · intro hlead
      obtain ⟨hblank, hstar⟩ := hlead c rfl
      rw [bareLine_of_lead hblank hstar, h]

/-- Blanks in front of the whole text change no line but empty ones at the start. -/
theorem bareLines_trimStart (t : Text) :
    ((split '\n' (trimStart t)).map bareLine).dropWhile List.isEmpty =
      ((split '\n' t).map bareLine).dropWhile List.isEmpty := by
  induction t with
  | nil => rfl
  | cons c rest ih =>
    by_cases hblank : isBlank c = true
    · rw [trimStart, if_pos hblank, ih]
      by_cases hbreak : c = '\n'
      · rw [hbreak, ← List.nil_append ('\n' :: rest), split_append_cons]
        rfl
      · obtain ⟨run, runs, hruns⟩ := List.exists_cons_of_ne_nil (pieces_ne_nil (· == '\n') rest)
        have hmore : split '\n' (c :: rest) = (c :: run) :: runs := by
          rw [split, pieces, if_neg (by simpa using hbreak), hruns]
        rw [hmore, split, hruns, List.map_cons, List.map_cons, bareLine_cons_of_blank hblank]
    · rw [trimStart, if_neg hblank]

/-- Blanks behind the whole text change nothing but that its last lines go if they are blank. -/
theorem bareLines_trimEnd (t : Text) :
    ((split '\n' (trimEnd t)).map bareLine).dropWhile List.isEmpty =
      (((split '\n' t).rdropWhile fun line => line.all isBlank).map bareLine).dropWhile
        List.isEmpty := by
  induction t using List.reverseRecOn with
  | nil => rfl
  | append_singleton t c ih =>
    -- A break starts an empty last line, a blank goes into the last line and leaves it as blank as
    -- it was, and anything else ends the trimming.
    by_cases hbreak : c = '\n'
    · subst hbreak
      rw [trimEnd_concat, if_pos (by decide), ih, split_append_cons,
        show split '\n' [] = [[]] from rfl, List.rdropWhile_concat_pos _ _ _ rfl]
    · obtain ⟨front, last, ht, hmore⟩ :=
        exists_pieces_concat (· == '\n') (by simpa using hbreak) t
      rw [show split '\n' (t ++ [c]) = front ++ [last ++ [c]] from hmore]
      rw [show split '\n' t = front ++ [last] from ht] at ih
      by_cases hblank : isBlank c = true
      · rw [trimEnd_concat, if_pos hblank, ih, List.rdropWhile_concat, List.rdropWhile_concat]
        by_cases hlast : last.all isBlank = true
        · simp [hlast, hblank]
        · simp [hlast, bareLine_concat_of_blank hblank]
      · rw [trimEnd_concat, if_neg hblank, show split '\n' (t ++ [c]) = _ from hmore,
          List.rdropWhile_concat_neg]
        simp [hblank]

/-- A comment is read line by line, without the blank lines at its end and then without the lines
at its start of which nothing is left. -/
theorem readLines_eq (t : Text) :
    readLines t =
      (((split '\n' t).rdropWhile fun line => line.all isBlank).map bareLine).dropWhile
        List.isEmpty := by
  rw [readLines, trim, trimEnd_trimStart, bareLines_trimStart, bareLines_trimEnd]

/-- Lines that reading leaves: no line break in any, and no blanks at the end. -/
structure Clean (lines : List Text) : Prop where
  unbroken : ∀ line ∈ lines, '\n' ∉ line
  trimmed : ∀ line ∈ lines, trimEnd line = line

theorem readLines_clean (t : Text) : Clean (readLines t) := by
  have hbare : ∀ line ∈ readLines t, ∃ piece ∈ split '\n' (trim t), bareLine piece = line :=
    fun line h => List.mem_map.1 ((List.dropWhile_sublist _).mem h)
  refine ⟨fun line h => ?_, fun line h => ?_⟩
  · obtain ⟨piece, hpiece, rfl⟩ := hbare line h
    exact fun hbreak => not_mem_of_mem_split hpiece ((bareLine_sublist piece).mem hbreak)
  · obtain ⟨piece, _, rfl⟩ := hbare line h
    exact trimEnd_bareLine piece

end DocComment

end FlatAidl
