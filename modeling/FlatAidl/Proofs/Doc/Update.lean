import FlatAidl.Doc.Returns
import FlatAidl.Proofs.Doc.Reading

/-!
A comment after its results have changed, line by line. The new text is read as a comment of its
own, so a line that describes no result is read a second time; what a first reading has left of a
margin or of stars is lost then.
-/

namespace FlatAidl

namespace DocComment

open Text

section Lists

variable {α β : Type} {p : β → Bool} {q : α → Bool} {f : α → List β}

theorem dropWhile_flatMap {l : List α} (hdrop : ∀ a ∈ l, q a = true → ∀ b ∈ f a, p b = true)
    (hkeep : ∀ a ∈ l, q a = false → ∃ b rest, f a = b :: rest ∧ p b = false) :
    (l.flatMap f).dropWhile p = (l.dropWhile q).flatMap f := by
  induction l with
  | nil => rfl
  | cons a l ih =>
    have hrest := ih (fun x hx => hdrop x (List.mem_cons_of_mem a hx))
      fun x hx => hkeep x (List.mem_cons_of_mem a hx)
    cases hq : q a with
    | true =>
      rw [List.flatMap_cons, List.dropWhile_append_of_pos (hdrop a (List.mem_cons_self ..) hq),
        hrest, List.dropWhile_cons_of_pos hq]
    | false =>
      obtain ⟨b, rest, hf, hb⟩ := hkeep a (List.mem_cons_self ..) hq
      rw [List.dropWhile_cons_of_neg (Bool.eq_false_iff.1 hq), List.flatMap_cons, hf,
        List.cons_append, List.dropWhile_cons_of_neg (Bool.eq_false_iff.1 hb)]

theorem rdropWhile_flatMap {l : List α} (hdrop : ∀ a ∈ l, q a = true → ∀ b ∈ f a, p b = true)
    (hkeep : ∀ a ∈ l, q a = false → ∃ front b, f a = front ++ [b] ∧ p b = false) :
    (l.flatMap f).rdropWhile p = (l.rdropWhile q).flatMap f := by
  have hback : (l.reverse.flatMap fun a => (f a).reverse).dropWhile p =
      (l.reverse.dropWhile q).flatMap fun a => (f a).reverse := by
    refine dropWhile_flatMap (fun a ha hq b hb => ?_) fun a ha hq => ?_
    · exact hdrop a (List.mem_reverse.1 ha) hq b (List.mem_reverse.1 hb)
    · obtain ⟨front, b, hf, hb⟩ := hkeep a (List.mem_reverse.1 ha) hq
      exact ⟨b, front.reverse, by rw [hf, List.reverse_concat], hb⟩
  rw [List.rdropWhile, List.reverse_flatMap, Function.comp_def, hback, List.reverse_flatMap,
    List.rdropWhile]
  simp [Function.comp_def]

end Lists

/-- What a line can be put together from: texts that are not empty, have no blanks at their ends and
hold no line break. -/
structure LinePart (t : Text) : Prop where
  nonempty : t ≠ []
  trimmed : trimEnd t = t
  unbroken : '\n' ∉ t

theorem linePart_of_mem_words {line w : Text} (h : w ∈ words line) : LinePart w := by
  refine ⟨(mem_words h).1, trimEnd_of_mem_words h, fun hbreak => ?_⟩
  exact absurd ((mem_words h).2 '\n' hbreak) (by decide)

theorem linePart_join {t : Text} {ts : List Text} (ht : LinePart t) (hts : ∀ u ∈ ts, LinePart u) :
    LinePart (join [' '] (t :: ts)) := by
  have h : ∀ u ∈ t :: ts, LinePart u := List.forall_mem_cons.2 ⟨ht, hts⟩
  refine ⟨join_ne_nil (List.cons_ne_nil t ts) fun u hu => (h u hu).nonempty,
    trimEnd_join fun u hu => ⟨(h u hu).nonempty, (h u hu).trimmed⟩, fun hbreak => ?_⟩
  rcases mem_join hbreak with hbreak | ⟨u, hu, hbreak⟩
  · exact absurd hbreak (by decide)
  · exact (h u hu).unbroken hbreak

theorem exists_join_eq_append (sep t : Text) (ts : List Text) :
    ∃ more, join sep (t :: ts) = t ++ more := by
  cases ts with
  | nil => exact ⟨[], (List.append_nil t).symm⟩
  | cons u rest => exact ⟨sep ++ join sep (u :: rest), List.append_assoc ..⟩

/-- The name and the words after it in a line that describes a result. -/
def described? (line : Text) : Option (Text × List Text) :=
  match words line with
  | tag :: name :: rest => if tag = returnTag then some (name, rest) else none
  | _ => none

def removalLine : Text :=
  Text.ofString "The following return was removed"

def outTag : Text :=
  Text.ofString "@param out"

/-- The lines that take the place of a result's description. -/
def resultLines (fate : Option ResultFate) (name : Text) (rest : List Text) : List Text :=
  match fate with
  | some .returned => [join [' '] (returnTag :: rest)]
  | some .dropped => [removalLine, join [' '] (returnTag :: name :: rest)]
  | none => [join [' '] (outTag :: name :: rest)]

/-- The lines that take the place of a line. -/
def renewed (changes : List ResultChange) (line : Text) : List Text :=
  match described? line with
  | some (name, rest) => resultLines (ResultChange.find? changes name) name rest
  | none => [bareLine line]

theorem words_of_described {line name : Text} {rest : List Text}
    (h : described? line = some (name, rest)) : words line = returnTag :: name :: rest := by
  rw [described?] at h
  split at h
  · next tag name' rest' hwords =>
    split at h
    · next htag =>
      cases h
      rw [hwords, htag]
    · cases h
  · cases h

theorem linePart_of_described {line name : Text} {rest : List Text}
    (h : described? line = some (name, rest)) : ∀ w ∈ name :: rest, LinePart w := by
  intro w hw
  have hword : w ∈ words line := by
    rw [words_of_described h]
    exact List.mem_cons_of_mem _ hw
  exact linePart_of_mem_words hword

theorem updateLine_of_described (changes : List ResultChange) {line name : Text} {rest : List Text}
    (h : described? line = some (name, rest)) :
    updateLine changes line =
      join [' '] (describeResult (ResultChange.find? changes name) name rest) := by
  rw [updateLine, words_of_described h]
  exact if_pos rfl

theorem updateLine_of_plain (changes : List ResultChange) {line : Text}
    (h : described? line = none) : updateLine changes line = line := by
  rw [described?] at h
  rw [updateLine]
  split
  · next tag name rest hwords =>
    by_cases htag : tag = returnTag
    · simp [hwords, htag] at h
    · rw [if_neg htag]
  · rfl

theorem renewed_of_described (changes : List ResultChange) {line name : Text} {rest : List Text}
    (h : described? line = some (name, rest)) :
    renewed changes line = resultLines (ResultChange.find? changes name) name rest := by
  rw [renewed, h]

theorem renewed_of_plain (changes : List ResultChange) {line : Text} (h : described? line = none) :
    renewed changes line = [bareLine line] := by
  rw [renewed, h]

section Described

variable {name : Text} {rest : List Text}

/-- The line that a tag and the words after it make. -/
theorem tagged_line {c : Char} {tag : Text} {ws : List Text} (hblank : isBlank c = false)
    (hstar : c ≠ '*') (htag : LinePart (c :: tag)) (hws : ∀ w ∈ ws, LinePart w) :
    LinePart (join [' '] ((c :: tag) :: ws)) ∧
      bareLine (join [' '] ((c :: tag) :: ws)) = join [' '] ((c :: tag) :: ws) := by
  have hpart : LinePart (join [' '] ((c :: tag) :: ws)) := linePart_join htag hws
  refine ⟨hpart, ?_⟩
  obtain ⟨more, hmore⟩ := exists_join_eq_append [' '] (c :: tag) ws
  rw [hmore, List.cons_append, bareLine_of_lead hblank hstar, ← List.cons_append, ← hmore,
    hpart.trimmed]

theorem bareLines_of_part {t : Text} (h : LinePart t) (hbare : bareLine t = t) :
    (split '\n' t).map bareLine = [t] := by
  rw [split_of_not_mem h.unbroken, List.map_singleton, hbare]

theorem linePart_returnTag : LinePart returnTag := by
  refine ⟨?_, ?_, ?_⟩ <;> decide

theorem linePart_outTag : LinePart outTag := by
  refine ⟨?_, ?_, ?_⟩ <;> decide

theorem join_droppedRemark (ws : List Text) :
    join [' '] (droppedRemark :: returnTag :: ws) =
      removalLine ++ '\n' :: ' ' :: join [' '] (returnTag :: ws) := by
  rw [join_cons (List.cons_ne_nil _ _), show droppedRemark = removalLine ++ ['\n'] from rfl]
  simp

/-- A result's new description, read again, has the lines that it was put together from. -/
theorem bareLines_describeResult (fate : Option ResultFate) (h : ∀ w ∈ name :: rest, LinePart w) :
    (split '\n' (join [' '] (describeResult fate name rest))).map bareLine =
      resultLines fate name rest := by
  have hrest : ∀ w ∈ rest, LinePart w := fun w hw => h w (List.mem_cons_of_mem name hw)
  match fate with
  | some .returned =>
    obtain ⟨hpart, hbare⟩ := tagged_line (by decide) (by decide) linePart_returnTag hrest
    exact bareLines_of_part hpart hbare
  | some .dropped =>
    -- The remark ends its own line, so the tag comes to stand behind the blank of the next one.
    obtain ⟨hpart, hbare⟩ := tagged_line (by decide) (by decide) linePart_returnTag h
    have hspaced : '\n' ∉ ' ' :: join [' '] (returnTag :: name :: rest) :=
      List.not_mem_cons_of_ne_of_not_mem (by decide) hpart.unbroken
    rw [describeResult, join_droppedRemark, split_append_cons, split_of_not_mem hspaced,
      split_of_not_mem (show '\n' ∉ removalLine by decide), List.singleton_append, List.map_cons,
      List.map_singleton, bareLine_cons_of_blank (by decide), resultLines]
    exact congrArg₂ (fun first second => [first, second]) (by decide) hbare
  | none =>
    obtain ⟨hpart, hbare⟩ := tagged_line (by decide) (by decide) linePart_outTag h
    exact bareLines_of_part hpart hbare

theorem describeResult_trimmed (fate : Option ResultFate) (h : ∀ w ∈ name :: rest, LinePart w) :
    trimEnd (join [' '] (describeResult fate name rest)) =
        join [' '] (describeResult fate name rest) ∧
      join [' '] (describeResult fate name rest) ≠ [] := by
  have hrest : ∀ w ∈ rest, LinePart w := fun w hw => h w (List.mem_cons_of_mem name hw)
  match fate with
  | some .returned =>
    have hpart := linePart_join linePart_returnTag hrest
    exact ⟨hpart.trimmed, hpart.nonempty⟩
  | some .dropped =>
    have hpart := linePart_join linePart_returnTag h
    rw [describeResult, join_cons (List.cons_ne_nil _ _)]
    exact ⟨trimEnd_append hpart.trimmed hpart.nonempty,
      List.append_ne_nil_of_right_ne_nil _ hpart.nonempty⟩
  | none =>
    have hpart := linePart_join linePart_outTag h
    exact ⟨hpart.trimmed, hpart.nonempty⟩

/-- Only a result with no record of a change becomes an out parameter in its description. -/
theorem resultLines_eq_out_iff {fate : Option ResultFate} :
    resultLines fate name rest = [join [' '] (outTag :: name :: rest)] ↔ fate = none := by
  match fate with
  | some .returned =>
    obtain ⟨more, hmore⟩ := exists_join_eq_append [' '] returnTag rest
    obtain ⟨more', hmore'⟩ := exists_join_eq_append [' '] outTag (name :: rest)
    have hne : returnTag ++ more ≠ outTag ++ more' := by
      intro h
      have hsecond : some 'r' = some 'p' := congrArg (fun t : Text => t[1]?) h
      exact absurd hsecond (by decide)
    simp [resultLines, hmore, hmore', hne]
  | some .dropped => simp [resultLines]
  | none => simp [resultLines]

/-- No line that takes a description's place is empty. -/
theorem resultLines_ne_nil (fate : Option ResultFate) (h : ∀ w ∈ name :: rest, LinePart w) :
    ∃ first more, resultLines fate name rest = first :: more ∧ first ≠ [] := by
  have hrest : ∀ w ∈ rest, LinePart w := fun w hw => h w (List.mem_cons_of_mem name hw)
  match fate with
  | some .returned =>
    exact ⟨_, [], rfl, (linePart_join linePart_returnTag hrest).nonempty⟩
  | some .dropped => exact ⟨removalLine, _, rfl, by decide⟩
  | none => exact ⟨_, [], rfl, (linePart_join linePart_outTag h).nonempty⟩

end Described

theorem bareLines_updateLine (changes : List ResultChange) {line : Text} (h : '\n' ∉ line) :
    (split '\n' (updateLine changes line)).map bareLine = renewed changes line := by
  cases hline : described? line with
  | none =>
    rw [updateLine_of_plain changes hline, renewed_of_plain changes hline, split_of_not_mem h]
    rfl
  | some description =>
    obtain ⟨name, rest⟩ := description
    rw [updateLine_of_described changes hline, renewed_of_described changes hline]
    exact bareLines_describeResult _ (linePart_of_described hline)

theorem updateLine_trimmed (changes : List ResultChange) {line : Text} (h : trimEnd line = line)
    (hne : line ≠ []) :
    trimEnd (updateLine changes line) = updateLine changes line ∧ updateLine changes line ≠ [] := by
  cases hline : described? line with
  | none =>
    rw [updateLine_of_plain changes hline]
    exact ⟨h, hne⟩
  | some description =>
    obtain ⟨name, rest⟩ := description
    rw [updateLine_of_described changes hline]
    exact describeResult_trimmed _ (linePart_of_described hline)

/-- The last line of a text without blanks at its end is not blank. -/
theorem exists_split_of_trimmed {t : Text} (h : trimEnd t = t) (hne : t ≠ []) :
    ∃ front last, split '\n' t = front ++ [last] ∧ last.all isBlank = false := by
  induction t using List.reverseRecOn with
  | nil => exact absurd rfl hne
  | append_singleton t c _ =>
    have hblank : isBlank c = false := by
      rw [trimEnd_eq_rdropWhile, List.rdropWhile_eq_self_iff] at h
      simpa using h hne
    have hbreak : (c == '\n') = false := by
      rw [beq_eq_false_iff_ne]
      rintro rfl
      exact absurd hblank (by decide)
    obtain ⟨front, last, _, hlast⟩ := exists_pieces_concat (· == '\n') hbreak t
    exact ⟨front, last ++ [c], hlast, by simp [hblank]⟩

/-- The lines of an updated comment: the empty lines at its end are left out, then every line is
renewed by itself, and then the empty lines at the start are left out. -/
theorem update_lines {d : DocComment} (h : Clean d.lines) (changes : List ResultChange) :
    (d.update changes).lines =
      ((d.lines.rdropWhile List.isEmpty).flatMap (renewed changes)).dropWhile List.isEmpty := by
  by_cases hnone : d.lines = []
  · rw [hnone, update, hnone]
    rfl
  · have hne : d.lines.map (updateLine changes) ≠ [] := by simpa using hnone
    have hback : (d.lines.flatMap fun line => split '\n' (updateLine changes line)).rdropWhile
          (fun line => line.all isBlank) =
        (d.lines.rdropWhile List.isEmpty).flatMap fun line =>
          split '\n' (updateLine changes line) := by
      refine rdropWhile_flatMap (fun line _ hempty => ?_) fun line hline hkept => ?_
      · rw [List.isEmpty_iff.1 hempty]
        exact List.forall_mem_singleton.2 rfl
      · have hnonempty : line ≠ [] := by
          rintro rfl
          cases hkept
        obtain ⟨htrimmed, hupdated⟩ := updateLine_trimmed changes (h.trimmed line hline) hnonempty
        exact exists_split_of_trimmed htrimmed hupdated
    rw [update, read, readLines_eq, split_join '\n' hne, List.flatMap_map, hback, List.map_flatMap]
    refine congrArg (List.dropWhile List.isEmpty) (List.flatMap_congr fun line hline => ?_)
    have hkept : d.lines.rdropWhile List.isEmpty <+: d.lines :=
      List.rdropWhile_prefix List.isEmpty d.lines
    exact bareLines_updateLine changes (h.unbroken line (hkept.mem hline))

theorem plain_sublist_renewed (changes : List ResultChange) (lines : List Text) :
    ((lines.filter fun line => (described? line).isNone).map bareLine).Sublist
      (lines.flatMap (renewed changes)) := by
  induction lines with
  | nil => exact List.Sublist.refl []
  | cons line rest ih =>
    rw [List.flatMap_cons]
    cases hline : described? line with
    | none =>
      rw [List.filter_cons_of_pos (by rw [hline]; rfl), renewed_of_plain changes hline]
      exact ih.cons_cons (bareLine line)
    | some description =>
      rw [List.filter_cons_of_neg (by rw [hline]; exact Bool.false_ne_true)]
      exact ih.trans (List.sublist_append_right _ _)

/-- The lines of which nothing is left when they are renewed. -/
def vanishes (changes : List ResultChange) (line : Text) : Bool :=
  decide (renewed changes line = [[]])

theorem renewed_of_not_vanishes {changes : List ResultChange} {line : Text}
    (h : vanishes changes line = false) :
    ∃ first more, renewed changes line = first :: more ∧ first.isEmpty = false := by
  cases hline : described? line with
  | none =>
    refine ⟨bareLine line, [], renewed_of_plain changes hline, ?_⟩
    rw [vanishes, renewed_of_plain changes hline] at h
    simpa using h
  | some description =>
    obtain ⟨name, rest⟩ := description
    obtain ⟨first, more, hlines, hne⟩ :=
      resultLines_ne_nil (ResultChange.find? changes name) (linePart_of_described hline)
    rw [renewed_of_described changes hline]
    exact ⟨first, more, hlines, by simpa using hne⟩

theorem bareLine_of_vanishes {changes : List ResultChange} {line : Text}
    (h : vanishes changes line = true) : described? line = none ∧ bareLine line = [] := by
  have hnothing : renewed changes line = [[]] := of_decide_eq_true h
  cases hline : described? line with
  | none =>
    rw [renewed_of_plain changes hline] at hnothing
    exact ⟨rfl, List.singleton_inj.1 hnothing⟩
  | some description =>
    obtain ⟨name, rest⟩ := description
    obtain ⟨first, more, hlines, hne⟩ :=
      resultLines_ne_nil (ResultChange.find? changes name) (linePart_of_described hline)
    rw [renewed_of_described changes hline, hlines] at hnothing
    exact absurd (List.cons.inj hnothing).1 hne

/-- An update keeps a stretch of the lines: in front of it are lines of which nothing is left, behind
it are empty ones. -/
theorem update_keeps {d : DocComment} (h : Clean d.lines) (changes : List ResultChange) :
    ∃ front kept back, d.lines = front ++ kept ++ back ∧
      (∀ line ∈ front, described? line = none ∧ bareLine line = []) ∧
      (∀ line ∈ back, line = []) ∧
      (d.update changes).lines = kept.flatMap (renewed changes) := by
  refine ⟨(d.lines.rdropWhile List.isEmpty).takeWhile (vanishes changes),
    (d.lines.rdropWhile List.isEmpty).dropWhile (vanishes changes),
    d.lines.rtakeWhile List.isEmpty, ?_, fun line hline => ?_, fun line hline => ?_, ?_⟩
  · rw [List.takeWhile_append_dropWhile, List.rdropWhile_append_rtakeWhile]
  · exact bareLine_of_vanishes (List.mem_takeWhile_imp hline)
  · exact List.isEmpty_iff.1 (List.mem_rtakeWhile_imp hline)
  · rw [update_lines h]
    refine dropWhile_flatMap (fun line _ hnothing first hfirst => ?_) fun line _ hkept =>
      renewed_of_not_vanishes hkept
    rw [of_decide_eq_true hnothing, List.mem_singleton] at hfirst
    rw [hfirst]
    rfl

/-- What takes the place of a description stands together in the updated comment. -/
theorem renewed_infix_update {d : DocComment} (h : Clean d.lines) (changes : List ResultChange)
    {line name : Text} {rest : List Text} (hline : line ∈ d.lines)
    (hdescribed : described? line = some (name, rest)) :
    renewed changes line <:+: (d.update changes).lines := by
  obtain ⟨front, kept, back, hlines, hfront, hback, hupdated⟩ := update_keeps h changes
  have hkept : line ∈ kept := by
    rw [hlines, List.mem_append, List.mem_append] at hline
    rcases hline with (hline | hline) | hline
    · rw [(hfront line hline).1] at hdescribed
      cases hdescribed
    · exact hline
    · rw [hback line hline] at hdescribed
      cases hdescribed
  obtain ⟨before, after, hsplit⟩ := List.append_of_mem hkept
  rw [hupdated, hsplit, List.flatMap_append, List.flatMap_cons, ← List.append_assoc]
  exact List.infix_append _ _ _

/-- An update keeps the lines that describe no result, in their order, but each as a second reading
leaves it: unchanged if it starts with neither a blank nor a star, and shorter otherwise. Only lines
at the start of which nothing is left and the empty lines at the end are not kept. -/
theorem update_rereads_plain_lines (t : Text) (l : Location) (changes : List ResultChange) :
    ∃ front kept back, (read t l).lines = front ++ kept ++ back ∧
      (∀ line ∈ front, described? line = none ∧ bareLine line = []) ∧
      (∀ line ∈ back, line = []) ∧
      ((read t l).update changes).lines = kept.flatMap (renewed changes) ∧
      ((kept.filter fun line => (described? line).isNone).map bareLine).Sublist
        ((read t l).update changes).lines ∧
      ∀ line ∈ (read t l).lines,
        (bareLine line = line ↔ ∀ c, line.head? = some c → isBlank c = false ∧ c ≠ '*') ∧
        (bareLine line ≠ line → (bareLine line).length < line.length) := by
  have hclean : Clean (read t l).lines := readLines_clean t
  obtain ⟨front, kept, back, hlines, hfront, hback, hupdated⟩ := update_keeps hclean changes
  refine ⟨front, kept, back, hlines, hfront, hback, hupdated, ?_, fun line hline => ⟨?_, ?_⟩⟩
  · rw [hupdated]
    exact plain_sublist_renewed changes kept
  · exact bareLine_eq_self_iff (hclean.trimmed line hline)
  · intro hne
    refine Nat.lt_of_le_of_ne (bareLine_sublist line).length_le fun hlength => ?_
    exact hne ((bareLine_sublist line).eq_of_length hlength)

def optionsText : Text :=
  Text.ofString "Options:\n *   fast\n * * slow\n *"

/-- No line describes a result, but an update without any change takes the margin of one line, the
star of another and the empty line at the end. -/
theorem options_lose_margin_and_star :
    (read optionsText Location.unknown).lines =
        ["Options:", "  fast", "* slow", ""].map Text.ofString ∧
      (∀ line ∈ (read optionsText Location.unknown).lines, described? line = none) ∧
      ((read optionsText Location.unknown).update []).lines =
        ["Options:", "fast", "slow"].map Text.ofString ∧
      ¬ (read optionsText Location.unknown).lines.Sublist
        ((read optionsText Location.unknown).update []).lines := by
  decide

end DocComment

end FlatAidl
