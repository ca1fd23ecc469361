import FlatAidl.Package.Resolution
import FlatAidl.Proofs.Text.Lines

/-!
Cuts at the first separator. What stands in front of a cut holds no separator, and that decides the
place of the cut; a mark of several characters is found where its first character first occurs, if
the mark stands there.
-/

namespace FlatAidl

namespace Text

theorem cut?_append_cons {c : Char} {s : Text} (h : c ∉ s) (u : Text) :
    cut? c (s ++ c :: u) = some (s, u) := by
  induction s with
  | nil => simp [cut?]
  | cons x s ih =>
    rw [List.mem_cons, not_or] at h
    have hx : x ≠ c := Ne.symm h.1
    rw [List.cons_append, cut?, if_neg hx, ih h.2]
    rfl

theorem eq_of_cut? {c : Char} {t s u : Text} (h : cut? c t = some (s, u)) : t = s ++ c :: u := by
  induction t generalizing s with
  | nil => cases h
  | cons x rest ih =>
    rw [cut?] at h
    by_cases hx : x = c
    · rw [if_pos hx] at h
      cases h
      rw [hx, List.nil_append]
    · rw [if_neg hx] at h
      obtain ⟨parts, hparts, heq⟩ := Option.map_eq_some_iff.1 h
      cases heq
      rw [ih hparts, List.cons_append]

/-- What is in front of a cut holds no separator, and that decides where the cut is. -/
theorem cut?_eq_some_iff {c : Char} {t s u : Text} :
    cut? c t = some (s, u) ↔ c ∉ s ∧ t = s ++ c :: u := by
  constructor
  · intro h
    refine ⟨?_, eq_of_cut? h⟩
    induction t generalizing s with
    | nil => cases h
    | cons x rest ih =>
      rw [cut?] at h
      by_cases hx : x = c
      · rw [if_pos hx] at h
        cases h
        exact List.not_mem_nil
      · rw [if_neg hx] at h
        obtain ⟨parts, hparts, heq⟩ := Option.map_eq_some_iff.1 h
        cases heq
        rw [List.mem_cons, not_or]
        exact ⟨Ne.symm hx, ih hparts⟩
  · rintro ⟨hs, rfl⟩
    exact cut?_append_cons hs u

theorem cut?_of_not_mem {c : Char} {t : Text} (h : c ∉ t) : cut? c t = none := by
  cases hcut : cut? c t with
  | none => rfl
  | some parts =>
    rw [eq_of_cut? hcut] at h
    simp at h

/-! ### Marks -/

theorem dropLead?_append (lead t : Text) : dropLead? lead (lead ++ t) = some t := by
  induction lead with
  | nil => rfl
  | cons a lead ih => rw [List.cons_append, dropLead?, if_pos rfl, ih]

theorem dropTail?_append (rest tail : Text) : dropTail? tail (rest ++ tail) = some rest := by
  rw [dropTail?, List.reverse_append, dropLead?_append, Option.map_some, List.reverse_reverse]

theorem endsWith_iff {tail t : Text} : endsWith tail t = true ↔ tail <:+ t := by
  rw [endsWith, Option.isSome_iff_exists]
  constructor
  · intro h
    obtain ⟨rest, hrest⟩ := h
    exact ⟨rest, (dropTail?_eq_some hrest).symm⟩
  · intro h
    obtain ⟨rest, hrest⟩ := h
    exact ⟨rest, by rw [← hrest, dropTail?_append]⟩

theorem eq_of_cutAt? {mark t s u : Text} (h : cutAt? mark t = some (s, u)) :
    t = s ++ mark ++ u := by
  induction t generalizing s with
  | nil =>
    obtain ⟨rest, hrest, heq⟩ := Option.map_eq_some_iff.1 h
    cases heq
    exact dropLead?_eq_some hrest
  | cons x t ih =>
    rw [cutAt?] at h
    cases hlead : dropLead? mark (x :: t) with
    | some rest =>
      rw [hlead] at h
      cases h
      exact dropLead?_eq_some hlead
    | none =>
      rw [hlead] at h
      obtain ⟨parts, hparts, heq⟩ := Option.map_eq_some_iff.1 h
      cases heq
      rw [ih hparts]
      rfl

theorem cutAt?_eq_none_iff {mark t : Text} : cutAt? mark t = none ↔ ¬ mark <:+: t := by
  constructor
  · intro h hmark
    induction t with
    | nil =>
      rw [List.infix_nil.1 hmark] at h
      cases h
    | cons x t ih =>
      rw [cutAt?] at h
      split at h
      · cases h
      · next hlead =>
        rcases List.infix_cons_iff.1 hmark with hstart | hlater
        · obtain ⟨rest, hrest⟩ := hstart
          rw [← hrest, dropLead?_append] at hlead
          cases hlead
        · exact ih (Option.map_eq_none_iff.1 h) hlater
  · intro h
    cases hcut : cutAt? mark t with
    | none => rfl
    | some parts => exact absurd ⟨parts.1, parts.2, (eq_of_cutAt? hcut).symm⟩ h

theorem dropLead?_of_ne {a x : Char} (h : x ≠ a) (mark t : Text) :
    dropLead? (a :: mark) (x :: t) = none := by
  rw [dropLead?, if_neg (Ne.symm h)]

theorem cutAt?_append {a : Char} {s : Text} (h : a ∉ s) (mark u : Text) :
    cutAt? (a :: mark) (s ++ (a :: mark) ++ u) = some (s, u) := by
  induction s with
  | nil =>
    have hlead := dropLead?_append (a :: mark) u
    rw [List.nil_append, List.cons_append] at *
    rw [cutAt?, hlead]
  | cons x s ih =>
    rw [List.mem_cons, not_or] at h
    rw [List.cons_append, List.cons_append, cutAt?, dropLead?_of_ne (Ne.symm h.1), ih h.2]
    rfl

theorem cutAt?_of_not_mem {a : Char} {t : Text} (h : a ∉ t) (mark : Text) :
    cutAt? (a :: mark) t = none := by
  induction t with
  | nil => rfl
  | cons x t ih =>
    rw [List.mem_cons, not_or] at h
    rw [cutAt?, dropLead?_of_ne (Ne.symm h.1), ih h.2]
    rfl

/-! ### Pieces put together again -/

theorem join_split (c : Char) (t : Text) : join [c] (split c t) = t := by
  induction t with
  | nil => rfl
  | cons x rest ih =>
    have hne : split c rest ≠ [] := pieces_ne_nil _ rest
    by_cases hx : x = c
    · have hsplit : split c (x :: rest) = [] :: split c rest := by
        rw [split, pieces, if_pos (beq_iff_eq.2 hx)]
      rw [hsplit, join_cons hne, ih, hx]
      rfl
    · cases hrest : split c rest with
      | nil => exact absurd hrest hne
      | cons run runs =>
        have hsplit : split c (x :: rest) = (x :: run) :: runs := by
          have hpieces : pieces (· == c) rest = run :: runs := hrest
          rw [split, pieces, if_neg (by rw [beq_iff_eq]; exact hx), hpieces]
        rw [hrest] at ih
        rw [hsplit]
        cases runs with
        | nil =>
          have hrun : run = rest := ih
          rw [join, hrun]
        | cons second more =>
          rw [join_cons (List.cons_ne_nil second more), ← ih, join_cons (List.cons_ne_nil second more)]
          rfl

theorem infix_join_of_mem {sep t : Text} {ts : List Text} (h : t ∈ ts) : t <:+: join sep ts := by
  induction ts with
  | nil => exact absurd h List.not_mem_nil
  | cons u rest ih =>
    cases rest with
    | nil =>
      rw [List.mem_singleton.1 h]
      exact List.infix_rfl
    | cons v more =>
      rw [join_cons (List.cons_ne_nil v more)]
      rcases List.mem_cons.1 h with rfl | h
      · exact ⟨[], sep ++ join sep (v :: more), by simp⟩
      · exact (ih h).trans (List.suffix_append _ _).isInfix

theorem infix_of_mem_split {c : Char} {t run : Text} (h : run ∈ split c t) : run <:+: t := by
  have hjoin : run <:+: join [c] (split c t) := infix_join_of_mem h
  rwa [join_split] at hjoin

end Text

end FlatAidl
