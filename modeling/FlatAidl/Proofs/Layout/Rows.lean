import FlatAidl.Proofs.Layout.Weaving
import FlatAidl.Proofs.Text.Trimming

/-!
Groups on rows. A row starts with a lead and holds groups with one space between neighbours; the
first row has a lead of its own, every further one starts with the margin. Main statement: rows that
fit, and that close only where the next group would not have fitted, are as few as any rows that fit.
-/

namespace FlatAidl

/-- One line of a layout: what it starts with, and the groups on it. -/
structure Row where
  lead : Text
  groups : List Text
deriving DecidableEq

namespace Row

variable {s : LineShape}

def text (r : Row) : Text :=
  r.lead ++ Text.join [' '] r.groups

/-- The column that a row reaches. -/
def column (s : LineShape) (r : Row) : Nat :=
  s.start + r.text.length

/-- Whether the first group of the next row would not have fitted behind a row and a space. -/
def Full (s : LineShape) (r next : Row) : Prop :=
  ∃ group more, next.groups = group :: more ∧ s.width < r.column s + 1 + group.length

/-- The ways to put groups on rows, in order and unsplit. A row is closed behind a group and in
front of another one, so no row is without a group unless there is none. -/
inductive Arranges (s : LineShape) : Text → List Text → List Row → Prop
  | last (lead : Text) (groups : List Text) : Arranges s lead groups [⟨lead, groups⟩]
  | more {lead : Text} {front back : List Text} {rows : List Row} (hfront : front ≠ [])
      (hback : back ≠ []) (h : Arranges s s.margin back rows) :
      Arranges s lead (front ++ back) (⟨lead, front⟩ :: rows)

/-- Whether every row with two or more groups stays within the width. -/
def AllFit (s : LineShape) (rows : List Row) : Prop :=
  ∀ r ∈ rows, 2 ≤ r.groups.length → r.column s ≤ s.width

/-! ### The width of a row -/

/-- A group behind the groups of a row stands behind a space. -/
theorem text_concat {r : Row} (hr : r.groups ≠ []) (t : Text) :
    text ⟨r.lead, r.groups ++ [t]⟩ = r.text ++ ' ' :: t := by
  rw [text, Text.join_append _ hr (List.cons_ne_nil t []), text, List.append_assoc]
  rfl

/-- A row that starts no further left than a full one, and holds its groups and the next one, is too
wide. -/
theorem Full.lt_column {r next wide : Row} (h : r.Full s next) (hr : r.groups ≠ [])
    (hlead : r.lead.length ≤ wide.lead.length) {before after : List Text}
    (hgroups : wide.groups = before ++ (r.groups ++ after))
    (hafter : after.head? = next.groups.head?) : s.width < wide.column s := by
  obtain ⟨group, more, hnext, hwidth⟩ := h
  rw [hnext, List.head?_cons] at hafter
  obtain ⟨rest, rfl⟩ := List.head?_eq_some_iff.1 hafter
  have hgroup : group.length ≤ (Text.join [' '] (group :: rest)).length := by
    cases rest with
    | nil => exact Nat.le_refl _
    | cons u tail =>
      rw [Text.join_cons (List.cons_ne_nil u tail)]
      simp only [List.length_append]
      omega
  have hkept := congrArg List.length
    (Text.join_append [' '] hr (List.cons_ne_nil group rest))
  have hwide : (Text.join [' '] (r.groups ++ group :: rest)).length ≤
      (Text.join [' '] wide.groups).length := by
    rw [hgroups]
    cases before with
    | nil => exact Nat.le_refl _
    | cons t tail =>
      rw [Text.join_append _ (List.cons_ne_nil t tail) (by simp [hr])]
      simp only [List.length_append]
      omega
  simp only [List.length_append, List.length_singleton] at hkept
  simp only [column, text, List.length_append] at hwidth ⊢
  omega

/-! ### Arrangements -/

namespace Arranges

variable {lead lead' : Text} {groups : List Text} {rows rows' : List Row}

theorem exists_head (h : Arranges s lead groups rows) :
    ∃ r more, rows = r :: more ∧ groups.head? = r.groups.head? := by
  cases h with
  | last => exact ⟨_, [], rfl, rfl⟩
  | more hfront _ _ => exact ⟨_, _, rfl, List.head?_append_of_ne_nil _ hfront⟩

/-- A row has no characters but those of the lead and of the groups, and blanks. -/
theorem not_mem_text (h : Arranges s lead groups rows) {x : Char} (hx : x ≠ ' ') (hlead : x ∉ lead)
    (hgroups : ∀ t ∈ groups, x ∉ t) : ∀ r ∈ rows, x ∉ r.text := by
  have hrow {lead : Text} {groups : List Text} (hlead : x ∉ lead) (hgroups : ∀ t ∈ groups, x ∉ t) :
      x ∉ text ⟨lead, groups⟩ := by
    rw [text, List.mem_append, not_or]
    refine ⟨hlead, fun hmem => ?_⟩
    rcases Text.mem_join hmem with hmem | ⟨t, ht, hmem⟩
    · exact hx (List.mem_singleton.1 hmem)
    · exact hgroups t ht hmem
  induction h with
  | last lead groups => exact List.forall_mem_singleton.2 (hrow hlead hgroups)
  | more _ _ _ ih =>
    obtain ⟨hfront, hback⟩ := List.forall_mem_append.1 hgroups
    have hmargin : x ∉ s.margin := fun hmem => hx (List.eq_of_mem_replicate hmem)
    exact List.forall_mem_cons.2 ⟨hrow hlead hfront, ih hmargin hback⟩

/-- Rows without the lead and the margins are the groups with one blank between neighbours. -/
theorem exists_join (h : Arranges s lead groups rows) : ∃ first more,
    rows.map text = (lead ++ first) :: more.map (s.margin ++ ·) ∧
      Text.join [' '] (first :: more) = Text.join [' '] groups := by
  induction h with
  | last lead groups => exact ⟨Text.join [' '] groups, [], rfl, rfl⟩
  | @more lead front back rows hfront hback _ ih =>
    obtain ⟨first, more, hrows, hjoin⟩ := ih
    refine ⟨Text.join [' '] front, first :: more, ?_, ?_⟩
    · rw [List.map_cons, hrows]
      rfl
    · rw [Text.join_cons (List.cons_ne_nil first more), hjoin, Text.join_append _ hfront hback,
        List.append_assoc]

theorem text_ne_nil (h : Arranges s lead groups rows) (hlead : lead ≠ [] ∨ groups ≠ [])
    (hgroups : ∀ t ∈ groups, t ≠ []) : ∀ r ∈ rows, r.text ≠ [] := by
  have hrow {lead : Text} {groups : List Text} (hlead : lead ≠ [] ∨ groups ≠ [])
      (hgroups : ∀ t ∈ groups, t ≠ []) : text ⟨lead, groups⟩ ≠ [] := by
    rcases hlead with hlead | hne
    · exact List.append_ne_nil_of_left_ne_nil hlead _
    · exact List.append_ne_nil_of_right_ne_nil _ (Text.join_ne_nil hne hgroups)
  induction h with
  | last lead groups => exact List.forall_mem_singleton.2 (hrow hlead hgroups)
  | more hfront hback _ ih =>
    obtain ⟨hheld, hrest⟩ := List.forall_mem_append.1 hgroups
    exact List.forall_mem_cons.2 ⟨hrow (Or.inr hfront) hheld, ih (Or.inr hback) hrest⟩

/-- A row that starts no further left than a full first row, and holds its groups and the next one,
holds several groups and is too wide. -/
theorem overfull {back : List Text} {r : Row} (wide : Row) (h : Arranges s s.margin back rows)
    (hfull : (r :: rows).IsChain (Full s)) (hr : r.groups ≠ [])
    (hlead : r.lead.length ≤ wide.lead.length) {before after beyond : List Text}
    (hgroups : wide.groups = before ++ (r.groups ++ after)) (hback : back = after ++ beyond)
    (hafter : after ≠ []) : 2 ≤ wide.groups.length ∧ s.width < wide.column s := by
  obtain ⟨next, more, rfl, hhead⟩ := h.exists_head
  rw [hback, List.head?_append_of_ne_nil _ hafter] at hhead
  refine ⟨?_, (List.isChain_cons_cons.1 hfull).1.lt_column hr hlead hgroups hhead⟩
  have hr' := List.length_pos_iff.2 hr
  have hafter' := List.length_pos_iff.2 hafter
  rw [hgroups]
  simp only [List.length_append]
  omega

/-- Rows that close only where they are full stay ahead of any rows that fit: they need no more rows
for the groups, even where the others have further groups in front of these. The lead may be wider
than the margin, but a row with groups in front of these starts no further left. -/
theorem length_le (before : List Text) (h : Arranges s lead groups rows)
    (hfull : rows.IsChain (Full s)) (h' : Arranges s lead' (before ++ groups) rows')
    (hfit : AllFit s rows') (hlead : lead.length ≤ lead'.length)
    (hmargin : before ≠ [] → lead.length ≤ s.margin.length) : rows.length ≤ rows'.length := by
  generalize hall : before ++ groups = all at h'
  induction h' generalizing before lead groups rows with
  | last lead' all =>
    cases h with
    | last => exact Nat.le_refl _
    | @more _ front back rest hfront hback h =>
      obtain ⟨hseveral, hwide⟩ := h.overfull ⟨lead', all⟩ hfull hfront hlead hall.symm
        (List.append_nil back).symm hback
      have hcolumn := hfit _ (List.mem_singleton_self _) hseveral
      omega
  | @more lead' front' back' rest' hfront' _ h' ih =>
    have hfit' : AllFit s rest' := fun r hr => hfit r (List.mem_cons_of_mem _ hr)
    cases h with
    | last =>
      simp only [List.length_cons, List.length_nil]
      omega
    | @more _ front back rest hfront hback h =>
      have hrest : rest.IsChain (Full s) := hfull.of_cons
      -- The other first row ends behind the first row, on it, or in front of these groups.
      rcases List.append_eq_append_iff.1 hall with ⟨extra, rfl, hrow⟩ | ⟨kept, rfl, hrow⟩
      · rcases List.append_eq_append_iff.1 hrow with ⟨taken, rfl, rfl⟩ | ⟨left, rfl, hleft⟩
        · cases taken with
          | nil =>
            have hle := ih [] h hrest hfit' (Nat.le_refl _) (fun _ => Nat.le_refl _) rfl
            exact Nat.succ_le_succ hle
          | cons t tail =>
            obtain ⟨hseveral, hwide⟩ :=
              h.overfull ⟨lead', before ++ (front ++ t :: tail)⟩ hfull hfront hlead rfl rfl
                (List.cons_ne_nil t tail)
            have hcolumn := hfit _ (List.mem_cons_self ..) hseveral
            omega
        · have hle := ih _ h hrest hfit' (Nat.le_refl _) (fun _ => Nat.le_refl _) hleft.symm
          exact Nat.succ_le_succ hle
      · have hstart := hmargin (List.append_ne_nil_of_left_ne_nil hfront' _)
        have hle := ih _ (.more hfront hback h) hfull hfit' hstart (fun _ => hstart) hrow.symm
        exact Nat.le_succ_of_le hle

end Arranges

theorem allFit_single (s : LineShape) (lead t : Text) : AllFit s [⟨lead, [t]⟩] := by
  intro r hr hseveral
  rw [List.mem_singleton.1 hr, List.length_singleton] at hseveral
  omega

/-- Rows of which each takes in as many groups as fit. -/
structure Greedy (s : LineShape) (lead : Text) (groups : List Text) (rows : List Row) : Prop where
  arranges : Arranges s lead groups rows
  fits : AllFit s rows
  full : rows.IsChain (Full s)

namespace Greedy

variable {lead : Text} {groups : List Text} {rows : List Row}

theorem last (h : AllFit s [⟨lead, groups⟩]) : Greedy s lead groups [⟨lead, groups⟩] :=
  ⟨.last lead groups, h, List.IsChain.singleton _⟩

theorem more {r : Row} {t : Text} {rest : List Text} (hr : r.groups ≠ []) (hfit : AllFit s [r])
    (hfull : s.width < r.column s + 1 + t.length) (h : Greedy s s.margin (t :: rest) rows) :
    Greedy s r.lead (r.groups ++ t :: rest) (r :: rows) := by
  refine ⟨.more hr (List.cons_ne_nil t rest) h.arranges, ?_, ?_⟩
  · exact List.forall_mem_cons.2 ⟨hfit r (List.mem_singleton_self r), h.fits⟩
  · obtain ⟨next, others, rfl, hhead⟩ := h.arranges.exists_head
    obtain ⟨further, hnext⟩ := List.head?_eq_some_iff.1 hhead.symm
    exact List.isChain_cons_cons.2 ⟨⟨t, further, hnext, hfull⟩, h.full⟩

/-- No other rows that fit are fewer. -/
theorem length_le {rows' : List Row} (h : Greedy s lead groups rows)
    (h' : Arranges s lead groups rows') (hfit : AllFit s rows') : rows.length ≤ rows'.length :=
  h.arranges.length_le [] h.full h' hfit (Nat.le_refl _) fun hne => absurd rfl hne

end Greedy

end Row

end FlatAidl
