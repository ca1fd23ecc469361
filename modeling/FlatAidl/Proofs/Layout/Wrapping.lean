import FlatAidl.Proofs.Layout.Rows

/-!
The rows that a layout makes of its groups. A row closes only where the next group does not fit, so
no other arrangement of the groups in which several groups on a row fit has fewer rows.
-/

namespace FlatAidl

namespace Layout

variable {s : LineShape}

/-- All lines of a layout, the current one included. -/
def texts (l : Layout) : List Text :=
  l.done ++ [l.current]

/-- Further groups continue the current row: it holds them as long as they fit, and the rest goes on
rows of their own. -/
theorem exists_rows {l : Layout} {r : Row} (groups : List Text) (hl : l.current = r.text)
    (hgroups : l.groups ≠ 0) (hr : r.groups ≠ []) (hfit : Row.AllFit s [r]) :
    ∃ rows, Row.Greedy s r.lead (r.groups ++ groups) rows ∧
      (groups.foldl (addGroup s) l).texts = l.done ++ rows.map Row.text := by
  induction groups generalizing l r with
  | nil =>
    refine ⟨[r], ?_, ?_⟩
    · rw [List.append_nil]
      exact .last hfit
    · rw [List.foldl_nil, texts, hl, List.map_singleton]
  | cons t rest ih =>
    have hcolumn : l.column s = r.column s := by rw [column, hl, Row.column]
    have hgroups' : (l.addGroup s t).groups ≠ 0 := by
      rw [groups_addGroup]
      exact Nat.succ_ne_zero _
    rw [List.foldl_cons]
    obtain ⟨hzero, _⟩ | ⟨_, hle, hadd⟩ | ⟨_, hlt, hadd⟩ := addGroup_cases s l t
    · exact absurd hzero hgroups
    · have hcurrent : (l.addGroup s t).current = Row.text ⟨r.lead, r.groups ++ [t]⟩ := by
        rw [hadd, Row.text_concat hr, hl]
      have hwider : Row.AllFit s [⟨r.lead, r.groups ++ [t]⟩] := by
        intro r' hr' _
        rw [List.mem_singleton.1 hr', Row.column, Row.text_concat hr, List.length_append,
          List.length_cons]
        rw [hcolumn, Row.column] at hle
        omega
      obtain ⟨rows, hrows, htexts⟩ := ih hcurrent hgroups' (by simp) hwider
      refine ⟨rows, ?_, ?_⟩
      · rwa [List.append_assoc] at hrows
      · rw [htexts, hadd]
    · have hcurrent : (l.addGroup s t).current = Row.text ⟨s.margin, [t]⟩ := by
        rw [hadd]
        rfl
      obtain ⟨rows, hrows, htexts⟩ :=
        ih hcurrent hgroups' (List.cons_ne_nil t []) (Row.allFit_single s s.margin t)
      rw [hcolumn] at hlt
      refine ⟨r :: rows, hrows.more hr hfit hlt, ?_⟩
      rw [htexts, hadd, hl, List.map_cons, List.append_assoc]
      rfl

/-- Text and then groups: the rows of the groups, with the text as the first one's lead. -/
theorem exists_rows_of_parts (s : LineShape) (writes groups : List Text) :
    ∃ rows, Row.Greedy s writes.flatten groups rows ∧
      (ofParts s (writes.map .text ++ groups.map .group)).texts = rows.map Row.text := by
  have hwrites : (writes.map LayoutPart.text).foldl (add s) empty =
      ⟨[], writes.flatten, 0, []⟩ := by
    induction writes using List.reverseRecOn with
    | nil => rfl
    | append_singleton front t ih =>
      rw [List.map_append, List.foldl_append, ih, List.flatten_concat]
      rfl
  rw [ofParts, List.foldl_append, hwrites, List.foldl_map]
  change ∃ rows, _ ∧ (groups.foldl (addGroup s) _).texts = _
  cases groups with
  | nil =>
    refine ⟨[⟨writes.flatten, []⟩], .last ?_, ?_⟩
    · intro r hr hseveral
      rw [List.mem_singleton.1 hr] at hseveral
      exact absurd hseveral (by simp)
    · exact congrArg List.singleton (List.append_nil _).symm
  | cons t rest =>
    exact exists_rows (l := ⟨[], writes.flatten ++ t, 1, []⟩) rest rfl Nat.one_ne_zero
      (List.cons_ne_nil t []) (Row.allFit_single s writes.flatten t)

theorem lines_of_groups_ne_nil (s : LineShape) {writes groups : List Text}
    (h : ∀ t ∈ groups, t ≠ []) :
    (ofParts s (writes.map .text ++ groups.map .group)).lines =
      (ofParts s (writes.map .text ++ groups.map .group)).texts := by
  refine lines_eq (current_ne_nil fun t ht => ?_)
  rcases List.mem_append.1 ht with ht | ht
  · obtain ⟨_, _, heq⟩ := List.mem_map.1 ht
    cases heq
  · obtain ⟨u, hu, heq⟩ := List.mem_map.1 ht
    cases heq
    exact h t hu

/-- The lines of a layout with text only in front of its groups are one arrangement of the groups on
rows in which rows with several groups fit, and of all these arrangements one with fewest rows. -/
theorem lines_fewest (s : LineShape) (writes : List Text) {groups : List Text}
    (h : ∀ t ∈ groups, t ≠ []) :
    ∃ rows, (ofParts s (writes.map .text ++ groups.map .group)).lines = rows.map Row.text ∧
      Row.Arranges s writes.flatten groups rows ∧ Row.AllFit s rows ∧
      ∀ rows', Row.Arranges s writes.flatten groups rows' → Row.AllFit s rows' →
        rows.length ≤ rows'.length := by
  obtain ⟨rows, hrows, htexts⟩ := exists_rows_of_parts s writes groups
  refine ⟨rows, ?_, hrows.arranges, hrows.fits, fun _ => hrows.length_le⟩
  rw [lines_of_groups_ne_nil s h, htexts]

/-- The first two groups fill a line of width 15, and the last one is wider than any line. -/
def manyChannels : List Text :=
  ["int a,", "int b,", "int c,", "in Channel channel)"].map Text.ofString

theorem manyChannels_fewest :
    (∀ t ∈ manyChannels, t ≠ []) ∧
    (ofParts ⟨15, 0, 1⟩ ([Text.ofString "f("].map .text ++ manyChannels.map .group)).lines =
      ["f(int a, int b,", " int c,", " in Channel channel)"].map Text.ofString ∧
    ∀ rows', Row.Arranges ⟨15, 0, 1⟩ (Text.ofString "f(") manyChannels rows' →
      Row.AllFit ⟨15, 0, 1⟩ rows' → 3 ≤ rows'.length := by
  have hgroups : ∀ t ∈ manyChannels, t ≠ [] := by decide
  have hthree :
      (ofParts ⟨15, 0, 1⟩ ([Text.ofString "f("].map .text ++ manyChannels.map .group)).lines =
        ["f(int a, int b,", " int c,", " in Channel channel)"].map Text.ofString := by
    decide
  obtain ⟨rows, hlines, _, _, hfewest⟩ :=
    lines_fewest ⟨15, 0, 1⟩ [Text.ofString "f("] hgroups
  have hlength : rows.length = 3 := by
    have hcount := congrArg List.length (hlines.symm.trans hthree)
    simpa using hcount
  refine ⟨hgroups, hthree, fun rows' harranges hfits => ?_⟩
  rw [← hlength]
  exact hfewest rows' harranges hfits

end Layout

end FlatAidl
