import FlatAidl.Proofs.Layout.Indentation
import FlatAidl.Proofs.Layout.Weaving
import FlatAidl.Proofs.Rendering.Faultless
import FlatAidl.Proofs.Text.Gaps

/-!
The options decide where gaps stand, and nothing else. Indentation adds spaces behind line breaks, and
wrapping exchanges a space for a line break with an indent; both keep the runs of a text. Main
statement: two renderings of one declaration under options with the same header comment have the same
path, the same notes and texts with the same runs.
-/

namespace FlatAidl

open Text

/-! ### Indentation -/

namespace Pen

/-- The line break that a pen at the start of a line stands behind. At the start of a file there is
none, but one in front of it would change no run. -/
def lead (p : Pen) : Text :=
  if p.lineStart then ['\n'] else []

theorem alike_put (width : Nat) (p : Pen) {c : Char} (hc : c ≠ '\n') :
    Alike (p.lead ++ p.put width c) (p.lead ++ [c]) := by
  rw [put, if_neg hc, lead]
  cases p.lineStart with
  | false => exact Alike.refl _
  | true =>
    have hgaps : Alike ('\n' :: List.replicate (p.column width) ' ') ['\n'] :=
      alike_gaps (by simp) (by simp) (fun _ hx => isGap_of_mem_break hx) (by simp [isGap])
    exact hgaps.append (Alike.refl [c])

/-- Indentation is compared together with what follows it: a pen that stops at the start of a line
still owes the next character its blanks. -/
theorem alike_write (width : Nat) {p : Pen} {a b : Text} (t : Text)
    (h : Alike ((t.foldl pass p).lead ++ a) ((t.foldl pass p).lead ++ b)) :
    Alike (p.lead ++ (p.write width t ++ a)) (p.lead ++ (t ++ b)) := by
  induction t generalizing p with
  | nil => exact h
  | cons c rest ih =>
    have hrest := ih h
    rw [write, List.append_assoc, List.cons_append]
    by_cases hc : c = '\n'
    · subst hc
      exact (Alike.refl p.lead).append hrest
    · have hlead : (p.pass c).lead = [] := by simp [lead, pass, hc]
      rw [hlead] at hrest
      have hput := (alike_put width p hc).append hrest
      simpa using hput

theorem alike_text (width : Nat) {p : Pen} (steps : List WritingStep) :
    Alike (p.lead ++ p.text width steps) (p.lead ++ steps.flatMap WritingStep.content) := by
  induction steps generalizing p with
  | nil => exact Alike.refl _
  | cons step rest ih =>
    rw [text, List.flatMap_cons]
    cases step with
    | text t => exact alike_write width t ih
    | indent => exact ih (p := p.after .indent)
    | dedent => exact ih (p := p.after .dedent)

/-- The runs of a file are those of what its steps write, whatever the width of a level is. -/
theorem runs_start_text (width : Nat) (steps : List WritingStep) :
    runs (start.text width steps) = runs (steps.flatMap WritingStep.content) := by
  have h := (alike_text width (p := start) steps).runs_eq
  change runs ('\n' :: _) = runs ('\n' :: _) at h
  rwa [runs_cons rfl, runs_cons rfl] at h

end Pen

/-! ### Wrapping -/

namespace Layout

variable {s s' : LineShape} {l l' : Layout}

theorem exists_gap (hg : l.groups ≠ 0) (t : Text) :
    ∃ gap, gap ≠ [] ∧ (∀ x ∈ gap, isGap x = true) ∧
      (l.addGroup s t).soFar = l.soFar ++ (gap ++ t) := by
  obtain ⟨_, hadd⟩ | ⟨_, hadd⟩ := soFar_addGroup (s := s) hg t
  · exact ⟨[' '], by simp, by simp [isGap], hadd⟩
  · exact ⟨s.lineBreak, List.cons_ne_nil '\n' s.margin, fun _ hx => isGap_of_mem_break hx, hadd⟩

/-- Two layouts of the same parts, each under a shape of its own. -/
structure SameParts (l l' : Layout) : Prop where
  groups : l.groups = l'.groups
  alike : Alike l.soFar l'.soFar

theorem SameParts.add (h : SameParts l l') (part : LayoutPart) :
    SameParts (l.add s part) (l'.add s' part) := by
  cases part with
  | text t =>
    refine ⟨h.groups, ?_⟩
    have happend := h.alike.append (Alike.refl t)
    simpa [Layout.add, soFar] using happend
  | group t =>
    refine ⟨?_, ?_⟩
    · simp only [Layout.add, groups_addGroup, h.groups]
    · simp only [Layout.add]
      by_cases hg : l.groups = 0
      · have hg' : l'.groups = 0 := h.groups.symm.trans hg
        rw [(soFar_addGroup_first hg t).2, (soFar_addGroup_first hg' t).2]
        exact h.alike.append (Alike.refl t)
      · have hg' : l'.groups ≠ 0 := fun h0 => hg (h.groups.trans h0)
        obtain ⟨gap, hne, hgap, htext⟩ := exists_gap (s := s) hg t
        obtain ⟨gap', hne', hgap', htext'⟩ := exists_gap (s := s') hg' t
        rw [htext, htext']
        exact h.alike.append ((alike_gaps hne hne' hgap hgap').append (Alike.refl t))

theorem SameParts.foldl (h : SameParts l l') (parts : List LayoutPart) :
    SameParts (parts.foldl (Layout.add s) l) (parts.foldl (Layout.add s') l') := by
  induction parts generalizing l l' with
  | nil => exact h
  | cons part rest ih => exact ih (h.add part)

theorem sameParts_ofParts (s s' : LineShape) (parts : List LayoutPart) :
    SameParts (ofParts s parts) (ofParts s' parts) :=
  SameParts.foldl ⟨rfl, Alike.refl _⟩ parts

/-- An empty last line is left out, so the text then ends in one line break and not in two. -/
theorem alike_lines (l : Layout) : Alike (l.lines.flatMap Text.line) (l.soFar ++ ['\n']) := by
  unfold lines
  split
  · next hempty =>
    rw [Bool.and_eq_true, Bool.not_eq_true', List.isEmpty_iff] at hempty
    obtain ⟨front, last, hdone⟩ := List.eq_nil_or_concat l.done |>.resolve_left fun h0 => by
      simp [h0] at hempty
    have hbreaks : Alike ['\n'] ['\n', '\n'] :=
      alike_gaps (by simp) (by simp) (by simp [isGap]) (by simp [isGap])
    have happend := (Alike.refl (front.flatMap Text.line ++ last)).append hbreaks
    simpa [soFar, hdone, hempty.1, Text.line] using happend
  · have hrefl := Alike.refl ((l.done ++ [l.current]).flatMap Text.line)
    simpa [soFar, Text.line] using hrefl

theorem SameParts.lines (h : SameParts l l') :
    Alike (l.lines.flatMap Text.line) (l'.lines.flatMap Text.line) :=
  (alike_lines l).trans ((h.alike.append (Alike.refl ['\n'])).trans (alike_lines l').symm)

end Layout

/-! ### Files -/

section

variable (o o' : Options)

theorem AidlMethod.alike_lines (m : AidlMethod) :
    Alike ((m.lines o).flatMap Text.line) ((m.lines o').flatMap Text.line) := by
  have hsignature := (Layout.sameParts_ofParts (shape o) (shape o') m.parts).lines
  simp only [lines, List.flatMap_append]
  exact (Alike.refl _).append hsignature

theorem AidlBody.alike_methodSteps (methods : List AidlMethod) :
    Alike ((methodSteps o methods).flatMap WritingStep.content)
      ((methodSteps o' methods).flatMap WritingStep.content) := by
  fun_induction methodSteps o methods with
  | case1 => exact Alike.refl _
  | case2 m =>
    rw [methodSteps, WritingStep.content_lines, WritingStep.content_lines]
    exact m.alike_lines o o'
  | case3 m rest hrest ih =>
    rw [methodSteps.eq_3 o' m rest hrest, List.flatMap_append, List.flatMap_append,
      WritingStep.content_lines, WritingStep.content_lines, List.flatMap_cons, List.flatMap_cons]
    exact (m.alike_lines o o').append ((Alike.refl _).append ih)

theorem AidlBody.alike_memberSteps (body : AidlBody) :
    Alike ((body.memberSteps o).flatMap WritingStep.content)
      ((body.memberSteps o').flatMap WritingStep.content) := by
  cases body with
  | compound kind fields => exact Alike.refl _
  | interface super mixes comments notes methods =>
    simp only [memberSteps, List.flatMap_append]
    exact (Alike.refl _).append (alike_methodSteps o o' methods)

variable {o o'}

theorem AidlFile.alike_steps (header : o.headerComment = o'.headerComment) (f : AidlFile) :
    Alike ((f.steps o).flatMap WritingStep.content) ((f.steps o').flatMap WritingStep.content) := by
  have htop : f.topSteps o = f.topSteps o' := by rw [topSteps, topSteps, header]
  have hmembers := f.body.alike_memberSteps o o'
  simp only [steps, htop, List.flatMap_append, List.flatMap_cons]
  -- The members stand between what opens the declaration and what closes it.
  refine Alike.append ?_ (Alike.refl _)
  refine Alike.append (Alike.refl _) ?_
  exact (Alike.refl _).append ((Alike.refl _).append hmembers)

theorem AidlFile.runs_text (header : o.headerComment = o'.headerComment) (f : AidlFile) :
    runs (f.text o) = runs (f.text o') := by
  rw [text, text, Pen.runs_start_text, Pen.runs_start_text]
  exact (f.alike_steps header).runs_eq

end

namespace Catalogue

variable {c : Catalogue}

/-- The options enter after the translation, which alone can fail. -/
theorem render_eq_map (c : Catalogue) (o : Options) (id : DeclId) :
    c.render o id = (c.translate id).map (AidlFile.render o) := by
  unfold render
  cases c.translate id with
  | error fault => rfl
  | ok f => exact if_pos (f.balanced_steps o)

/-- Rendering under other options changes nothing but the gaps of the text. Both renderings exist if
the references are sound, and a fault of one is the fault of the other. -/
theorem render_same_but_for_gaps {ops : List Operation} (h : (build ops).finish = .ok c)
    {o o' : Options} (header : o.headerComment = o'.headerComment) {id : DeclId}
    (hid : id < c.size) :
    (SoundReferences c → ∃ r, c.render o id = .ok r) ∧
      (∀ fault, c.render o id = .error fault ↔ c.render o' id = .error fault) ∧
      ∀ r, c.render o id = .ok r → ∃ r', c.render o' id = .ok r' ∧ r.path = r'.path ∧
        r.notes = r'.notes ∧ solid r.text = solid r'.text ∧ runs r.text = runs r'.text := by
  refine ⟨fun hsound => (renderable_of_finish h hsound).exists_render o hid, ?_, ?_⟩
  · intro fault
    rw [render_eq_map, render_eq_map, Outcome.map_eq_error, Outcome.map_eq_error]
  · intro r hr
    rw [render_eq_map] at hr
    obtain ⟨f, hf, rfl⟩ := Outcome.map_eq_ok.1 hr
    have hruns : runs (f.text o) = runs (f.text o') := f.runs_text header
    refine ⟨f.render o', ?_, rfl, rfl, ?_, hruns⟩
    · rw [render_eq_map, hf]
      rfl
    · change solid (f.text o) = solid (f.text o')
      rw [← flatten_runs, ← flatten_runs, hruns]

/-- A radio that is tuned with two parameters. -/
def radioOps : List Operation :=
  let param (name : String) : Param := ⟨Text.ofString name, .primitive .int32⟩
  [.declareInterface ⟨Text.ofString "hw.radio", ⟨1, 0⟩, [Text.ofString "IRadio"]⟩ none,
    .addMethod 1 ⟨Text.ofString "tune", [param "band", param "channel"], [], false, none⟩]

def narrowOptions : Options :=
  ⟨20, Options.standard.headerComment, 2⟩

theorem radioOps_same_but_for_gaps :
    (build radioOps).finish = .ok (build radioOps) ∧
      narrowOptions.headerComment = Options.standard.headerComment ∧ 1 < (build radioOps).size ∧
      ∃ r r', (build radioOps).render narrowOptions 1 = .ok r ∧
        (build radioOps).render Options.standard 1 = .ok r' ∧
        Text.ofString "      in int channel);" ∈ split '\n' r.text ∧
        Text.ofString "    void tune(in int band, in int channel);" ∈ split '\n' r'.text ∧
        runs r.text = runs r'.text := by
  have hfinish : (build radioOps).finish = .ok (build radioOps) := by decide
  have hid : 1 < (build radioOps).size := by decide
  obtain ⟨_, _, hall⟩ := render_same_but_for_gaps hfinish
    (show narrowOptions.headerComment = Options.standard.headerComment from rfl) hid
  have hnarrow : ((build radioOps).render narrowOptions 1).map (fun r =>
      decide (Text.ofString "      in int channel);" ∈ split '\n' r.text)) = .ok true := rfl
  have hstandard : ((build radioOps).render Options.standard 1).map (fun r =>
      decide (Text.ofString "    void tune(in int band, in int channel);" ∈ split '\n' r.text)) =
        .ok true := rfl
  obtain ⟨r, hr, hline⟩ := Outcome.map_eq_ok.1 hnarrow
  obtain ⟨s, hs, hwhole⟩ := Outcome.map_eq_ok.1 hstandard
  obtain ⟨r', hr', _, _, _, hruns⟩ := hall r hr
  obtain rfl := Except.ok.inj (hs.symm.trans hr')
  exact ⟨hfinish, rfl, hid, r, s, hr, hs, of_decide_eq_true hline, of_decide_eq_true hwhole, hruns⟩

end Catalogue

end FlatAidl
