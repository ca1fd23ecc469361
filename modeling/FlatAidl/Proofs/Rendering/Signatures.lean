import FlatAidl.Proofs.Layout.Indentation
import FlatAidl.Proofs.Layout.Wrapping
import FlatAidl.Proofs.Rendering.Faultless
import FlatAidl.Proofs.Rendering.Formatting
import FlatAidl.Proofs.Rendering.LineBreaks

/-!
Signatures as lines of a file. The layout measures a line from the column of its level, and that is
where the file puts it, so what the layout decides holds of the lines of the file: a line with several
parameters is not longer than the options allow, and a line ends only where the next parameter would
have made it too long.
-/

namespace FlatAidl

open Text

/-! ### One signature -/

/-- The line of a file that a row of a signature becomes, one level deep. -/
def Row.physical (o : Options) (r : Row) : Text :=
  r.text.indented o.indentWidth

theorem Row.length_physical (o : Options) (r : Row) :
    (r.physical o).length = r.column (AidlMethod.shape o) := by
  rw [physical, indented, List.length_append, List.length_replicate]
  rfl

namespace AidlMethod

/-- What stands in front of the parameters; a signature without any is complete with it. -/
def writes (m : AidlMethod) : List Text :=
  if m.params.isEmpty then [m.lead, ofString ");"] else [m.lead]

/-- The parameters, each with the comma behind it or with the end of the signature. -/
def printed (m : AidlMethod) : List Text :=
  groups (m.params.map AidlParam.text)

theorem parts_eq (m : AidlMethod) : m.parts = m.writes.map .text ++ m.printed.map .group := by
  unfold parts writes printed
  cases m.params with
  | nil => rfl
  | cons p rest => rfl

/-- The rows of a signature: its parameters in order behind its name, with as much on a line as the
options allow. -/
structure Wraps (o : Options) (m : AidlMethod) (rows : List Row) : Prop where
  arranges : Row.Arranges (shape o) m.writes.flatten m.printed rows
  /-- A line that is too long has one parameter at most. -/
  long : ∀ r ∈ rows, o.maxLineLength < (r.physical o).length → r.groups.length ≤ 1
  /-- A line with two parameters or more is not too long. -/
  several : ∀ r ∈ rows, 2 ≤ r.groups.length → (r.physical o).length ≤ o.maxLineLength
  /-- A line would be too long with the next parameter on it. -/
  forced : rows.IsChain fun r next => ∃ param more, next.groups = param :: more ∧
    o.maxLineLength < (r.physical o ++ ' ' :: param).length

theorem printed_ne_nil {m : AidlMethod} : ∀ t ∈ m.printed, t ≠ [] := by
  intro t ht
  obtain ⟨p, _, rfl | rfl⟩ := exists_of_mem_groups ht
  · exact List.append_ne_nil_of_right_ne_nil p (List.cons_ne_nil ',' [])
  · exact List.append_ne_nil_of_right_ne_nil p (by decide)

theorem exists_wraps (o : Options) (m : AidlMethod) :
    ∃ rows, Wraps o m rows ∧ (m.signature o).lines = rows.map Row.text := by
  obtain ⟨rows, hrows, htexts⟩ := Layout.exists_rows_of_parts (shape o) m.writes m.printed
  have hseveral : ∀ r ∈ rows, 2 ≤ r.groups.length → (r.physical o).length ≤ o.maxLineLength := by
    intro r hr hlength
    rw [r.length_physical o]
    exact hrows.fits r hr hlength
  refine ⟨rows, ⟨hrows.arranges, ?_, hseveral, ?_⟩, ?_⟩
  · intro r hr hlong
    by_contra hgroups
    have hfit := hseveral r hr (by omega)
    omega
  · refine hrows.full.imp fun r next hnext => ?_
    obtain ⟨param, more, hmore, hwidth⟩ := hnext
    refine ⟨param, more, hmore, ?_⟩
    rw [List.length_append, r.length_physical o, List.length_cons]
    change o.maxLineLength < r.column (shape o) + 1 + param.length at hwidth
    omega
  · rw [signature, parts_eq, Layout.lines_of_groups_ne_nil _ printed_ne_nil, htexts]

/-- A signature of texts without a line break has as many physical lines as rows. -/
theorem unbroken_of_wraps {o : Options} {m : AidlMethod} {rows : List Row} (h : Wraps o m rows)
    (hm : m.Unbroken) : ∀ t ∈ rows.map Row.text, t ≠ [] ∧ '\n' ∉ t := by
  have hend : '\n' ∉ ofString ");" := by decide
  have hwrites : '\n' ∉ m.writes.flatten := by
    rw [writes]
    split
    · simpa using ⟨hm.lead, hend⟩
    · simpa using hm.lead
  have hlead : m.writes.flatten ≠ [] := by
    have hname : m.lead ≠ [] := List.append_ne_nil_of_right_ne_nil _ (List.cons_ne_nil '(' [])
    rw [writes]
    split
    · simp [hname]
    · simp [hname]
  have hprinted : ∀ t ∈ m.printed, '\n' ∉ t := by
    intro t ht
    obtain ⟨text, htext, hcases⟩ := exists_of_mem_groups ht
    obtain ⟨p, hp, rfl⟩ := List.mem_map.1 htext
    obtain rfl | rfl := hcases
    · simpa using hm.params p hp
    · rw [List.mem_append, not_or]
      exact ⟨hm.params p hp, hend⟩
  intro t ht
  obtain ⟨r, hr, rfl⟩ := List.mem_map.1 ht
  exact ⟨h.arranges.text_ne_nil (Or.inl hlead) printed_ne_nil r hr,
    h.arranges.not_mem_text (by decide) hwrites hprinted r hr⟩

end AidlMethod

/-! ### All signatures of a file -/

/-- Blocks of lines that stand one behind another in a list of lines, each in one piece. -/
inductive Stretches : List (List Text) → List Text → Prop
  | none (lines : List Text) : Stretches [] lines
  | more (before block : List Text) {blocks : List (List Text)} {lines : List Text}
      (h : Stretches blocks lines) : Stretches (block :: blocks) (before ++ (block ++ lines))

theorem Stretches.behind {blocks : List (List Text)} {lines : List Text} (h : Stretches blocks lines)
    (before : List Text) : Stretches blocks (before ++ lines) := by
  cases h with
  | none => exact .none _
  | more first block h =>
    rw [← List.append_assoc]
    exact .more (before ++ first) block h

/-- The lines of a file that a line written one level deep takes up. -/
def memberLines (o : Options) (line : Text) : List Text :=
  split '\n' ((⟨1, true⟩ : Pen).write o.indentWidth line)

/-- Lines that are not empty and hold no line break stand as they are behind their indentation. -/
theorem flatMap_memberLines (o : Options) {rows : List Row}
    (h : ∀ t ∈ rows.map Row.text, t ≠ [] ∧ '\n' ∉ t) :
    (rows.map Row.text).flatMap (memberLines o) = rows.map (Row.physical o) := by
  have hlines := Pen.flatMap_split_write o.indentWidth 1 h
  rw [Nat.one_mul, List.map_map] at hlines
  exact hlines

namespace AidlBody

theorem exists_methodSteps_cons (o : Options) (m : AidlMethod) (rest : List AidlMethod) :
    ∃ gap : List Text, methodSteps o (m :: rest) =
      (m.lines o ++ gap).map WritingStep.line ++ methodSteps o rest := by
  cases rest with
  | nil => exact ⟨[], by rw [List.append_nil]; exact (List.append_nil _).symm⟩
  | cons next more =>
    refine ⟨[[]], ?_⟩
    rw [List.map_append, List.append_assoc]
    rfl

/-- The methods of a file are written one after another, each with its signature. -/
theorem stretches_of_methodSteps (o : Options) (methods : List AidlMethod)
    (rest : List WritingStep) :
    Stretches (methods.map fun m => (m.signature o).lines.flatMap (memberLines o))
      (split '\n' ((⟨1, true⟩ : Pen).text o.indentWidth (methodSteps o methods ++ rest))) := by
  induction methods with
  | nil => exact .none _
  | cons m methods ih =>
    obtain ⟨gap, hsteps⟩ := exists_methodSteps_cons o m methods
    rw [hsteps, List.append_assoc, Pen.split_text_lines, AidlMethod.lines, List.flatMap_append,
      List.flatMap_append, List.append_assoc, List.append_assoc]
    exact .more _ _ (ih.behind _)

end AidlBody

/-- Where the members of a file are written: one level deep, behind the line that opens them. -/
theorem AidlFile.exists_split_text (o : Options) (f : AidlFile) :
    ∃ before, split '\n' (f.text o) = before ++ split '\n' ((⟨1, true⟩ : Pen).text o.indentWidth
      (f.body.memberSteps o ++ [.dedent, .line ['\x7d']])) := by
  have hlevel : ((f.frontSteps o).foldl Pen.after Pen.start).level = 0 :=
    Pen.level_foldl_after Pen.start (text_of_mem_frontSteps o f)
  rw [text, steps_eq, Pen.text_append, Pen.text_line_cons, hlevel, ← List.append_assoc,
    split_append_cons]
  exact ⟨_, rfl⟩

namespace Catalogue

variable {c : Catalogue}

/-- In the file of an interface without line breaks in its names, the signatures of its methods are
wrapped as the options say, each on lines of its own that follow on each other. -/
theorem render_wraps_signatures {ops : List Operation} (h : (build ops).finish = .ok c)
    {id : DeclId} {d : Declaration} {members : Interface} (hd : c.get? id = some d)
    (hb : d.body = .interface members) :
    ∃ m, c.merge id = .ok m ∧ (SoundReferences c → ∀ o, ∃ r, c.render o id = .ok r) ∧
      ((∀ w ∈ m.winners, w.method.Unbroken c) → ∀ o r, c.render o id = .ok r →
        ∃ methods rows, m.winners.mapM c.aidlMethod = .ok methods ∧
          List.Forall₂ (AidlMethod.Wraps o) methods rows ∧
          Stretches (rows.map (List.map (Row.physical o))) (split '\n' r.text)) := by
  obtain ⟨chain, hmerge⟩ := exists_merge_of_finish h (isInterface_of_body hd hb)
  refine ⟨_, hmerge, ?_, ?_⟩
  · intro hsound o
    exact (renderable_of_finish h hsound).exists_render o (lt_size_of_get? hd)
  · intro hunbroken o r hr
    rw [render_eq_map] at hr
    obtain ⟨f, hf, rfl⟩ := Outcome.map_eq_ok.1 hr
    obtain ⟨merged, _, _, super, ignored, methods, hmerged, _, _, _, _, hmethods, hfile⟩ :=
      (translate_interface_eq_ok_iff hd hb).1 hf
    rw [hmerge] at hmerged
    cases hmerged
    have hmethod : ∀ e ∈ methods, e.Unbroken := by
      intro e he
      obtain ⟨w, hw, hmethod⟩ := Outcome.exists_of_mem_mapM hmethods he
      exact unbroken_aidlMethod hmethod (name_of_mem_candidatesFrom (Merge.mem_of_mem_winners hw))
        (hunbroken w hw)
    choose rowsOf hwraps hlines using AidlMethod.exists_wraps o
    refine ⟨methods, methods.map rowsOf, hmethods, ?_, ?_⟩
    · exact List.forall₂_map_right_iff.2 (List.forall₂_same.2 fun e _ => hwraps e)
    · obtain ⟨before, htext⟩ := f.exists_split_text o
      rw [hfile] at htext
      change Stretches _ (split '\n' (f.text o))
      rw [hfile, htext, AidlBody.memberSteps_interface, List.append_assoc, Pen.split_text_lines]
      have hblocks : (methods.map rowsOf).map (List.map (Row.physical o)) =
          methods.map fun e => (e.signature o).lines.flatMap (memberLines o) := by
        rw [List.map_map]
        refine List.map_congr_left fun e he => ?_
        rw [hlines e, flatMap_memberLines o (AidlMethod.unbroken_of_wraps (hwraps e) (hmethod e he))]
        rfl
      rw [hblocks]
      exact ((AidlBody.stretches_of_methodSteps o methods _).behind _).behind before

def linkMethod : Method :=
  ⟨ofString "link", [⟨ofString "a", .primitive .int32⟩, ⟨ofString "b", .primitive .int32⟩,
    ⟨ofString "peer", .named 1⟩], [], false, none⟩

/-- A mixer that is linked to another one. -/
def linkOps : List Operation :=
  [.declareInterface ⟨ofString "hw.mixer", ⟨1, 0⟩, [ofString "IMixer"]⟩ none,
    .addMethod 1 linkMethod]

/-- Two parameters fill a line of 33 columns, and the third does not fit on any. -/
def linkOptions : Options :=
  ⟨33, Options.standard.headerComment, 4⟩

theorem unbroken_linkMethod : linkMethod.Unbroken (build linkOps) where
  name := by decide
  params := by decide
  types := by
    intro p hp id hid d hd
    have hnamed : ∀ p ∈ linkMethod.args ++ linkMethod.results, ∀ id ∈ p.type.namedTypes, id = 1 := by
      decide
    obtain rfl := hnamed p hp id hid
    have hname : ((build linkOps).get? 1).map (fun d => decide ('\n' ∈ d.name.text)) =
        some false := rfl
    rw [hd] at hname
    exact of_decide_eq_false (Option.some.inj hname)

theorem linkOps_wraps_signatures :
    (build linkOps).finish = .ok (build linkOps) ∧ ∃ m r methods rows,
      (build linkOps).merge 1 = .ok m ∧
        (∀ w ∈ m.winners, w.method.Unbroken (build linkOps)) ∧
        (build linkOps).render linkOptions 1 = .ok r ∧
        List.Forall₂ (AidlMethod.Wraps linkOptions) methods rows ∧
        Stretches (rows.map (List.map (Row.physical linkOptions))) (split '\n' r.text) ∧
        ofString "    void link(in int a, in int b," ∈ split '\n' r.text ∧
        ofString "            in hw.mixer.IMixer peer);" ∈ split '\n' r.text := by
  have hfinish : (build linkOps).finish = .ok (build linkOps) := by decide
  have hkind : (build linkOps).isInterface 1 = true := by decide
  obtain ⟨members, hmembers⟩ := isInterface_iff.1 hkind
  obtain ⟨d, hd, hb⟩ := interface?_eq_some.1 hmembers
  obtain ⟨m, hm, _, hall⟩ := render_wraps_signatures hfinish hd hb
  have hwinners : ((build linkOps).merge 1).map (fun m => m.winners.map Candidate.method) =
      .ok [linkMethod] := rfl
  rw [hm] at hwinners
  have hunbroken : ∀ w ∈ m.winners, w.method.Unbroken (build linkOps) := by
    intro w hw
    have hmem : w.method ∈ m.winners.map Candidate.method := List.mem_map_of_mem hw
    rw [show m.winners.map Candidate.method = [linkMethod] from Except.ok.inj hwinners] at hmem
    rw [List.mem_singleton.1 hmem]
    exact unbroken_linkMethod
  have hrender : ((build linkOps).render linkOptions 1).map (fun r =>
      decide (ofString "    void link(in int a, in int b," ∈ split '\n' r.text ∧
        ofString "            in hw.mixer.IMixer peer);" ∈ split '\n' r.text)) = .ok true := rfl
  obtain ⟨r, hr, hlines⟩ := Outcome.map_eq_ok.1 hrender
  obtain ⟨methods, rows, _, hwraps, hstretches⟩ := hall hunbroken linkOptions r hr
  obtain ⟨hfirst, hsecond⟩ := of_decide_eq_true hlines
  exact ⟨hfinish, m, r, methods, rows, hm, hunbroken, hr, hwraps, hstretches, hfirst, hsecond⟩

end Catalogue

end FlatAidl
