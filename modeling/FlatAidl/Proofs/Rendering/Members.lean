import FlatAidl.Proofs.Rendering.Signatures

/-!
Imports and members in the text of a file. The import lines stand together behind the package, and
what follows them is no import. A member has a text of its own on one line, a signature or a field,
with each type where it belongs; the lines that show it are its words in order, further lines being
indented.
-/

namespace FlatAidl

open Text

/-! ### Members on one line -/

/-- A parameter with its direction and its type. -/
def AidlParam.shown (p : AidlParam) : Text :=
  ofString (if p.out then "out " else "in ") ++ p.type ++ ' ' :: p.name

/-- A signature on one line. -/
def AidlMethod.shown (m : AidlMethod) : Text :=
  ofString (if m.oneway then "oneway " else "") ++ m.returnType ++ ' ' :: m.name ++ ['('] ++
    join (ofString ", ") (m.params.map AidlParam.shown) ++ ofString ");"

/-- A field on one line. -/
def AidlField.shown (f : AidlField) : Text :=
  f.type ++ ' ' :: f.name ++ [';']

def AidlBody.shown : AidlBody → List Text
  | .interface _ _ _ _ methods => methods.map AidlMethod.shown
  | .compound _ fields => fields.map AidlField.shown

theorem AidlParam.text_eq_shown (p : AidlParam) : p.text = p.shown := by
  unfold text shown
  cases p.out with
  | true => rfl
  | false => rfl

namespace AidlMethod

/-- Parameters with one blank between neighbours, each with what separates it from the next. -/
theorem join_groups {params : List Text} (h : params ≠ []) :
    join [' '] (groups params) = join (ofString ", ") params ++ ofString ");" := by
  induction params with
  | nil => exact absurd rfl h
  | cons param rest ih =>
    cases rest with
    | nil => rfl
    | cons next more =>
      have hne : groups (next :: more) ≠ [] := by
        cases more with
        | nil => exact List.cons_ne_nil _ _
        | cons => exact List.cons_ne_nil _ _
      have hgroups : groups (param :: next :: more) = (param ++ [',']) :: groups (next :: more) :=
        rfl
      rw [hgroups, join_cons hne, join_cons (List.cons_ne_nil next more),
        ih (List.cons_ne_nil next more)]
      simp [ofString]

theorem join_parts (m : AidlMethod) : m.writes.flatten ++ join [' '] m.printed = m.shown := by
  have hlead : m.lead = ofString (if m.oneway then "oneway " else "") ++ m.returnType ++
      ' ' :: m.name ++ ['('] := by
    unfold lead
    cases m.oneway with
    | true => rfl
    | false => rfl
  have hparams : m.params.map AidlParam.text = m.params.map AidlParam.shown :=
    List.map_congr_left fun p _ => p.text_eq_shown
  rw [shown, ← hlead, writes, printed, hparams]
  cases hp : m.params with
  | nil => simp [groups, join]
  | cons p rest =>
    have hne : (p :: rest).map AidlParam.shown ≠ [] := List.cons_ne_nil _ _
    rw [join_groups hne]
    simp

end AidlMethod

/-! ### The lines that show a member -/

/-- Whether lines of a file show a text one level deep: they are the text cut at some of its blanks,
with all lines but the first indented further. -/
def ShownOn (o : Options) (t : Text) (block : List Text) : Prop :=
  ∃ first more, join [' '] (first :: more) = t ∧
    block = (first :: more.map (Text.indented o.continuationIndent)).flatMap (memberLines o)

theorem ShownOn.of_line (o : Options) (t : Text) : ShownOn o t (memberLines o t) :=
  ⟨t, [], rfl, (List.append_nil _).symm⟩

theorem AidlMethod.shownOn (o : Options) (m : AidlMethod) :
    ShownOn o m.shown ((m.signature o).lines.flatMap (memberLines o)) := by
  obtain ⟨rows, hwraps, hlines⟩ := m.exists_wraps o
  obtain ⟨first, more, hrows, hjoin⟩ := hwraps.arranges.exists_join
  cases more with
  | nil =>
    have hfirst : first = join [' '] m.printed := hjoin
    refine ⟨m.shown, [], rfl, ?_⟩
    rw [hlines, hrows, hfirst, m.join_parts]
    rfl
  | cons second more =>
    refine ⟨m.writes.flatten ++ first, second :: more, ?_, by rw [hlines, hrows]; rfl⟩
    rw [← m.join_parts, ← hjoin, join_cons (List.cons_ne_nil second more),
      join_cons (List.cons_ne_nil second more)]
    simp only [List.append_assoc]

theorem AidlBody.stretches_of_fields (o : Options) (fields : List AidlField) (lines : List Text) :
    Stretches (fields.map fun f => memberLines o f.shown)
      ((fields.flatMap AidlField.lines).flatMap (memberLines o) ++ lines) := by
  induction fields with
  | nil => exact .none _
  | cons f fields ih =>
    rw [List.flatMap_cons, AidlField.lines, List.append_assoc, List.flatMap_append,
      List.append_assoc, List.singleton_append, List.flatMap_cons, List.append_assoc]
    exact .more _ _ ih

/-! ### The import lines -/

/-- What stands in front of the imports: the header, if there is one, and the package. -/
def AidlFile.heading (o : Options) (f : AidlFile) : Text :=
  (if o.headerComment.isEmpty then [] else o.headerComment ++ ofString "\n\n") ++
    ofString "package " ++ f.source.aidlPackage ++ ofString ";\n\n"

/-- Whether a text does not start with an import. -/
def StartsWithoutImport (t : Text) : Prop :=
  ¬ ofString "import " <+: t

theorem startsWithoutImport_cons {x : Char} (h : x ≠ 'i') (t : Text) :
    StartsWithoutImport (x :: t) := by
  rintro ⟨u, hu⟩
  exact h (List.cons.inj hu).1.symm

theorem AidlBody.startsWithoutImport_keyword (body : AidlBody) (t : Text) :
    StartsWithoutImport (body.keyword ++ t) := by
  cases body with
  | interface =>
    rintro ⟨u, hu⟩
    have hsecond := (List.cons.inj (List.cons.inj hu).2).1
    exact absurd hsecond (by decide)
  | compound kind fields =>
    cases kind with
    | struct => exact startsWithoutImport_cons (by decide) _
    | union => exact startsWithoutImport_cons (by decide) _

/-- What stands between the imports and a declaration is comments. -/
theorem AidlFile.exists_cons_of_mem_comments (f : AidlFile) :
    ∀ line ∈ docLines f.doc ++ f.body.preface, ∃ x rest, line = x :: rest ∧ x ≠ 'i' := by
  obtain ⟨_, _, doc, body⟩ := f
  intro line hline
  rcases List.mem_append.1 hline with hline | hline
  · cases doc with
    | none => cases hline
    | some d =>
      rcases List.mem_cons.1 hline with rfl | hline
      · exact ⟨'/', _, rfl, by decide⟩
      · rcases List.mem_append.1 hline with hline | hline
        · obtain ⟨text, _, rfl⟩ := List.mem_map.1 hline
          unfold DocComment.blockLine
          split
          · exact ⟨' ', _, rfl, by decide⟩
          · exact ⟨' ', _, rfl, by decide⟩
        · rw [List.mem_singleton.1 hline]
          exact ⟨' ', _, rfl, by decide⟩
  · cases body with
    | compound kind fields => cases hline
    | interface super mixesOneway comments notes methods =>
      rcases List.mem_append.1 hline with hline | hline
      · cases super with
        | none => cases hline
        | some name =>
          rw [List.mem_singleton.1 hline]
          exact ⟨'/', _, rfl, by decide⟩
      · split at hline
        · rw [List.mem_singleton.1 hline]
          exact ⟨'/', _, rfl, by decide⟩
        · cases hline

theorem AidlFile.flatMap_topSteps (o : Options) (f : AidlFile) :
    (f.topSteps o).flatMap WritingStep.content = f.heading o ++ f.imports.flatMap Text.line ++
      if f.imports.isEmpty then [] else ['\n'] := by
  have hheader : (if o.headerComment.isEmpty then []
      else [WritingStep.line o.headerComment, .newline]).flatMap WritingStep.content =
      if o.headerComment.isEmpty then [] else o.headerComment ++ ofString "\n\n" := by
    split
    · rfl
    · exact List.append_assoc ..
  have hpackage : [WritingStep.line (ofString "package " ++ f.source.aidlPackage ++ [';']),
      .newline].flatMap WritingStep.content =
      ofString "package " ++ f.source.aidlPackage ++ ofString ";\n\n" := by
    simp [WritingStep.content, WritingStep.line, WritingStep.newline, Text.line, ofString]
  have hgap : (if f.imports.isEmpty then [] else [WritingStep.newline]).flatMap
      WritingStep.content = if f.imports.isEmpty then [] else ['\n'] := by
    split
    · rfl
    · rfl
  rw [topSteps, List.flatMap_append, List.flatMap_append, List.flatMap_append,
    WritingStep.content_lines, hheader, hpackage, hgap, heading]
  simp only [List.append_assoc]

theorem AidlFile.exists_text_eq (o : Options) (f : AidlFile) : ∃ rest,
    f.text o = f.heading o ++ f.imports.flatMap Text.line ++ rest ∧ StartsWithoutImport rest := by
  have hlevel : ((f.frontSteps o).foldl Pen.after Pen.start).level = 0 :=
    Pen.level_foldl_after Pen.start (text_of_mem_frontSteps o f)
  refine ⟨(if f.imports.isEmpty then [] else ['\n']) ++
    ((docLines f.doc ++ f.body.preface).flatMap Text.line ++
      (f.body.keyword ++ (' ' :: f.source.aidlName ++ ofString " \x7b" ++ '\n' ::
        (⟨0, true⟩ : Pen).text o.indentWidth
          (.indent :: (f.body.memberSteps o ++ [.dedent, .line ['\x7d']]))))), ?_, ?_⟩
  · rw [text, steps_eq, Pen.text_append, Pen.text_level_zero o.indentWidth rfl
      (text_of_mem_frontSteps o f), Pen.text_line_cons, Pen.write_level_zero _ hlevel, hlevel,
      frontSteps, List.flatMap_append, flatMap_topSteps, WritingStep.content_lines]
    simp only [List.append_assoc]
  · cases f.imports with
    | cons line rest => exact startsWithoutImport_cons (by decide) _
    | nil =>
      have hcomments := f.exists_cons_of_mem_comments
      cases hlines : docLines f.doc ++ f.body.preface with
      | nil => exact f.body.startsWithoutImport_keyword _
      | cons line rest =>
        rw [hlines] at hcomments
        obtain ⟨x, tail, rfl, hx⟩ := hcomments line (List.mem_cons_self ..)
        exact startsWithoutImport_cons hx _

/-! ### The text of a file -/

theorem AidlFile.exists_shown (o : Options) (f : AidlFile) : ∃ blocks,
    List.Forall₂ (ShownOn o) f.body.shown blocks ∧ Stretches blocks (split '\n' (f.text o)) := by
  obtain ⟨before, htext⟩ := f.exists_split_text o
  rw [htext]
  cases hbody : f.body with
  | interface super mixesOneway comments notes methods =>
    refine ⟨methods.map fun m => (m.signature o).lines.flatMap (memberLines o), ?_, ?_⟩
    · rw [AidlBody.shown, List.forall₂_map_left_iff, List.forall₂_map_right_iff]
      exact List.forall₂_same.2 fun m _ => m.shownOn o
    · rw [AidlBody.memberSteps_interface, List.append_assoc, Pen.split_text_lines]
      exact ((AidlBody.stretches_of_methodSteps o methods _).behind _).behind before
  | compound kind fields =>
    refine ⟨fields.map fun f => memberLines o f.shown, ?_, ?_⟩
    · rw [AidlBody.shown, List.forall₂_map_left_iff, List.forall₂_map_right_iff]
      exact List.forall₂_same.2 fun f _ => ShownOn.of_line o f.shown
    · rw [AidlBody.memberSteps, Pen.split_text_lines]
      exact (AidlBody.stretches_of_fields o fields _).behind before

/-- Whether a text has the imports and the members of a file. -/
structure AidlFile.WrittenAs (o : Options) (f : AidlFile) (t : Text) : Prop where
  /-- The imports stand line by line behind the heading, and no further one behind them. -/
  imports : ∃ rest, t = f.heading o ++ f.imports.flatMap Text.line ++ rest ∧
    StartsWithoutImport rest
  /-- The members are shown in order, each on lines that follow on each other. -/
  members : ∃ blocks, List.Forall₂ (ShownOn o) f.body.shown blocks ∧
    Stretches blocks (split '\n' t)

theorem AidlFile.writtenAs_text (o : Options) (f : AidlFile) : f.WrittenAs o (f.text o) :=
  ⟨f.exists_text_eq o, f.exists_shown o⟩

end FlatAidl
