import FlatAidl.Proofs.Catalogue.Names
import FlatAidl.Proofs.Name.RoundTrip
import FlatAidl.Proofs.Rendering.Faultless
import FlatAidl.Proofs.Signature.Plan

/-!
Notes and comments about the same departures. What an interface leaves out, drops, renames or returns
is one list, read off the merged methods, and each departure has a comment and a note of its own
wording. Main statement: behind the note of the conversion stand the notes on these departures, and
the comment lines in the body of the file, outside of documentation, are the comments on them, both
in the same order.
-/

namespace FlatAidl

/-! ### Comment lines -/

def isCommentLine (line : Text) : Bool :=
  (Text.dropLead? (Text.ofString "//") line).isSome

/-- A text with a first character that begins no comment. -/
inductive Opened : Text → Prop
  | intro {x : Char} (rest : Text) (h : x ≠ '/') : Opened (x :: rest)

theorem Opened.append {t : Text} (h : Opened t) (u : Text) : Opened (t ++ u) := by
  cases h with
  | intro rest h => exact .intro (rest ++ u) h

theorem Opened.indented {t : Text} (h : Opened t) (n : Nat) :
    Opened (List.replicate n ' ' ++ t) := by
  cases n with
  | zero => exact h
  | succ n => exact .intro (List.replicate n ' ' ++ t) (by decide)

theorem Opened.not_comment {t : Text} (h : Opened t) : isCommentLine t = false := by
  cases h with
  | intro rest h =>
    have hlead : Text.dropLead? (Text.ofString "//") (_ :: rest) = none := if_neg (Ne.symm h)
    rw [isCommentLine, hlead]
    rfl

/-- Documentation opens with a line that is no comment of its own, and its lines start with a blank. -/
theorem not_comment_of_mem_docLines {doc : Option DocComment} :
    ∀ line ∈ docLines doc, isCommentLine line = false := by
  intro line hline
  cases doc with
  | none => cases hline
  | some d =>
    rcases List.mem_cons.1 hline with rfl | hline
    · rfl
    · rcases List.mem_append.1 hline with hline | hline
      · obtain ⟨text, _, rfl⟩ := List.mem_map.1 hline
        unfold DocComment.blockLine
        split
        · rfl
        · rfl
      · rw [List.mem_singleton.1 hline]
        rfl

/-! ### Signatures -/

namespace Layout

variable {s : LineShape} {l : Layout}

/-- Every line so far has a first character that begins no comment. -/
structure LinesOpened (l : Layout) : Prop where
  done : ∀ line ∈ l.done, Opened line
  current : Opened l.current

theorem LinesOpened.add (h : l.LinesOpened) {p : LayoutPart}
    (hp : ∀ t, p = .group t → Opened t) : (l.add s p).LinesOpened := by
  cases p with
  | text t => exact ⟨h.done, h.current.append t⟩
  | group t =>
    have ht : Opened t := hp t rfl
    rw [Layout.add, addGroup]
    split
    · exact ⟨h.done, h.current.append t⟩
    · split
      · exact ⟨h.done, h.current.append (' ' :: t)⟩
      · refine ⟨?_, ht.indented s.indent⟩
        simp only [List.forall_mem_append, List.forall_mem_singleton]
        exact ⟨h.done, h.current⟩

theorem LinesOpened.foldl (h : l.LinesOpened) {ps : List LayoutPart}
    (hps : ∀ p ∈ ps, ∀ t, p = .group t → Opened t) : (ps.foldl (Layout.add s) l).LinesOpened := by
  induction ps generalizing l with
  | nil => exact h
  | cons p ps ih =>
    have hfirst := hps p (List.mem_cons_self ..)
    exact ih (h.add hfirst) fun q hq => hps q (List.mem_cons_of_mem _ hq)

theorem LinesOpened.lines (h : l.LinesOpened) : ∀ line ∈ l.lines, Opened line := by
  rw [Layout.lines]
  split
  · exact h.done
  · simp only [List.forall_mem_append, List.forall_mem_singleton]
    exact ⟨h.done, h.current⟩

end Layout

namespace AidlMethod

variable {m : AidlMethod}

theorem opened_lead (h : Opened m.returnType) : Opened m.lead := by
  rw [lead]
  cases m.oneway with
  | true => exact .intro _ (by decide)
  | false => exact ((h.append (' ' :: m.name))).append ['(']

theorem opened_of_mem_groups {params : List Text} (h : ∀ p ∈ params, Opened p) :
    ∀ t ∈ groups params, Opened t := by
  intro t ht
  obtain ⟨p, hp, rfl | rfl⟩ := exists_of_mem_groups ht
  · exact (h p hp).append _
  · exact (h p hp).append _

theorem opened_param (p : AidlParam) : Opened p.text := by
  rw [AidlParam.text]
  cases p.out with
  | true => exact .intro _ (by decide)
  | false => exact .intro _ (by decide)

/-- No line of a signature is a comment: the first starts with its type, a further one with blanks or
with the direction of a parameter. -/
theorem opened_of_mem_signature (h : Opened m.returnType) (o : Options) :
    ∀ line ∈ (m.signature o).lines, Opened line := by
  have hgroups : ∀ t ∈ groups (m.params.map AidlParam.text), Opened t := by
    refine opened_of_mem_groups fun t ht => ?_
    obtain ⟨p, _, rfl⟩ := List.mem_map.1 ht
    exact opened_param p
  refine Layout.LinesOpened.lines ?_
  rw [signature, Layout.ofParts, parts, List.foldl_cons]
  refine Layout.LinesOpened.foldl ⟨fun line hline => absurd hline List.not_mem_nil, ?_⟩ ?_
  · exact opened_lead h
  · intro p hp t ht
    split at hp
    · rw [List.mem_singleton.1 hp] at ht
      cases ht
    · obtain ⟨group, hgroup, heq⟩ := List.mem_map.1 hp
      rw [ht] at heq
      cases heq
      exact hgroups t hgroup

theorem comments_of_lines (h : Opened m.returnType)
    (hcomments : ∀ line ∈ m.comments, isCommentLine line = true) (o : Options) :
    (m.lines o).filter isCommentLine = m.comments := by
  have hdoc : (docLines m.doc).filter isCommentLine = [] :=
    List.filter_eq_nil_iff.2 fun line hline => by simp [not_comment_of_mem_docLines line hline]
  have hsignature : (m.signature o).lines.filter isCommentLine = [] :=
    List.filter_eq_nil_iff.2 fun line hline => by
      simp [(opened_of_mem_signature h o line hline).not_comment]
  rw [lines, List.filter_append, List.filter_append, List.filter_eq_self.2 hcomments, hdoc,
    hsignature, List.append_nil, List.append_nil]

end AidlMethod

/-! ### The body of an interface -/

namespace AidlBody

theorem comments_of_methodSteps (o : Options) {methods : List AidlMethod}
    (h : ∀ m ∈ methods, Opened m.returnType)
    (hcomments : ∀ m ∈ methods, ∀ line ∈ m.comments, isCommentLine line = true) :
    ∃ lines : List Text, methodSteps o methods = lines.map WritingStep.line ∧
      lines.filter isCommentLine = methods.flatMap AidlMethod.comments := by
  fun_induction methodSteps o methods with
  | case1 => exact ⟨[], rfl, rfl⟩
  | case2 m =>
    have hm : m ∈ [m] := List.mem_cons_self ..
    refine ⟨m.lines o, rfl, ?_⟩
    rw [AidlMethod.comments_of_lines (h m hm) (hcomments m hm), List.flatMap_singleton]
  | case3 m rest _ ih =>
    have hm : m ∈ m :: rest := List.mem_cons_self ..
    obtain ⟨lines, hlines, hrest⟩ := ih (fun k hk => h k (List.mem_cons_of_mem _ hk))
      fun k hk => hcomments k (List.mem_cons_of_mem _ hk)
    refine ⟨m.lines o ++ [] :: lines, ?_, ?_⟩
    · rw [hlines, List.map_append, List.map_cons]
      rfl
    · have hempty : isCommentLine [] = false := rfl
      rw [List.filter_append, AidlMethod.comments_of_lines (h m hm) (hcomments m hm),
        List.filter_cons_of_neg (by simp [hempty]), hrest, List.flatMap_cons]

theorem comments_of_memberSteps (o : Options) (super : Option QualifiedName) (mixesOneway : Bool)
    {comments : List Text} (notes : List Text) {methods : List AidlMethod}
    (h : ∀ m ∈ methods, Opened m.returnType)
    (hignored : ∀ line ∈ comments, isCommentLine line = true)
    (hcomments : ∀ m ∈ methods, ∀ line ∈ m.comments, isCommentLine line = true) :
    ∃ lines : List Text, (interface super mixesOneway comments notes methods).memberSteps o =
        lines.map WritingStep.line ∧
      lines.filter isCommentLine = comments ++ methods.flatMap AidlMethod.comments := by
  obtain ⟨lines, hlines, hrest⟩ := comments_of_methodSteps o h hcomments
  refine ⟨comments ++ (if comments.isEmpty then [] else [[]]) ++ lines, ?_, ?_⟩
  · rw [memberSteps_interface, hlines, ← List.map_append]
  · have hgap : (if comments.isEmpty then [] else [[]] : List Text).filter isCommentLine = [] := by
      cases comments with
      | nil => rfl
      | cons comment rest => rfl
    rw [List.filter_append, List.filter_append, List.filter_eq_self.2 hignored, hgap, hrest,
      List.append_nil]

end AidlBody

/-! ### Departures -/

/-- What the file of an interface has otherwise than the interfaces that it comes from. -/
inductive Departure where
  /-- A method of the chain was left out. -/
  | ignored (k : Candidate)
  /-- A result with a status or an error code was left out. -/
  | dropped (m : Method) (result : Param)
  /-- A method goes by its canonical name. -/
  | renamed (m : Method)
  /-- The only result with a value became the return value. -/
  | returned (m : Method) (result : Param)
deriving DecidableEq

/-- A list if it holds one thing only. -/
def onlyOne {α : Type} : List α → List α
  | [a] => [a]
  | _ => []

/-- The departures of a method that stays: every status result, a name that is not the canonical one,
and the only result with a value. -/
def Method.departures (m : Method) : List Departure :=
  (statusResults m.results).map (.dropped m) ++
    (if Candidate.canonicalName m.name = m.name then [] else [.renamed m]) ++
    (onlyOne (valueResults m.results)).map (.returned m)

/-- The departures of merged methods: what is left out, then method by method what becomes of those
that stay. -/
def Merge.departures (m : Merge) : List Departure :=
  m.ignored.map .ignored ++ m.winners.flatMap fun w => w.method.departures

namespace Catalogue

variable {c : Catalogue}

/-- The wording of the comment on a departure. -/
inductive CommentOn (c : Catalogue) : Departure → Text → Prop
  | ignored (k : Candidate) : CommentOn c (.ignored k)
      (Text.ofString "// Ignoring method " ++ k.method.name ++
        Text.ofString " since a newer alternative is available.")
  | dropped (m : Method) {result : Param} {type : Text} (h : c.aidlType result.type = .ok type) :
      CommentOn c (.dropped m result)
        (Text.ofString "// Ignoring result " ++ type ++ ' ' :: result.name ++
          Text.ofString " since AIDL has built in status types.")
  | renamed (m : Method) : CommentOn c (.renamed m)
      (Text.ofString "// Changing method name from " ++ m.name ++ Text.ofString " to " ++
        Candidate.canonicalName m.name)
  | returned (m : Method) {result : Param} {type : Text} (h : c.aidlType result.type = .ok type) :
      CommentOn c (.returned m result)
        (Text.ofString "// Adding return type to method instead of out param " ++ type ++
          ' ' :: result.name ++ Text.ofString " since there is only one return value.")

/-- The wording of the note on a departure in a file that declares an owner. -/
inductive NoteOn (c : Catalogue) (owner : Text) : Departure → Text → Prop
  | ignored {k : Candidate} {d : Declaration} (h : c.get? k.declaredIn = some d) :
      NoteOn c owner (.ignored k)
        (owner ++ (Text.ofString ": ignoring " ++ k.method.name ++ Text.ofString " from " ++
          d.name.text))
  | dropped (m : Method) (result : Param) : NoteOn c owner (.dropped m result)
      (owner ++ (Text.ofString ": dropped result " ++ result.name ++ Text.ofString " of " ++ m.name))
  | renamed (m : Method) : NoteOn c owner (.renamed m)
      (owner ++ (Text.ofString ": renamed " ++ m.name ++ Text.ofString " to " ++
        Candidate.canonicalName m.name))
  | returned (m : Method) (result : Param) : NoteOn c owner (.returned m result)
      (owner ++ (Text.ofString ": result " ++ result.name ++ Text.ofString " of " ++ m.name ++
        Text.ofString " is now the return value"))

theorem CommentOn.isCommentLine {departure : Departure} {line : Text}
    (h : c.CommentOn departure line) : isCommentLine line = true := by
  cases h with
  | ignored => rfl
  | dropped => rfl
  | renamed => rfl
  | returned => rfl

/-- The departures decide the comments on them. -/
theorem rightUnique_commentOn : Relator.RightUnique c.CommentOn := by
  intro departure line line' h h'
  cases h with
  | ignored k =>
    cases h'
    rfl
  | dropped m h =>
    cases h' with
    | dropped _ h' =>
      rw [h] at h'
      rw [Except.ok.inj h']
  | renamed m =>
    cases h'
    rfl
  | returned m h =>
    cases h' with
    | returned _ h' =>
      rw [h] at h'
      rw [Except.ok.inj h']

theorem isCommentLine_of_forall₂ {departures : List Departure} {comments : List Text}
    (h : List.Forall₂ c.CommentOn departures comments) :
    ∀ line ∈ comments, isCommentLine line = true := by
  intro line hline
  obtain ⟨i, hi, rfl⟩ := List.getElem_of_mem hline
  exact (h.get (h.length_eq ▸ hi) hi).isCommentLine

theorem typed_of_ofResults {results : List Param} {plan : SignaturePlan}
    (h : SignaturePlan.ofResults c results = .ok plan) :
    List.Forall₂ (fun p r => SignaturePlan.typed c p = .ok r) (statusResults results)
        plan.dropped ∧
      List.Forall₂ (fun p r => SignaturePlan.typed c p = .ok r) (onlyOne (valueResults results))
        plan.returned.toList := by
  obtain ⟨dropped, hdropped, hcases⟩ := SignaturePlan.ofResults_eq_ok h
  have hstatus := Outcome.mapM_eq_ok_iff_forall₂.1 hdropped
  rcases hcases with ⟨single, returned, hsingle, hreturned, rfl⟩ | ⟨hseveral, rfl⟩
  · refine ⟨hstatus, ?_⟩
    rw [hsingle]
    exact .cons hreturned .nil
  · refine ⟨hstatus, ?_⟩
    have hnone : onlyOne (valueResults results) = [] := by
      unfold onlyOne
      split
      · next single hsingle => exact absurd hsingle (hseveral single)
      · rfl
    rw [hnone]
    exact .nil

/-- Whether the texts of remarks are right for the departures that the remarks are about. -/
structure Tells (c : Catalogue) (right : Departure → Text → Prop) (tell : Remark → Text) : Prop where
  ignored : ∀ {k : Candidate} {d : Declaration}, c.get? k.declaredIn = some d →
    right (.ignored k) (tell (.ignored k.method.name d.name))
  dropped : ∀ (m : Method) {p : Param} {type : Text}, c.aidlType p.type = .ok type →
    right (.dropped m p) (tell (.dropped type p.name m.name))
  renamed : ∀ m : Method,
    right (.renamed m) (tell (.renamed m.name (Candidate.canonicalName m.name)))
  returned : ∀ (m : Method) {p : Param} {type : Text}, c.aidlType p.type = .ok type →
    right (.returned m p) (tell (.returned type p.name m.name))

theorem tells_comment : c.Tells c.CommentOn Remark.comment :=
  ⟨fun _ => .ignored _, .dropped, .renamed, .returned⟩

theorem tells_note (owner : Text) :
    c.Tells (fun departure note => c.NoteOn owner departure (owner ++ Text.ofString ": " ++ note))
      Remark.note where
  ignored h := by
    rw [List.append_assoc]
    exact .ignored h
  dropped m p _ _ := by
    rw [List.append_assoc]
    exact .dropped m p
  renamed m := by
    rw [List.append_assoc]
    exact .renamed m
  returned m p _ _ := by
    rw [List.append_assoc]
    exact .returned m p

section

variable {right : Departure → Text → Prop} {tell : Remark → Text} (h : c.Tells right tell)

include h

theorem Tells.forall₂_ignored {ks : List Candidate} {remarks : List Remark}
    (hremarks : ks.mapM c.ignoredRemark = .ok remarks) :
    List.Forall₂ right (ks.map .ignored) (remarks.map tell) := by
  rw [List.forall₂_map_left_iff, List.forall₂_map_right_iff]
  refine (Outcome.mapM_eq_ok_iff_forall₂.1 hremarks).imp fun k remark hk => ?_
  obtain ⟨source, hsource, rfl⟩ := Outcome.map_eq_ok.1 hk
  exact h.ignored (fetch_eq_ok.1 hsource)

/-- A plan drops and returns the results that the departures of its method name, in their order. -/
theorem Tells.forall₂_departures {w : Candidate} {plan : SignaturePlan}
    (hname : w.name = Candidate.canonicalName w.method.name)
    (hplan : SignaturePlan.ofResults c w.method.results = .ok plan) :
    List.Forall₂ right w.method.departures
      (plan.dropped.map (fun r => tell (.dropped r.type r.name w.method.name)) ++
        (if w.isRenamed then [tell (.renamed w.method.name w.name)] else []) ++
        plan.returned.toList.map fun r => tell (.returned r.type r.name w.method.name)) := by
  obtain ⟨hdropped, hreturned⟩ := typed_of_ofResults hplan
  refine List.rel_append (List.rel_append ?_ ?_) ?_
  · rw [List.forall₂_map_left_iff, List.forall₂_map_right_iff]
    refine hdropped.imp fun p r hr => ?_
    obtain ⟨type, htype, rfl⟩ := Outcome.map_eq_ok.1 hr
    exact h.dropped w.method htype
  · rw [Candidate.isRenamed, hname]
    by_cases hsame : Candidate.canonicalName w.method.name = w.method.name
    · simp [hsame]
    · rw [if_neg hsame, if_pos (decide_eq_true hsame)]
      exact .cons (h.renamed w.method) .nil
  · rw [List.forall₂_map_left_iff, List.forall₂_map_right_iff]
    refine hreturned.imp fun p r hr => ?_
    obtain ⟨type, htype, rfl⟩ := Outcome.map_eq_ok.1 hr
    exact h.returned w.method htype

end

theorem departures_of_aidlMethod {w : Candidate} {e : AidlMethod} (owner : Text)
    (hname : w.name = Candidate.canonicalName w.method.name) (h : c.aidlMethod w = .ok e) :
    List.Forall₂ c.CommentOn w.method.departures e.comments ∧
      List.Forall₂
        (fun departure note => c.NoteOn owner departure (owner ++ Text.ofString ": " ++ note))
        w.method.departures e.notes := by
  obtain ⟨plan, _, _, hplan, _, _, rfl⟩ := aidlMethod_eq_ok_iff.1 h
  exact ⟨tells_comment.forall₂_departures hname hplan,
    (tells_note owner).forall₂_departures hname hplan⟩

/-! ### Types and signatures -/

theorem opened_of_dotted {t : Text} {names : List Text} (h : Dotted t names) : Opened t := by
  have hidentifier : ∀ {name : Text}, Identifier name → Opened name := by
    intro name hname
    cases hname with
    | intro hfirst _ =>
      refine .intro _ ?_
      rintro rfl
      revert hfirst
      unfold Letter
      decide
  cases h with
  | single h => exact hidentifier h
  | cons h _ => exact (hidentifier h).append _

theorem PackagesRead.opened_aidl (hc : c.PackagesRead) {id : DeclId} {d : Declaration}
    (hd : c.get? id = some d) : Opened d.name.aidl := by
  obtain ⟨t, ht⟩ := hc id d.name (name?_of_get? hd)
  obtain ⟨_, hpackage⟩ :=
    (QualifiedName.proper_of_spells (QualifiedName.read_eq_ok_iff_spells.1 ht)).package
  have hopened : Opened d.name.package := opened_of_dotted hpackage
  have haidl : Opened d.name.aidlPackage := by
    unfold QualifiedName.aidlPackage
    split
    · exact hopened
    · exact hopened.append _
  exact haidl.append _

theorem PackagesRead.opened_aidlType (hc : c.PackagesRead) {t : TypeRef} {text : Text}
    (h : c.aidlType t = .ok text) : Opened text := by
  induction t generalizing text with
  | primitive kind =>
    cases kind with
    | pointer => cases h
    | _ =>
      cases h
      exact .intro _ (by decide)
  | vector element ih =>
    rw [aidlType] at h
    obtain ⟨inner, hinner, rfl⟩ := Outcome.map_eq_ok.1 h
    exact (ih hinner).append _
  | named id =>
    obtain ⟨d, hd, rfl⟩ := Outcome.map_eq_ok.1 h
    exact hc.opened_aidl (fetch_eq_ok.1 hd)

theorem PackagesRead.opened_returnType (hc : c.PackagesRead) {w : Candidate} {e : AidlMethod}
    (h : c.aidlMethod w = .ok e) : Opened e.returnType := by
  obtain ⟨plan, _, _, hplan, _, _, rfl⟩ := aidlMethod_eq_ok_iff.1 h
  obtain ⟨_, _, ⟨single, returned, _, hreturned, rfl⟩ | ⟨_, rfl⟩⟩ :=
    SignaturePlan.ofResults_eq_ok hplan
  · obtain ⟨type, htype, rfl⟩ := Outcome.map_eq_ok.1 hreturned
    exact hc.opened_aidlType htype
  · exact .intro _ (by decide)

/-! ### The file of an interface -/

/-- The line that opens the body of an interface. -/
def openingLine (n : QualifiedName) : Text :=
  Text.ofString "interface " ++ n.aidlName ++ Text.ofString " \x7b"

/-- Whether these are the lines that are written into the indented body behind an opening line; the
steps in front of it write text and do not indent. -/
def WritesBody (steps : List WritingStep) (opening : Text) (lines : List Text) : Prop :=
  ∃ front : List WritingStep, (∀ step ∈ front, ∃ t, step = .text t) ∧
    steps = front ++ .line opening :: .indent :: lines.map WritingStep.line ++
      [.dedent, .line ['\x7d']]

theorem departures_of_translate {id : DeclId} {d : Declaration} {members : Interface} {m : Merge}
    {f : AidlFile} (hread : c.PackagesRead) (hd : c.get? id = some d)
    (hb : d.body = .interface members) (hm : c.merge id = .ok m)
    (hnames : ∀ w ∈ m.winners, w.name = Candidate.canonicalName w.method.name)
    (hf : c.translate id = .ok f) (o : Options) :
    f.source = d.name ∧
      (∀ owner, List.Forall₂ (c.NoteOn owner) m.departures
        (f.body.notes.map fun note => owner ++ Text.ofString ": " ++ note)) ∧
      ∃ lines, WritesBody (f.steps o) (openingLine d.name) lines ∧
        List.Forall₂ c.CommentOn m.departures (lines.filter isCommentLine) := by
  obtain ⟨merged, _, imports, super, ignored, methods, hmerged, _, _, _, hignored, hmethods, hfile⟩ :=
    (translate_interface_eq_ok_iff hd hb).1 hf
  rw [hm] at hmerged
  cases hmerged
  have hpairs := (List.forall₂_and_left _ _).2 ⟨hnames, Outcome.mapM_eq_ok_iff_forall₂.1 hmethods⟩
  refine ⟨by rw [hfile], ?_, ?_⟩
  · intro owner
    rw [List.forall₂_map_right_iff, hfile]
    exact List.rel_append ((tells_note owner).forall₂_ignored hignored)
      (List.rel_flatMap hpairs fun _ _ he => (departures_of_aidlMethod owner he.1 he.2).2)
  · have hcomments : List.Forall₂ c.CommentOn m.departures
        (ignored.map Remark.comment ++ methods.flatMap AidlMethod.comments) :=
      List.rel_append (tells_comment.forall₂_ignored hignored)
        (List.rel_flatMap hpairs fun _ _ he => (departures_of_aidlMethod [] he.1 he.2).1)
    have hopened : ∀ e ∈ methods, Opened e.returnType := by
      intro e he
      obtain ⟨w, _, hw⟩ := Outcome.exists_of_mem_mapM hmethods he
      exact hread.opened_returnType hw
    have hall := isCommentLine_of_forall₂ hcomments
    obtain ⟨lines, hlines, hkept⟩ :=
      AidlBody.comments_of_memberSteps o super m.mixesOneway (ignored.map Remark.note) hopened
        (fun line hline => hall line (List.mem_append_left _ hline))
        fun e he line hline =>
          hall line (List.mem_append_right _ (List.mem_flatMap.2 ⟨e, he, hline⟩))
    have hsteps : f.steps o = f.frontSteps o ++ .line (openingLine d.name) :: .indent ::
        lines.map WritingStep.line ++ [.dedent, .line ['\x7d']] := by
      rw [← hlines, hfile]
      rfl
    refine ⟨lines, ⟨_, AidlFile.text_of_mem_frontSteps o f, hsteps⟩, ?_⟩
    rw [hkept]
    exact hcomments

/-- The notes of an interface are the line of its conversion and a note on each departure, and the
comment lines in the body of its file are a comment on each departure, in the same order.
Documentation counts for nothing here, since none of its lines is a comment of its own. -/
theorem render_accounts_for_departures {ops : List Operation} (h : (build ops).finish = .ok c)
    (hread : c.PackagesRead) {id : DeclId} {d : Declaration} {members : Interface}
    (hd : c.get? id = some d) (hb : d.body = .interface members) :
    ∃ m, c.merge id = .ok m ∧ (SoundReferences c → ∀ o, ∃ r, c.render o id = .ok r) ∧
      ∀ o r, c.render o id = .ok r → ∃ f notes lines, c.translate id = .ok f ∧
        r.notes = (Text.ofString "Converted " ++ d.name.text ++ Text.ofString " to " ++ d.name.aidl) ::
          notes ∧
        List.Forall₂ (c.NoteOn d.name.aidl) m.departures notes ∧
        r.text = Pen.start.text o.indentWidth (f.steps o) ∧
        WritesBody (f.steps o) (openingLine d.name) lines ∧
        List.Forall₂ c.CommentOn m.departures (lines.filter isCommentLine) := by
  obtain ⟨chain, hmerge⟩ := exists_merge_of_finish h (isInterface_of_body hd hb)
  have hnames : ∀ w ∈ (Merge.ofCandidates (c.candidatesFrom 0 chain)).winners,
      w.name = Candidate.canonicalName w.method.name :=
    fun w hw => name_of_mem_candidatesFrom (Merge.mem_of_mem_winners hw)
  refine ⟨_, hmerge, ?_, ?_⟩
  · intro hsound o
    exact (renderable_of_finish h hsound).exists_render o (lt_size_of_get? hd)
  · intro o r hr
    obtain ⟨f, hf, hr⟩ := Outcome.bind_eq_ok.1 hr
    obtain ⟨hsource, hnotes, lines, hbody, hcomments⟩ :=
      departures_of_translate hread hd hb hmerge hnames hf o
    split at hr
    · cases hr
      refine ⟨f, _, lines, hf, ?_, hnotes d.name.aidl, rfl, hbody, hcomments⟩
      rw [AidlFile.render, AidlFile.notes, hsource, QualifiedName.aidl]
    · cases hr

/-- A lamp at a minor version. -/
def lampName (minor : Nat) : QualifiedName :=
  ⟨Text.ofString "hw.lamp", ⟨1, minor⟩, [Text.ofString "ILamp"]⟩

/-- The method of the older lamp. It only says how it went. -/
def dimMethod : Method :=
  ⟨Text.ofString "dim", [], [⟨Text.ofString "status", .primitive .int32⟩], false, none⟩

/-- The method of the newer lamp, which gives the old level together with a status. -/
def newerDimMethod : Method :=
  ⟨Text.ofString "dim_1_1", [⟨Text.ofString "level", .primitive .uint32⟩],
    [⟨Text.ofString "status", .primitive .int32⟩, ⟨Text.ofString "level", .primitive .uint32⟩],
    false, none⟩

/-- Two versions of a lamp. The newer one has a newer form of the method. -/
def lampOps : List Operation :=
  [.declareInterface (lampName 0) none, .declareInterface (lampName 1) none, .setSuper 2 1,
    .addMethod 1 dimMethod, .addMethod 2 newerDimMethod]

theorem packagesRead_lampOps : (build lampOps).PackagesRead := by
  intro id n hn
  match id with
  | 0 =>
    cases hn
    exact ⟨Text.ofString "android.hidl.base@1.0", rfl⟩
  | 1 =>
    cases hn
    exact ⟨Text.ofString "hw.lamp@1.0", rfl⟩
  | 2 =>
    cases hn
    exact ⟨Text.ofString "hw.lamp@1.1", rfl⟩
  | k + 3 => cases hn

/-- What the log says about the lamp. -/
def lampNotes : List Text :=
  [Text.ofString "Converted hw.lamp@1.1::ILamp to hw.lamp.ILamp",
    Text.ofString "hw.lamp.ILamp: ignoring dim from hw.lamp@1.0::ILamp",
    Text.ofString "hw.lamp.ILamp: dropped result status of dim_1_1",
    Text.ofString "hw.lamp.ILamp: renamed dim_1_1 to dim",
    Text.ofString "hw.lamp.ILamp: result level of dim_1_1 is now the return value"]

/-- What the lamp's file says about the methods that it comes from. -/
def lampComments : List Text :=
  [Text.ofString "// Ignoring method dim since a newer alternative is available.",
    Text.ofString "// Ignoring result int status since AIDL has built in status types.",
    Text.ofString "// Changing method name from dim_1_1 to dim",
    Text.ofString "// Adding return type to method instead of out param int level " ++
      Text.ofString "since there is only one return value."]

theorem lampOps_account_for_departures :
    (build lampOps).finish = .ok (build lampOps) ∧ (build lampOps).PackagesRead ∧
      ∃ f lines, ∃ r : Rendering, (build lampOps).translate 2 = .ok f ∧
        (build lampOps).render Options.standard 2 = .ok r ∧
        r.notes = lampNotes ∧
        r.text = Pen.start.text 4 (f.steps Options.standard) ∧
        WritesBody (f.steps Options.standard) (Text.ofString "interface ILamp \x7b") lines ∧
        lines.filter isCommentLine = lampComments ∧
        ∀ line ∈ lampComments, Text.ofString "    " ++ line ∈ Text.split '\n' r.text := by
  have hfinish : (build lampOps).finish = .ok (build lampOps) := by decide
  have hd : (build lampOps).get? 2 = some
      ⟨lampName 1, none, .interface ⟨some 1, [newerDimMethod]⟩, [], none⟩ := rfl
  obtain ⟨m, hm, _, hall⟩ := render_accounts_for_departures hfinish packagesRead_lampOps hd rfl
  have hdepartures : ((build lampOps).merge 2).map Merge.departures = .ok
      [.ignored ⟨dimMethod, 1, Text.ofString "dim", ⟨1, 0⟩, 1⟩,
        .dropped newerDimMethod ⟨Text.ofString "status", .primitive .int32⟩,
        .renamed newerDimMethod,
        .returned newerDimMethod ⟨Text.ofString "level", .primitive .uint32⟩] := rfl
  have hshown : ((build lampOps).render Options.standard 2).map (fun r => decide
      (r.notes = lampNotes ∧
        ∀ line ∈ lampComments, Text.ofString "    " ++ line ∈ Text.split '\n' r.text)) =
        .ok true := by decide +kernel
  obtain ⟨r, hr, hshown⟩ := Outcome.map_eq_ok.1 hshown
  obtain ⟨hnotes, htext⟩ := of_decide_eq_true hshown
  obtain ⟨f, _, lines, hf, _, _, hsteps, hbody, hcomments⟩ := hall Options.standard r hr
  rw [hm] at hdepartures
  rw [show m.departures = _ from Except.ok.inj hdepartures] at hcomments
  refine ⟨hfinish, packagesRead_lampOps, f, lines, r, hf, hr, hnotes, hsteps, hbody, ?_, htext⟩
  have hint : (build lampOps).aidlType (.primitive .int32) = .ok (Text.ofString "int") := rfl
  have huint : (build lampOps).aidlType (.primitive .uint32) = .ok (Text.ofString "int") := rfl
  have hname : Candidate.canonicalName newerDimMethod.name = Text.ofString "dim" := by decide
  -- The departures decide their comments, so it is enough to name one comment for each.
  rw [rightUnique_commentOn.forall₂ hcomments (.cons (.ignored _) (.cons (.dropped _ hint)
    (.cons (.renamed _) (.cons (.returned _ huint) .nil)))), hname]
  simp [lampComments, dimMethod, newerDimMethod, Text.ofString]

end Catalogue

end FlatAidl
