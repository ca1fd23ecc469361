import FlatAidl.Proofs.Catalogue.History
import FlatAidl.Proofs.Doc.Update
import FlatAidl.Proofs.Rendering.Parts
import FlatAidl.Proofs.Signature.Plan

/-!
Descriptions of results in the methods of an AIDL file. A description becomes one of an out parameter
where its name has no record of a change, and that says less than that there is such a parameter: a
name that no result has, as the first word of a plain sentence, has no record either.
-/

namespace FlatAidl

/-- The names of a method's out parameters. -/
def AidlMethod.outNames (m : AidlMethod) : List Text :=
  (m.params.filter AidlParam.out).map AidlParam.name

/-- What a method's comment makes of the descriptions in the comment that it comes from: each has its
lines in the new comment, and it describes an out parameter there exactly if it names one of the
method or no result at all. -/
def FollowsResults (m : Candidate) (e : AidlMethod) : Prop :=
  ∀ t l, m.method.doc = some (DocComment.read t l) → ∃ changes,
    e.doc = some ((DocComment.read t l).update changes) ∧
    ∀ line ∈ (DocComment.read t l).lines, ∀ name rest,
      DocComment.described? line = some (name, rest) →
        DocComment.renewed changes line <:+: ((DocComment.read t l).update changes).lines ∧
        (DocComment.renewed changes line =
            [Text.join [' '] (DocComment.outTag :: name :: rest)] ↔
          name ∈ e.outNames ∨ name ∉ m.method.results.map Param.name)

namespace Catalogue

variable {c : Catalogue}

theorem aidlParams_names {out : Bool} {params : List Param} {ps : List AidlParam}
    (h : params.mapM (c.aidlParam out) = .ok ps) :
    ps.map AidlParam.name = params.map Param.name ∧ ∀ p ∈ ps, p.out = out := by
  induction params generalizing ps with
  | nil =>
    cases h
    exact ⟨rfl, fun p hp => absurd hp List.not_mem_nil⟩
  | cons first more ih =>
    rw [Outcome.mapM_cons] at h
    obtain ⟨param, hparam, h⟩ := Outcome.bind_eq_ok.1 h
    obtain ⟨rest, hrest, h⟩ := Outcome.bind_eq_ok.1 h
    cases h
    obtain ⟨type, _, rfl⟩ := Outcome.map_eq_ok.1 hparam
    obtain ⟨hnames, hout⟩ := ih hrest
    exact ⟨by rw [List.map_cons, List.map_cons, hnames], List.forall_mem_cons.2 ⟨rfl, hout⟩⟩

/-- The parts of a method that its results decide. -/
theorem aidlMethod_cases {m : Candidate} {e : AidlMethod} (h : c.aidlMethod m = .ok e) :
    ∃ plan, SignaturePlan.ofResults c m.method.results = .ok plan ∧
      e.outNames = plan.outParams.map Param.name ∧
      e.doc = m.method.doc.map (·.update plan.changes) := by
  obtain ⟨plan, args, outs, hplan, hargs, houts, rfl⟩ := aidlMethod_eq_ok_iff.1 h
  refine ⟨plan, hplan, ?_, rfl⟩
  have hin : args.filter AidlParam.out = [] :=
    List.filter_eq_nil_iff.2 fun p hp => by simp [(aidlParams_names hargs).2 p hp]
  have hall : outs.filter AidlParam.out = outs :=
    List.filter_eq_self.2 (aidlParams_names houts).2
  rw [AidlMethod.outNames, List.filter_append, hin, hall, List.nil_append,
    (aidlParams_names houts).1]

theorem followsResults_of_aidlMethod {m : Candidate} {e : AidlMethod}
    (h : c.aidlMethod m = .ok e) : FollowsResults m e := by
  obtain ⟨plan, hplan, hout, hdoc⟩ := aidlMethod_cases h
  intro t l ht
  rw [ht] at hdoc
  refine ⟨plan.changes, hdoc, fun line hline name rest hdescribed => ⟨?_, ?_⟩⟩
  · exact DocComment.renewed_infix_update (DocComment.readLines_clean t) _ hline hdescribed
  · rw [DocComment.renewed_of_described _ hdescribed, DocComment.resultLines_eq_out_iff, hout]
    exact SignaturePlan.fate?_eq_none_iff hplan name

/-- In the file of an interface each method of the merged ones has the comment that follows its
results: the descriptions that become those of out parameters name an out parameter of the method,
or no result of it. -/
theorem translate_follows_results {id : DeclId} {f : AidlFile} {super : Option QualifiedName}
    {mixesOneway : Bool} {comments notes : List Text} {methods : List AidlMethod}
    (h : c.translate id = .ok f)
    (hbody : f.body = .interface super mixesOneway comments notes methods) :
    ∃ merged, c.merge id = .ok merged ∧ List.Forall₂ FollowsResults merged.winners methods := by
  obtain ⟨merged, hmerged, hmethods⟩ := methods_of_translate h hbody
  exact ⟨merged, hmerged,
    (Outcome.mapM_eq_ok_iff_forall₂.1 hmethods).imp fun _ _ => followsResults_of_aidlMethod⟩

/-- A result with its name and a type of 32 bits. -/
def meterResult (name : String) : Param :=
  ⟨Text.ofString name, .primitive .int32⟩

/-- An interface with a method of one result, whose comment is a sentence about it, and a method of
two results, one of which is described. -/
def meterOps : List Operation :=
  [.declareInterface ⟨Text.ofString "hw.meter", ⟨1, 0⟩, [Text.ofString "IMeter"]⟩ none,
    .addMethod 1 ⟨Text.ofString "read", [], [meterResult "value"], false,
      some (DocComment.read (Text.ofString "@return the computed total") Location.unknown)⟩,
    .addMethod 1 ⟨Text.ofString "limits", [], [meterResult "low", meterResult "high"], false,
      some (DocComment.read (Text.ofString "@return low the lower one") Location.unknown)⟩]

def generatedDoc (line : String) : DocComment :=
  ⟨[Text.ofString line], Location.generated⟩

def meterRead : AidlMethod :=
  let returned : Remark :=
    .returned (Text.ofString "int") (Text.ofString "value") (Text.ofString "read")
  ⟨[returned.comment], [returned.note],
    some (generatedDoc "@param out the computed total"), false, Text.ofString "int",
    Text.ofString "read", []⟩

def meterLimits : AidlMethod :=
  ⟨[], [], some (generatedDoc "@param out low the lower one"), false, Text.ofString "void",
    Text.ofString "limits",
    [⟨true, Text.ofString "int", Text.ofString "low"⟩,
      ⟨true, Text.ofString "int", Text.ofString "high"⟩]⟩

def meterFile : AidlFile :=
  ⟨⟨Text.ofString "hw.meter", ⟨1, 0⟩, [Text.ofString "IMeter"]⟩, [], none,
    .interface none false [] [] [meterRead, meterLimits]⟩

theorem translate_meter : (build meterOps).translate 1 = .ok meterFile :=
  rfl

theorem meter_follows_results :
    (build meterOps).translate 1 = .ok meterFile ∧
      meterFile.body = .interface none false [] [] [meterRead, meterLimits] ∧
      ∃ merged, (build meterOps).merge 1 = .ok merged ∧
        List.Forall₂ FollowsResults merged.winners [meterRead, meterLimits] :=
  ⟨translate_meter, rfl, translate_follows_results translate_meter rfl⟩

/-- A sentence becomes the description of an out parameter in a method that has none. -/
theorem meter_describes_missing_parameter :
    (build meterOps).translate 1 = .ok meterFile ∧
      meterFile.body = .interface none false [] [] [meterRead, meterLimits] ∧
      DocComment.described? (Text.ofString "@return the computed total") =
        some (Text.ofString "the", [Text.ofString "computed", Text.ofString "total"]) ∧
      meterRead.doc.map DocComment.lines = some [Text.ofString "@param out the computed total"] ∧
      Text.ofString "the" ∉ meterRead.outNames := by
  refine ⟨translate_meter, rfl, ?_⟩
  decide

end Catalogue

end FlatAidl
