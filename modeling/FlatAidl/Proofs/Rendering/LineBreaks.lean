import FlatAidl.Proofs.Flattening.Suffixes
import FlatAidl.Proofs.Rendering.Parts
import FlatAidl.Proofs.Signature.Plan
import FlatAidl.Proofs.Text.Cuts
import FlatAidl.Proofs.Text.Lines
import FlatAidl.Proofs.Text.Numeral
import FlatAidl.Proofs.Text.UpperCase

/-!
Names without line breaks. What a signature is put together from holds a line break only where a name
does: numbers have none, upper case brings in none, and a canonical name is a part of the name.
-/

namespace FlatAidl

open Text

theorem Decimal.unbroken_write (n : Nat) : '\n' ∉ write n := fun h =>
  absurd ((denotes_write n).isDigit _ h) (by decide)

theorem Text.unbroken_capitalize {t : Text} (h : '\n' ∉ t) : '\n' ∉ t.capitalize := by
  intro hmem
  rcases mem_capitalize hmem with hmem | hlate
  · exact h hmem
  · exact absurd hlate (by decide)

namespace QualifiedName

variable {n : QualifiedName}

theorem unbroken_of_mem_names (h : '\n' ∉ n.text) : ∀ name ∈ n.names, '\n' ∉ name := by
  intro name hname hmem
  have hne : n.names.isEmpty = false :=
    List.isEmpty_eq_false_iff.2 (List.ne_nil_of_mem hname)
  refine h ?_
  rw [text, hne]
  exact List.mem_append_right _ (List.mem_append_right _ (mem_join_of_mem hname hmem))

theorem unbroken_aidl (h : '\n' ∉ n.text) : '\n' ∉ n.aidl := by
  have hpackage : '\n' ∉ n.package := fun hmem =>
    h (List.mem_append_left _ (List.mem_append_left _ hmem))
  have haidlPackage : '\n' ∉ n.aidlPackage := by
    rw [aidlPackage]
    split
    · exact hpackage
    · rw [List.mem_append, not_or]
      exact ⟨hpackage, Decimal.unbroken_write _⟩
  have hname : '\n' ∉ n.aidlName := by
    intro hmem
    obtain ⟨name, hname, hmem⟩ := List.mem_flatMap.1 hmem
    exact unbroken_capitalize (unbroken_of_mem_names h name hname) hmem
  rw [aidl, List.mem_append, List.mem_cons, not_or, not_or]
  exact ⟨haidlPackage, by decide, hname⟩

end QualifiedName

/-- Whether the names in a method's signature hold no line break: its own, those of what it takes and
hands over, and those of the declarations that these refer to. -/
structure Method.Unbroken (c : Catalogue) (m : Method) : Prop where
  name : '\n' ∉ m.name
  params : ∀ p ∈ m.args ++ m.results, '\n' ∉ p.name
  types : ∀ p ∈ m.args ++ m.results, ∀ id ∈ p.type.namedTypes, ∀ d, c.get? id = some d →
    '\n' ∉ d.name.text

/-- Whether a signature is put together from texts without a line break. -/
structure AidlMethod.Unbroken (m : AidlMethod) : Prop where
  lead : '\n' ∉ m.lead
  params : ∀ p ∈ m.params, '\n' ∉ p.text

namespace Catalogue

variable {c : Catalogue}

theorem unbroken_aidlType {t : TypeRef} {text : Text} (h : c.aidlType t = .ok text)
    (hnamed : ∀ id ∈ t.namedTypes, ∀ d, c.get? id = some d → '\n' ∉ d.name.text) :
    '\n' ∉ text := by
  induction t generalizing text with
  | primitive kind =>
    cases kind with
    | pointer => cases h
    | _ =>
      cases h
      decide
  | vector element ih =>
    obtain ⟨inner, hinner, rfl⟩ := Outcome.map_eq_ok.1 h
    rw [List.mem_append, not_or]
    exact ⟨ih hinner hnamed, by decide⟩
  | named id =>
    obtain ⟨d, hd, rfl⟩ := Outcome.map_eq_ok.1 h
    exact QualifiedName.unbroken_aidl (hnamed id (List.mem_cons_self ..) d (fetch_eq_ok.1 hd))

theorem unbroken_aidlParam {out : Bool} {p : Param} {e : AidlParam} (h : c.aidlParam out p = .ok e)
    (hname : '\n' ∉ p.name)
    (hnamed : ∀ id ∈ p.type.namedTypes, ∀ d, c.get? id = some d → '\n' ∉ d.name.text) :
    '\n' ∉ e.text := by
  obtain ⟨type, htype, rfl⟩ := Outcome.map_eq_ok.1 h
  have hdirection : '\n' ∉ if out then Text.ofString "out " else Text.ofString "in " := by
    cases out with
    | true => decide
    | false => decide
  simp only [AidlParam.text, List.mem_append, List.mem_cons, not_or]
  exact ⟨⟨hdirection, unbroken_aidlType htype hnamed⟩, by decide, hname⟩

theorem unbroken_aidlMethod {w : Candidate} {e : AidlMethod} (h : c.aidlMethod w = .ok e)
    (hname : w.name = Candidate.canonicalName w.method.name) (hw : w.method.Unbroken c) :
    e.Unbroken := by
  obtain ⟨plan, args, outs, hplan, hargs, houts, rfl⟩ := aidlMethod_eq_ok_iff.1 h
  have hresult : ∀ p ∈ valueResults w.method.results, p ∈ w.method.args ++ w.method.results :=
    fun p hp => List.mem_append_right _ (List.mem_filter.1 hp).1
  have hplanned : '\n' ∉ plan.returnType ∧
      ∀ p ∈ plan.outParams, p ∈ w.method.args ++ w.method.results := by
    obtain ⟨_, _, ⟨single, returned, hsingle, hreturned, rfl⟩ | ⟨_, rfl⟩⟩ :=
      SignaturePlan.ofResults_eq_ok hplan
    · obtain ⟨type, htype, rfl⟩ := Outcome.map_eq_ok.1 hreturned
      have hmem := hresult single (by rw [hsingle]; exact List.mem_singleton_self single)
      exact ⟨unbroken_aidlType htype (hw.types single hmem), fun p hp => absurd hp List.not_mem_nil⟩
    · have hvoid : '\n' ∉ Text.ofString "void" := by decide
      exact ⟨hvoid, hresult⟩
  have hcanonical : '\n' ∉ w.name := by
    rw [hname]
    exact fun hmem => hw.name ((Candidate.canonicalName_prefix _).subset hmem)
  constructor
  · have hdirection : '\n' ∉ if w.method.oneway then Text.ofString "oneway " else [] := by
      cases w.method.oneway with
      | true => decide
      | false => decide
    simp only [AidlMethod.lead, List.mem_append, List.mem_cons, not_or]
    exact ⟨⟨⟨hdirection, hplanned.1⟩, by decide, hcanonical⟩, by decide, List.not_mem_nil⟩
  · intro e he
    rcases List.mem_append.1 he with he | he
    · obtain ⟨p, hp, hparam⟩ := Outcome.exists_of_mem_mapM hargs he
      have hmem := List.mem_append_left w.method.results hp
      exact unbroken_aidlParam hparam (hw.params p hmem) (hw.types p hmem)
    · obtain ⟨p, hp, hparam⟩ := Outcome.exists_of_mem_mapM houts he
      have hmem := hplanned.2 p hp
      exact unbroken_aidlParam hparam (hw.params p hmem) (hw.types p hmem)

end Catalogue

end FlatAidl
