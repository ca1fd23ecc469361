import FlatAidl.Proofs.Rendering.Faultless
import FlatAidl.Proofs.Signature.Plan
import FlatAidl.Proofs.Text.Cuts

/-!
How a plan divides the results of a method, and how its records tell them apart. Records go by name,
and names may be repeated. Main statement: the results fall into dropped ones, a returned one and out
parameters without loss, and the first record of a result's name says which of these the result is.
-/

namespace FlatAidl

/-- A name that ends with one of the two words, in any case. -/
theorem isStatusName_iff {name : Text} : isStatusName name = true ↔
    Text.ofString "STATUS" <:+ Text.upper name ∨ Text.ofString "ERROR" <:+ Text.upper name := by
  simp only [isStatusName, Bool.or_eq_true, Text.endsWith_iff]

theorem mem_statusResults {results : List Param} {r : Param} :
    r ∈ statusResults results ↔ r ∈ results ∧ isStatusName r.name = true := by
  simp [statusResults]

theorem mem_valueResults {results : List Param} {r : Param} :
    r ∈ valueResults results ↔ r ∈ results ∧ isStatusName r.name = false := by
  simp [valueResults]

namespace ResultChange

theorem find?_append (changes more : List ResultChange) (name : Text) :
    find? (changes ++ more) name = (find? changes name).or (find? more name) := by
  simp only [find?, List.find?_append, Option.map_or]

end ResultChange

namespace SignaturePlan

variable {c : Catalogue} {results : List Param} {plan : SignaturePlan}

theorem find?_dropChanges (ps : List Param) (name : Text) :
    ResultChange.find? (ps.map dropChange) name =
      if name ∈ ps.map Param.name then some .dropped else none := by
  induction ps with
  | nil => rfl
  | cons p ps ih =>
    by_cases hp : p.name = name
    · simp [ResultChange.find?, dropChange, hp]
    · have hmem : name ∈ (p :: ps).map Param.name ↔ name ∈ ps.map Param.name := by
        simp [Ne.symm hp]
      simp only [hmem, ← ih]
      simp [ResultChange.find?, dropChange, hp]

/-- What a plan does with the results: the ones that are named for a status or an error are dropped,
a single other one is returned, and several others stay as they are. -/
structure Divides (c : Catalogue) (results : List Param) (plan : SignaturePlan) : Prop where
  dropped : List.Forall₂ (fun p r => c.aidlType p.type = .ok r.type ∧ p.name = r.name)
    (statusResults results) plan.dropped
  single : ∀ r, valueResults results = [r] → ∃ type, c.aidlType r.type = .ok type ∧
    plan.returned = some ⟨type, r.name⟩ ∧ plan.returnType = type ∧ plan.outParams = [] ∧
    plan.changes = (statusResults results).map dropChange ++ [⟨r.name, .returned⟩]
  several : (valueResults results).length ≠ 1 → plan.returned = none ∧
    plan.returnType = Text.ofString "void" ∧ plan.outParams = valueResults results ∧
    plan.changes = (statusResults results).map dropChange

theorem divides_of_ofResults (h : ofResults c results = .ok plan) : plan.Divides c results := by
  obtain ⟨dropped, hdropped, hcases⟩ := ofResults_eq_ok h
  have htypes : List.Forall₂ (fun p r => c.aidlType p.type = .ok r.type ∧ p.name = r.name)
      (statusResults results) dropped := by
    refine (Outcome.mapM_eq_ok_iff_forall₂.1 hdropped).imp fun p r hr => ?_
    obtain ⟨type, htype, rfl⟩ := Outcome.map_eq_ok.1 hr
    exact ⟨htype, rfl⟩
  rcases hcases with ⟨single, returned, hsingle, hreturned, rfl⟩ | ⟨hseveral, rfl⟩
  · obtain ⟨type, htype, rfl⟩ := Outcome.map_eq_ok.1 hreturned
    refine ⟨htypes, ?_, ?_⟩
    · intro r hr
      obtain rfl : single = r := by simpa [hsingle] using hr
      exact ⟨type, htype, rfl, rfl, rfl, rfl⟩
    · intro hlength
      simp [hsingle] at hlength
  · refine ⟨htypes, ?_, ?_⟩
    · intro r hr
      exact absurd hr (hseveral r)
    · intro _
      exact ⟨rfl, rfl, rfl, rfl⟩

theorem fate?_of_status (h : ofResults c results = .ok plan) {r : Param}
    (hr : r ∈ statusResults results) : plan.fate? r.name = some .dropped := by
  have hmem : r.name ∈ (statusResults results).map Param.name := List.mem_map_of_mem hr
  rcases ofResults_cases h with ⟨single, _, _, hchanges⟩ | ⟨_, _, hchanges⟩
  · rw [fate?, hchanges, ResultChange.find?_append, find?_dropChanges, if_pos hmem]
    rfl
  · rw [fate?, hchanges, find?_dropChanges, if_pos hmem]

/-- The first record of a result's name is the one that was made for the result. -/
theorem fate?_of_result (h : ofResults c results = .ok plan) {r : Param} (hr : r ∈ results) :
    (plan.fate? r.name = some .dropped ↔ r ∈ statusResults results) ∧
      (plan.fate? r.name = some .returned ↔ valueResults results = [r]) ∧
      (plan.fate? r.name = none ↔ r ∈ plan.outParams) := by
  cases hstatus : isStatusName r.name with
  | true =>
    have hmem : r ∈ statusResults results := mem_statusResults.2 ⟨hr, hstatus⟩
    have hnot : r ∉ valueResults results := by simp [mem_valueResults, hstatus]
    have hone : valueResults results ≠ [r] := by
      intro heq
      simp [heq] at hnot
    have hout : r ∉ plan.outParams := by
      rcases ofResults_cases h with ⟨_, _, hout, _⟩ | ⟨_, hout, _⟩
      · simp [hout]
      · rw [hout]
        exact hnot
    simp [fate?_of_status h hmem, hmem, hone, hout]
  | false =>
    have hmem : r ∈ valueResults results := mem_valueResults.2 ⟨hr, hstatus⟩
    have hnot : r ∉ statusResults results := by simp [mem_statusResults, hstatus]
    have hname : r.name ∉ (statusResults results).map Param.name :=
      not_status_of_value (List.mem_map_of_mem hmem)
    rcases ofResults_cases h with ⟨single, hsingle, hout, hchanges⟩ | ⟨hseveral, hout, hchanges⟩
    · obtain rfl : r = single := by simpa [hsingle] using hmem
      have hfate : plan.fate? r.name = some .returned := by
        rw [fate?, hchanges, ResultChange.find?_append, find?_dropChanges, if_neg hname]
        simp [ResultChange.find?]
      simp [hfate, hnot, hsingle, hout]
    · have hfate : plan.fate? r.name = none := by
        rw [fate?, hchanges, find?_dropChanges, if_neg hname]
      simp [hfate, hnot, hseveral r, hout, hmem]

/-- The results of a method whose types have AIDL forms are divided by their names alone, in order and
without loss, and the first record of each name is that of every result with the name. -/
theorem exists_plan_that_divides {m : Method} (h : ∀ r ∈ m.results, r.type.Sound c) :
    ∃ plan, ofResults c m.results = .ok plan ∧ plan.Divides c m.results ∧
      ∀ r ∈ m.results,
        (r ∈ statusResults m.results ↔ Text.ofString "STATUS" <:+ Text.upper r.name ∨
          Text.ofString "ERROR" <:+ Text.upper r.name) ∧
        (r ∈ valueResults m.results ↔ r ∉ statusResults m.results) ∧
        (plan.fate? r.name = some .dropped ↔ r ∈ statusResults m.results) ∧
        (plan.fate? r.name = some .returned ↔ valueResults m.results = [r]) ∧
        (plan.fate? r.name = none ↔ r ∈ plan.outParams) := by
  obtain ⟨plan, hplan, _⟩ := Catalogue.exists_plan h
  refine ⟨plan, hplan, divides_of_ofResults hplan, fun r hr => ⟨?_, ?_, fate?_of_result hplan hr⟩⟩
  · rw [mem_statusResults, isStatusName_iff, and_iff_right hr]
  · simp [mem_statusResults, mem_valueResults, hr]

/-- A method that names two of its results alike, with two more that tell how it went. -/
def readSensor : Method :=
  let result (name : String) (type : TypeRef) : Param := ⟨Text.ofString name, type⟩
  ⟨Text.ofString "read", [], [result "exitStatus" (.primitive .int32),
    result "value" (.primitive .uint32), result "lasterror" (.primitive .string),
    result "value" (.vector (.primitive .float))], false, none⟩

theorem readSensor_divided :
    (∀ r ∈ readSensor.results, r.type.Sound .initial) ∧
      ∃ plan, ofResults .initial readSensor.results = .ok plan ∧
        plan.fate? (Text.ofString "lasterror") = some .dropped ∧
        plan.fate? (Text.ofString "value") = none ∧
        plan.outParams.map Param.name = [Text.ofString "value", Text.ofString "value"] := by
  have hsound : ∀ r ∈ readSensor.results, r.type.Sound .initial := by
    simp [readSensor, TypeRef.Sound]
  obtain ⟨plan, hplan, hdivides, hfates⟩ := exists_plan_that_divides hsound
  obtain ⟨_, _, hout, _⟩ := hdivides.several (by decide)
  obtain ⟨_, _, hdropped, _, _⟩ :=
    hfates ⟨Text.ofString "lasterror", .primitive .string⟩ (by decide)
  obtain ⟨_, _, _, _, hnone⟩ := hfates ⟨Text.ofString "value", .primitive .uint32⟩ (by decide)
  refine ⟨hsound, plan, hplan, hdropped.2 (by decide), hnone.2 ?_, ?_⟩
  · rw [hout]
    decide
  · rw [hout]
    decide

end SignaturePlan

end FlatAidl
