import FlatAidl.Proofs.Outcome
import FlatAidl.Signature.Plan

/-!
What a plan makes of each result. A result's name alone decides whether it is dropped, so all results
of one name go the same way: they are dropped, become the return value, or stay as out parameters.
-/

namespace FlatAidl

namespace ResultChange

theorem find?_eq_none_iff {changes : List ResultChange} {name : Text} :
    find? changes name = none ↔ name ∉ changes.map ResultChange.result := by
  simp [find?]

end ResultChange

/-- The results that carry a status or an error code. -/
def statusResults (results : List Param) : List Param :=
  results.filter fun p => isStatusName p.name

/-- The results that carry values. -/
def valueResults (results : List Param) : List Param :=
  results.filter fun p => !isStatusName p.name

/-- A name is a status result's or a value's, by what it says. -/
theorem mem_names_iff {results : List Param} {name : Text} :
    name ∈ results.map Param.name ↔
      name ∈ (statusResults results).map Param.name ∨
        name ∈ (valueResults results).map Param.name := by
  simp only [List.mem_map, statusResults, valueResults, List.mem_filter]
  constructor
  · rintro ⟨p, hp, hname⟩
    cases hstatus : isStatusName p.name with
    | true => exact Or.inl ⟨p, ⟨hp, hstatus⟩, hname⟩
    | false => exact Or.inr ⟨p, ⟨hp, by rw [hstatus]; rfl⟩, hname⟩
  · rintro (⟨p, ⟨hp, _⟩, hname⟩ | ⟨p, ⟨hp, _⟩, hname⟩)
    · exact ⟨p, hp, hname⟩
    · exact ⟨p, hp, hname⟩

theorem not_status_of_value {results : List Param} {name : Text}
    (h : name ∈ (valueResults results).map Param.name) :
    name ∉ (statusResults results).map Param.name := by
  intro hstatus
  obtain ⟨p, hp, rfl⟩ := List.mem_map.1 h
  obtain ⟨q, hq, hname⟩ := List.mem_map.1 hstatus
  have hvalue := (List.mem_filter.1 hp).2
  rw [← hname, (List.mem_filter.1 hq).2] at hvalue
  cases hvalue

namespace SignaturePlan

variable {c : Catalogue} {results : List Param} {plan : SignaturePlan}

/-- All that a plan can be: the only value is returned, or all values stay as out parameters. -/
theorem ofResults_eq_ok (h : ofResults c results = .ok plan) :
    ∃ dropped, (statusResults results).mapM (typed c) = .ok dropped ∧
      ((∃ single returned, valueResults results = [single] ∧ typed c single = .ok returned ∧
        plan = ⟨returned.type, [],
          (statusResults results).map dropChange ++ [⟨single.name, .returned⟩], dropped,
          some returned⟩) ∨
      ((∀ single, valueResults results ≠ [single]) ∧
        plan = ⟨Text.ofString "void", valueResults results,
          (statusResults results).map dropChange, dropped, none⟩)) := by
  obtain ⟨dropped, hdropped, h⟩ := Outcome.bind_eq_ok.1 h
  refine ⟨dropped, hdropped, ?_⟩
  split at h
  · next single hsingle =>
    obtain ⟨returned, hreturned, h⟩ := Outcome.bind_eq_ok.1 h
    cases h
    exact Or.inl ⟨single, returned, hsingle, hreturned, rfl⟩
  · next hseveral =>
    cases h
    exact Or.inr ⟨hseveral, rfl⟩

/-- What a plan keeps and what it changes. -/
theorem ofResults_cases (h : ofResults c results = .ok plan) :
    (∃ single, valueResults results = [single] ∧ plan.outParams = [] ∧
      plan.changes = (statusResults results).map dropChange ++ [⟨single.name, .returned⟩]) ∨
    ((∀ single, valueResults results ≠ [single]) ∧ plan.outParams = valueResults results ∧
      plan.changes = (statusResults results).map dropChange) := by
  obtain ⟨_, _, ⟨single, _, hsingle, _, rfl⟩ | ⟨hseveral, rfl⟩⟩ := ofResults_eq_ok h
  · exact Or.inl ⟨single, hsingle, rfl, rfl⟩
  · exact Or.inr ⟨hseveral, rfl, rfl⟩

theorem names_dropChanges (results : List Param) :
    ((statusResults results).map dropChange).map ResultChange.result =
      (statusResults results).map Param.name := by
  rw [List.map_map]
  rfl

/-- A plan has no record of a name exactly if an out parameter has it or no result does. -/
theorem fate?_eq_none_iff (h : ofResults c results = .ok plan) (name : Text) :
    plan.fate? name = none ↔
      name ∈ plan.outParams.map Param.name ∨ name ∉ results.map Param.name := by
  rw [fate?, ResultChange.find?_eq_none_iff, @mem_names_iff results]
  rcases ofResults_cases h with ⟨single, hsingle, hout, hchanges⟩ | ⟨_, hout, hchanges⟩
  · rw [hout, hchanges, List.map_append, names_dropChanges, List.mem_append, hsingle]
    simp
  · rw [hout, hchanges, names_dropChanges]
    constructor
    · intro hstatus
      by_cases hvalue : name ∈ (valueResults results).map Param.name
      · exact Or.inl hvalue
      · exact Or.inr fun hname => hname.elim hstatus hvalue
    · rintro (hvalue | hname)
      · exact not_status_of_value hvalue
      · exact fun hstatus => hname (Or.inl hstatus)

end SignaturePlan

end FlatAidl
