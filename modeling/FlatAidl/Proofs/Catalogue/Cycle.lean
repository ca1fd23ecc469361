import FlatAidl.Proofs.Catalogue.Chain
import FlatAidl.Proofs.Catalogue.Names

/-!
Which interface the refusal to finish a catalogue names. The search walks from the interfaces in the
order of their places and stops at the first from which inheritance does not end. Main statement:
that is the first interface that leads into a cycle. It need not be in the cycle: one that only leads
there is named if it was declared before the cycle's members.
-/

namespace FlatAidl

namespace Catalogue

variable {c : Catalogue}

/-- Whether an interface is the first of those that lead into a cycle. -/
structure FirstIntoCycle (c : Catalogue) (id : DeclId) : Prop where
  leads : c.LeadsIntoCycle id
  least : ∀ k, c.LeadsIntoCycle k → id ≤ k

theorem findCycle?_eq_some_iff {id : DeclId} : c.findCycle? = some id ↔ c.FirstIntoCycle id := by
  rw [findCycle?, ids, List.find?_range_eq_some]
  simp only [returnsWithin_size_iff, List.mem_range]
  constructor
  · intro h
    obtain ⟨hleads, _, hbefore⟩ := h
    refine ⟨hleads, fun k hk => Nat.le_of_not_lt fun hlt => ?_⟩
    have hnot := hbefore k hlt
    rw [returnsWithin_size_iff.2 hk] at hnot
    cases hnot
  · intro h
    refine ⟨h.leads, h.leads.lt_size, fun j hj => ?_⟩
    cases hreturn : c.returnsWithin j c.size j with
    | false => rfl
    | true => exact absurd hj (Nat.not_lt.2 (h.least j (returnsWithin_size_iff.1 hreturn)))

/-- The only way for a finish to be refused. -/
theorem finish_eq_error_iff {e : BuildError} :
    c.finish = .error e ↔
      ∃ id name, c.findCycle? = some id ∧ c.name? id = some name ∧ e = .inheritanceCycle name := by
  unfold finish
  cases hf : c.findCycle? with
  | none => simp
  | some id =>
    obtain ⟨d, hd⟩ := exists_get? (findCycle?_eq_some_iff.1 hf).leads.lt_size
    have hname := name?_of_get? hd
    dsimp only
    rw [target_eq_ok.2 hd, Outcome.ok_bind]
    constructor
    · intro h
      exact ⟨id, d.name, rfl, hname, (Except.error.inj h).symm⟩
    · intro h
      obtain ⟨k, name, hk, hn, he⟩ := h
      cases hk
      rw [hname] at hn
      rw [he, Option.some.inj hn]

/-- A finish is refused exactly if some interface leads into a cycle, and the refusal names the first
that does. -/
theorem finish_names_first_into_cycle (ops : List Operation) (e : BuildError) :
    (build ops).finish = .error e ↔
      ∃ id name, (build ops).lookup name = some id ∧ (build ops).FirstIntoCycle id ∧
        e = .inheritanceCycle name := by
  have hdistinct := (built_build ops).distinctNames
  rw [finish_eq_error_iff]
  simp only [hdistinct.lookup_eq_some_iff, findCycle?_eq_some_iff]
  constructor
  · intro h
    obtain ⟨id, name, hfirst, hname, he⟩ := h
    exact ⟨id, name, hname, hfirst, he⟩
  · intro h
    obtain ⟨id, name, hname, hfirst, he⟩ := h
    exact ⟨id, name, hfirst, hname, he⟩

/-- An input that extends one of two interfaces which extend each other. -/
def mixerOps : List Operation :=
  let name (text : String) : QualifiedName :=
    ⟨Text.ofString "hw.mixer", ⟨1, 0⟩, [Text.ofString text]⟩
  [.declareInterface (name "IInput") none, .declareInterface (name "ILeft") none,
    .declareInterface (name "IRight") none, .setSuper 1 2, .setSuper 2 3, .setSuper 3 2]

def mixerInput : QualifiedName :=
  ⟨Text.ofString "hw.mixer", ⟨1, 0⟩, [Text.ofString "IInput"]⟩

theorem mixerOps_name_input :
    (build mixerOps).finish = .error (.inheritanceCycle mixerInput) ∧
      ∃ id, (build mixerOps).lookup mixerInput = some id ∧ (build mixerOps).FirstIntoCycle id := by
  have hfinish : (build mixerOps).finish = .error (.inheritanceCycle mixerInput) := by decide
  obtain ⟨id, name, hlookup, hfirst, he⟩ :=
    (finish_names_first_into_cycle mixerOps (.inheritanceCycle mixerInput)).1 hfinish
  cases he
  exact ⟨hfinish, id, hlookup, hfirst⟩

/-- The input is named though nothing extends it, so no way leads back to it. -/
theorem mixerInput_in_no_cycle :
    (build mixerOps).finish = .error (.inheritanceCycle mixerInput) ∧
      (build mixerOps).lookup mixerInput = some 1 ∧ ¬ (build mixerOps).InheritsFrom 1 1 := by
  refine ⟨by decide, by decide, fun h => ?_⟩
  obtain ⟨k, _, hk⟩ := Relation.TransGen.tail'_iff.1 h
  have hlt : k < (build mixerOps).size := lt_size_of_super? hk
  have hnone : ∀ j < (build mixerOps).size, (build mixerOps).super? j ≠ some 1 := by decide
  exact hnone k hlt hk

end Catalogue

end FlatAidl
