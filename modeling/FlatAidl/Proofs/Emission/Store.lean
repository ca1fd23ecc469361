import FlatAidl.Emission.Basic
import FlatAidl.Proofs.Rendering.Parts
import Mathlib.Logic.Function.Basic

/-!
Outputs whose files can be looked at. A text put at a path is held where that path leads, and
nothing else that is held changes. Files in memory are such a store. A granted emission has put the
declaration's rendering into the output.
-/

namespace FlatAidl

/-- An output with what it holds: the key of each path, what is held under each key, and the form in
which a text is held. -/
structure Store (σ : Type) extends Output σ where
  Key : Type
  Content : Type
  [decKey : DecidableEq Key]
  key : σ → Path → Key
  content : Text → Content
  held : σ → Key → Option Content
  key_put : ∀ {s s' : σ} {p : Path} {t : Text}, put s p t = (s', none) → key s' = key s
  held_put : ∀ {s s' : σ} {p : Path} {t : Text}, put s p t = (s', none) →
    held s' = Function.update (held s) (key s p) (some (content t))

attribute [instance] Store.decKey

namespace FileMap

/-- The text of the first entry with these components. -/
def textAt (m : FileMap) (k : List Path.Component) : Option Text :=
  (m.entries.find? fun entry => decide (entry.1.components = k)).map Prod.snd

theorem get?_eq_textAt (m : FileMap) (p : Path) : m.get? p = m.textAt p.components :=
  rfl

theorem contains_iff {m : FileMap} {p : Path} :
    m.contains p = true ↔ ∃ entry ∈ m.entries, entry.1.components = p.components := by
  simp only [contains, List.any_eq_true, Path.same, decide_eq_true_eq]

/-- A new entry is found under its own components, and hides no entry with others. -/
theorem find?_place {p : Path} {entries : List (Path × Text)} (t : Text)
    (hnew : ∀ entry ∈ entries, entry.1.components ≠ p.components) (k : List Path.Component) :
    (place p t entries).find? (fun entry => decide (entry.1.components = k)) =
      if k = p.components then some (p, t)
      else entries.find? fun entry => decide (entry.1.components = k) := by
  induction entries with
  | nil =>
    by_cases hk : k = p.components
    · simp [place, hk]
    · simp [place, hk, Ne.symm hk]
  | cons entry rest ih =>
    have hrest := ih fun e he => hnew e (List.mem_cons_of_mem _ he)
    have hentry := hnew entry (List.mem_cons_self ..)
    rw [place]
    split
    · by_cases hk : k = p.components
      · simp [hk]
      · simp [hk, Ne.symm hk]
    · by_cases hk : k = p.components
      · subst hk
        rw [if_pos rfl] at hrest
        rw [List.find?_cons_of_neg (by simpa using hentry), hrest, if_pos rfl]
      · rw [if_neg hk] at hrest
        rw [List.find?_cons, List.find?_cons, hrest, if_neg hk]

theorem textAt_put (m : FileMap) (p : Path) (t : Text) :
    (m.put p t).textAt = Function.update m.textAt p.components (some t) := by
  funext k
  unfold put
  split
  · next hcontains =>
    obtain ⟨entry, hentry, hcomponents⟩ := contains_iff.1 hcontains
    have hkeeps : ∀ e : Path × Text, (if e.1.same p then (e.1, t) else e).1 = e.1 := by
      intro e
      split <;> rfl
    rw [textAt, List.find?_map]
    simp only [Function.comp_def, hkeeps]
    cases hfind : m.entries.find? fun e => decide (e.1.components = k) with
    | none =>
      have hk : k ≠ p.components := by
        rintro rfl
        simpa [hcomponents] using List.find?_eq_none.1 hfind entry hentry
      rw [Function.update_of_ne hk, textAt, hfind]
      rfl
    | some e =>
      have he : e.1.components = k := by simpa using List.find?_some hfind
      by_cases hk : k = p.components
      · have hsame : e.1.same p = true := by simp [Path.same, he, hk]
        simp [hk, hsame]
      · have hsame : e.1.same p = false := by simp [Path.same, he, hk]
        rw [Function.update_of_ne hk, textAt, hfind]
        simp [hsame]
  · next hcontains =>
    have hnew : ∀ entry ∈ m.entries, entry.1.components ≠ p.components := by
      intro entry hentry hcomponents
      exact hcontains (contains_iff.2 ⟨entry, hentry, hcomponents⟩)
    rw [textAt, find?_place t hnew]
    by_cases hk : k = p.components
    · rw [if_pos hk, hk, Function.update_self]
      rfl
    · rw [if_neg hk, Function.update_of_ne hk]
      rfl

/-- Files in memory as a store, whatever paths are refused. -/
def store (refusal : Path → Option Text) : Store FileMap where
  toOutput := Output.memory refusal
  Key := List Path.Component
  Content := Text
  key _ p := p.components
  content t := t
  held := textAt
  key_put _ := rfl
  held_put {s s' p t} h := by
    unfold Output.memory at h
    dsimp only at h
    split at h
    · cases h
    · cases h
      exact textAt_put s p t

end FileMap

namespace Catalogue

variable {σ : Type} {c : Catalogue} {o : Options} {out : Output σ}

theorem emitOne_eq_ok {p p' : Progress σ} {id : DeclId} {path : Path}
    (h : c.emitOne o out p id = (p', .ok path)) :
    ∃ r, c.render o id = .ok r ∧ out.put p.output r.path r.text = (p'.output, none) ∧
      path = r.path := by
  unfold emitOne at h
  split at h
  · cases h
  · next r hr =>
    refine ⟨r, hr, ?_⟩
    split at h
    · cases h
    · next s hput =>
      split at h
      · cases h
        exact ⟨hput, rfl⟩
      · cases h

end Catalogue

end FlatAidl
