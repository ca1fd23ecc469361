import FlatAidl.Proofs.Text.Lines

/-!
Text up to its gaps. Spaces and line breaks separate the runs of a text; how many of them stand
between two runs does not matter. Two texts are alike if they have the same runs wherever they stand,
so a text may be replaced by one that is alike inside of any other.
-/

namespace FlatAidl

namespace Text

/-- The characters that a layout adds and takes away. -/
def isGap (c : Char) : Bool :=
  c == ' ' || c == '\n'

/-- The parts of a text between its spaces and line breaks. -/
def runs (t : Text) : List Text :=
  (pieces isGap t).filter fun run => !run.isEmpty

/-- A text without its spaces and line breaks. -/
def solid (t : Text) : Text :=
  t.filter fun c => !isGap c

theorem isGap_of_mem_break {n : Nat} {x : Char} (h : x ∈ '\n' :: List.replicate n ' ') :
    isGap x = true := by
  rcases List.mem_cons.1 h with rfl | h
  · rfl
  · rw [List.eq_of_mem_replicate h]
    rfl

theorem runs_append_cons {x : Char} (hx : isGap x = true) (s t : Text) :
    runs (s ++ x :: t) = runs s ++ runs t := by
  rw [runs, pieces_append_cons hx, List.filter_append]
  rfl

theorem runs_cons {x : Char} (hx : isGap x = true) (t : Text) : runs (x :: t) = runs t := by
  have h := runs_append_cons hx [] t
  simpa [runs, pieces] using h

/-- A text between two others that consists of gaps has no runs of its own and keeps theirs apart. -/
theorem runs_append_gap {g : Text} (hne : g ≠ []) (hg : ∀ c ∈ g, isGap c = true)
    (front back : Text) : runs (front ++ g ++ back) = runs front ++ runs back := by
  induction g generalizing front with
  | nil => exact absurd rfl hne
  | cons x g ih =>
    have hx : isGap x = true := hg x (List.mem_cons_self ..)
    rw [List.append_assoc, List.cons_append, runs_append_cons hx]
    cases g with
    | nil => rfl
    | cons y g =>
      have hmore := ih (List.cons_ne_nil y g) (fun c hc => hg c (List.mem_cons_of_mem _ hc)) []
      rw [List.nil_append] at hmore
      rw [hmore]
      rfl

theorem solid_cons (x : Char) (t : Text) :
    solid (x :: t) = if isGap x then solid t else x :: solid t := by
  simp only [solid, List.filter_cons]
  cases isGap x <;> rfl

theorem flatten_runs (t : Text) : (runs t).flatten = solid t := by
  rw [runs, List.flatten_filter_not_isEmpty]
  induction t with
  | nil => rfl
  | cons x rest ih =>
    rw [solid_cons, pieces, ← ih]
    cases isGap x with
    | true => rfl
    | false =>
      cases hpieces : pieces isGap rest with
      | nil => rfl
      | cons run more => rfl

/-- Whether two texts have the same runs wherever they stand. -/
def Alike (a b : Text) : Prop :=
  ∀ front back, runs (front ++ a ++ back) = runs (front ++ b ++ back)

namespace Alike

theorem refl (a : Text) : Alike a a :=
  fun _ _ => rfl

theorem symm {a b : Text} (h : Alike a b) : Alike b a :=
  fun front back => (h front back).symm

theorem trans {a b d : Text} (h : Alike a b) (h' : Alike b d) : Alike a d :=
  fun front back => (h front back).trans (h' front back)

theorem append {a b a' b' : Text} (h : Alike a b) (h' : Alike a' b') :
    Alike (a ++ a') (b ++ b') := by
  intro front back
  have hleft := h front (a' ++ back)
  have hright := h' (front ++ b) back
  simp only [List.append_assoc] at hleft hright ⊢
  rw [hleft, hright]

theorem runs_eq {a b : Text} (h : Alike a b) : runs a = runs b := by
  simpa using h [] []

end Alike

/-- One gap is as good as another, and as good as several. -/
theorem alike_gaps {g g' : Text} (hne : g ≠ []) (hne' : g' ≠ []) (hg : ∀ c ∈ g, isGap c = true)
    (hg' : ∀ c ∈ g', isGap c = true) : Alike g g' := by
  intro front back
  rw [runs_append_gap hne hg, runs_append_gap hne' hg']

end Text

end FlatAidl
