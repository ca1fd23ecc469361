import FlatAidl.Path.Basic
import FlatAidl.Proofs.Text.Trimming
import Mathlib.Data.List.Induction

/-!
Paths put together from names. A name is not empty, holds no slash and is none of the dotted forms.
So names that are pushed one after another stand in the path with one slash between neighbours, and
they are its components.
-/

namespace FlatAidl

open Text

/-- A joined text ends with the last of its parts. -/
theorem Text.exists_join_concat (sep : Text) (ts : List Text) (t : Text) :
    ∃ front, join sep (ts ++ [t]) = front ++ t := by
  cases ts with
  | nil => exact ⟨[], rfl⟩
  | cons u more =>
    refine ⟨join sep (u :: more) ++ sep, ?_⟩
    rw [join_append sep (List.cons_ne_nil u more) (List.cons_ne_nil t []), List.append_assoc]
    rfl

namespace Path

/-- Whether a text stands for a component of its own between any two slashes. -/
structure IsName (t : Text) : Prop where
  nonempty : t ≠ []
  solid : '/' ∉ t
  not_here : t ≠ ['.']
  not_up : t ≠ ['.', '.']

variable {names : List Text} {name : Text}

theorem IsName.innerComponent?_eq (h : IsName name) :
    innerComponent? name = some (.named name) := by
  simp [innerComponent?, h.nonempty, h.not_here, h.not_up]

theorem IsName.not_absolute (h : IsName name) : isAbsolute name = false := by
  cases name with
  | nil => exact absurd rfl h.nonempty
  | cons c rest =>
    have hc : c ≠ '/' := fun heq => h.solid (heq ▸ List.mem_cons_self ..)
    simp [isAbsolute, hc]

theorem getLast?_join_ne (h : ∀ t ∈ names, IsName t) : (join ['/'] names).getLast? ≠ some '/' := by
  intro hlast
  cases names using List.reverseRecOn with
  | nil => cases hlast
  | append_singleton front name =>
    have hname : IsName name := h name (by simp)
    obtain ⟨before, hjoin⟩ := exists_join_concat ['/'] front name
    rw [hjoin, List.getLast?_append_of_ne_nil _ hname.nonempty] at hlast
    exact hname.solid (List.mem_of_getLast? hlast)

theorem push_join (h : ∀ t ∈ names, IsName t) (hname : IsName name) :
    push (join ['/'] names) name = join ['/'] (names ++ [name]) := by
  have habsolute : ¬ isAbsolute name = true := by simp [hname.not_absolute]
  rw [push, if_neg habsolute]
  cases names with
  | nil => rfl
  | cons first more =>
    have hne : join ['/'] (first :: more) ≠ [] :=
      join_ne_nil (List.cons_ne_nil first more) fun t ht => (h t ht).nonempty
    have hslash : ¬ (decide (join ['/'] (first :: more) = []) ||
        (join ['/'] (first :: more)).getLast? == some '/') = true := by
      rw [Bool.or_eq_true, decide_eq_true_eq, beq_iff_eq, not_or]
      exact ⟨hne, getLast?_join_ne h⟩
    rw [if_neg hslash, join_append _ (List.cons_ne_nil first more) (List.cons_ne_nil name [])]
    rfl

theorem foldl_push (h : ∀ t ∈ names, IsName t) : names.foldl push [] = join ['/'] names := by
  induction names using List.reverseRecOn with
  | nil => rfl
  | append_singleton front name ih =>
    have hfront : ∀ t ∈ front, IsName t := fun t ht => h t (List.mem_append_left _ ht)
    rw [List.foldl_concat, ih hfront, push_join hfront (h name (by simp))]

theorem components_join (hne : names ≠ []) (h : ∀ t ∈ names, IsName t) :
    components (join ['/'] names) = names.map Component.named := by
  have hsplit : split '/' (join ['/'] names) = names := by
    rw [split_join '/' hne]
    calc names.flatMap (split '/') = names.flatMap fun t => [t] :=
          List.flatMap_congr fun t ht => split_of_not_mem (h t ht).solid
      _ = names := List.flatMap_singleton' names
  have hinner : ∀ {ts : List Text}, (∀ t ∈ ts, IsName t) →
      ts.filterMap innerComponent? = ts.map Component.named := by
    intro ts hts
    rw [← List.filterMap_eq_map]
    exact List.filterMap_congr fun t ht => (hts t ht).innerComponent?_eq
  rw [components, hsplit]
  cases names with
  | nil => exact absurd rfl hne
  | cons first rest =>
    have hfirst : IsName first := h first (List.mem_cons_self ..)
    have hrest := hinner fun t ht => h t (List.mem_cons_of_mem _ ht)
    simp [hfirst.nonempty, hfirst.not_here, hfirst.innerComponent?_eq, hrest]

end Path

end FlatAidl
