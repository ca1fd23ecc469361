import FlatAidl.Text.UpperCase
import Mathlib.Data.List.Basic

/-!
What upper case cannot bring in. The tables lead to letters and to marks, all of them from `A` on, so
a character in front of `A` occurs in upper case only where it has been before.
-/

namespace FlatAidl

namespace UpperCase

/-- The code point of a character that is `A` or comes after it. -/
def Late (n : Nat) : Prop :=
  'A'.toNat ≤ n ∧ n.isValidChar

theorem Late.toNat_ofNat {n : Nat} (h : Late n) : 'A'.toNat ≤ (Char.ofNat n).toNat := by
  have hn : (Char.ofNat n).toNat = n := by
    rw [Char.ofNat, dif_pos h.2]
    rfl
  rw [hn]
  exact h.1

theorem late_of_mem_expansions : ∀ entry ∈ expansions, ∀ n ∈ entry.2, Late n := by
  unfold Late
  decide +kernel

theorem targets_late : ∀ r ∈ runs, 'A'.toNat ≤ r.target ∧
    (r.target + (r.last - r.first) < 0xD800 ∨
      0xDFFF < r.target ∧ r.target + (r.last - r.first) < 0x110000) := by
  decide +kernel

theorem late_of_image? {r : Run} (hr : r ∈ runs) {n m : Nat} (h : r.image? n = some m) : Late m := by
  obtain ⟨htarget, hvalid⟩ := targets_late r hr
  rw [Run.image?, Option.ite_none_right_eq_some] at h
  obtain ⟨hrange, himage⟩ := h
  simp only [Bool.and_eq_true, decide_eq_true_eq] at hrange
  have hm : r.target + (n - r.first) = m := Option.some.inj himage
  refine ⟨by omega, ?_⟩
  unfold Nat.isValidChar
  omega

theorem mem_ofChar {c x : Char} (h : x ∈ ofChar c) : x = c ∨ 'A'.toNat ≤ x.toNat := by
  rw [ofChar] at h
  split at h
  · next entry hentry =>
    obtain ⟨n, hn, rfl⟩ := List.mem_map.1 h
    exact Or.inr (late_of_mem_expansions entry (List.mem_of_find?_eq_some hentry) n hn).toNat_ofNat
  · split at h
    · next m hm =>
      obtain ⟨r, hr, himage⟩ := List.exists_of_findSome?_eq_some hm
      rw [List.mem_singleton.1 h]
      exact Or.inr (late_of_image? hr himage).toNat_ofNat
    · exact Or.inl (List.mem_singleton.1 h)

end UpperCase

namespace Text

theorem mem_capitalize {t : Text} {x : Char} (h : x ∈ capitalize t) : x ∈ t ∨ 'A'.toNat ≤ x.toNat := by
  cases t with
  | nil => exact absurd h List.not_mem_nil
  | cons c rest =>
    rcases List.mem_append.1 h with h | h
    · obtain rfl | hlate := UpperCase.mem_ofChar h
      · exact Or.inl (List.mem_cons_self ..)
      · exact Or.inr hlate
    · exact Or.inl (List.mem_cons_of_mem c h)

end Text

end FlatAidl
