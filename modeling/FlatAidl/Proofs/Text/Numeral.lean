import FlatAidl.Text.Decimal
import Mathlib.Data.List.Induction

/-!
Numerals and the numbers they denote. A numeral is a run of digits, each of which counts ten times
less than the one in front of it. Numerals of one number differ in leading zeros only, and the one
that is written has none.
-/

namespace FlatAidl

namespace Decimal

/-- The non-empty runs of decimal digits, each with the number that it denotes. -/
inductive Denotes : Text → Nat → Prop
  | digit {d : Nat} (h : d < 10) : Denotes [Nat.digitChar d] d
  | more {t : Text} {n d : Nat} (front : Denotes t n) (h : d < 10) :
      Denotes (t ++ [Nat.digitChar d]) (10 * n + d)

theorem digit_digitChar {d : Nat} (h : d < 10) : digit (Nat.digitChar d) = d := by
  have hzero : '0'.toNat = 48 := rfl
  have hnat := Nat.toNat_digitChar_of_lt_ten h
  rw [digit, hzero, hnat]
  omega

theorem digitChar_digit {c : Char} (h : c.isDigit = true) :
    digit c < 10 ∧ Nat.digitChar (digit c) = c := by
  have hrange : 48 ≤ c.toNat ∧ c.toNat ≤ 57 := by
    simp only [Char.isDigit, Bool.and_eq_true, decide_eq_true_eq] at h
    exact h
  have hzero : '0'.toNat = 48 := rfl
  have hlt : digit c < 10 := by
    rw [digit, hzero]
    omega
  refine ⟨hlt, Char.toNat_inj.1 ?_⟩
  rw [Nat.toNat_digitChar_of_lt_ten hlt, digit, hzero]
  omega

theorem value_concat (t : Text) (c : Char) : value (t ++ [c]) = 10 * value t + digit c := by
  rw [value, List.foldl_append]
  rfl

theorem isNumeral_concat (t : Text) (c : Char) :
    isNumeral (t ++ [c]) = (t.all Char.isDigit && c.isDigit) := by
  simp [isNumeral]

theorem denotes_iff {t : Text} {n : Nat} : Denotes t n ↔ isNumeral t = true ∧ value t = n := by
  constructor
  · intro h
    induction h with
    | digit h =>
      refine ⟨?_, ?_⟩
      · simp [isNumeral, Nat.isDigit_digitChar, h]
      · rw [← List.nil_append [_], value_concat, digit_digitChar h]
        exact Nat.zero_add _
    | @more t n d _ h ih =>
      have hall : t.all Char.isDigit = true := (Bool.and_eq_true _ _ ▸ ih.1).2
      have hdigit : (Nat.digitChar d).isDigit = true := by simp [Nat.isDigit_digitChar, h]
      refine ⟨?_, ?_⟩
      · rw [isNumeral_concat, hall, hdigit]
        rfl
      · rw [value_concat, ih.2, digit_digitChar h]
  · rintro ⟨hnumeral, rfl⟩
    induction t using List.reverseRecOn with
    | nil => cases hnumeral
    | append_singleton t c ih =>
      rw [isNumeral_concat, Bool.and_eq_true] at hnumeral
      obtain ⟨hlt, hchar⟩ := digitChar_digit hnumeral.2
      rw [value_concat]
      cases t with
      | nil =>
        have hone : Denotes [Nat.digitChar (digit c)] (digit c) := .digit hlt
        rw [hchar] at hone
        simpa [value] using hone
      | cons x rest =>
        have hfront : isNumeral (x :: rest) = true := hnumeral.1
        have hmore := (ih hfront).more hlt
        rwa [hchar] at hmore

theorem denotes_write (n : Nat) : Denotes (write n) n := by
  refine denotes_iff.2 ⟨?_, ?_⟩
  · have hall : ∀ c ∈ Nat.toDigits 10 n, c.isDigit = true :=
      fun c hc => Nat.isDigit_of_mem_toDigits (by decide) (by decide) hc
    simp only [isNumeral, write, Bool.and_eq_true, List.all_eq_true]
    exact ⟨by simp, hall⟩
  · have hvalue := Nat.ofDigitChars_ten_toDigits (n := n)
    rw [Nat.ofDigitChars_eq_foldl] at hvalue
    rw [write, value]
    exact hvalue

/-- A numeral is what is written for its number, behind zeros. -/
theorem Denotes.eq_zeros_append_write {t : Text} {n : Nat} (h : Denotes t n) :
    ∃ k, t = List.replicate k '0' ++ write n := by
  have hdigit : ∀ {d : Nat}, d < 10 → write d = [Nat.digitChar d] :=
    fun hd => Nat.toDigits_of_lt_base hd
  induction h with
  | digit hd => exact ⟨0, by rw [hdigit hd]; rfl⟩
  | @more t n d _ hd ih =>
    obtain ⟨k, rfl⟩ := ih
    cases Nat.eq_zero_or_pos n with
    | inl hzero =>
      -- The written zero in front is one more leading zero.
      subst hzero
      have hsum : 10 * 0 + d = d := by omega
      refine ⟨k + 1, ?_⟩
      rw [hsum, hdigit hd, hdigit (by decide : 0 < 10), List.replicate_succ']
      rfl
    | inr hpos =>
      refine ⟨k, ?_⟩
      have happend : Nat.toDigits 10 n ++ Nat.toDigits 10 d = Nat.toDigits 10 (10 * n + d) :=
        Nat.toDigits_append_toDigits (by decide) hpos hd
      rw [Nat.toDigits_of_lt_base hd] at happend
      rw [List.append_assoc, write, happend, write]

theorem read?_eq_some_iff {bound : Nat} {t : Text} {n : Nat} :
    read? bound t = some n ↔ Denotes t n ∧ n < bound := by
  rw [denotes_iff, read?]
  by_cases h : isNumeral t = true ∧ value t < bound
  · rw [if_pos (by simpa using h), Option.some.injEq]
    constructor
    · rintro rfl
      exact ⟨⟨h.1, rfl⟩, h.2⟩
    · rintro ⟨⟨_, hvalue⟩, _⟩
      exact hvalue
  · rw [if_neg (by simpa using h)]
    constructor
    · intro hnone
      cases hnone
    · rintro ⟨⟨hnumeral, rfl⟩, hlt⟩
      exact absurd ⟨hnumeral, hlt⟩ h

theorem Denotes.isDigit {t : Text} {n : Nat} (h : Denotes t n) : ∀ c ∈ t, c.isDigit = true := by
  have hnumeral := (denotes_iff.1 h).1
  rw [isNumeral, Bool.and_eq_true, List.all_eq_true] at hnumeral
  exact hnumeral.2

end Decimal

end FlatAidl
