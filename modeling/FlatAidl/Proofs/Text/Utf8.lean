import FlatAidl.Text.Utf8
import Mathlib.Data.List.Basic

/-!
UTF-8 read and written. Which bytes make up a character is the same said from both sides, so reading
is the inverse of writing, and a byte sequence that is no encoding is refused.
-/

namespace FlatAidl

namespace Utf8

theorem toNat_lt (x : Char) : x.toNat < 0x110000 := by
  have hvalid : x.toNat < 0xD800 ∨ 0xDFFF < x.toNat ∧ x.toNat < 0x110000 := x.valid
  omega

theorem toNat_ofNat {n : Nat} (h : n.isValidChar) : (Char.ofNat n).toNat = n := by
  rw [Char.ofNat, dif_pos h]
  rfl

theorem tail?_eq_some_iff {b : UInt8} {k : Nat} :
    tail? b = some k ↔ b.toNat = 0x80 + k ∧ k < 64 := by
  rw [tail?]
  split
  · next h =>
    simp only [Bool.and_eq_true, decide_eq_true_eq] at h
    rw [Option.some.injEq]
    omega
  · next h =>
    simp only [Bool.and_eq_true, decide_eq_true_eq] at h
    constructor
    · intro hnone
      cases hnone
    · intro hk
      omega

/-- The surrogates are no characters, so a range without them is a range of characters. -/
theorem within?_eq_some_iff {low high n : Nat} (hhigh : high < 0x110000) {x : Char} :
    within? low high n = some x ↔ low ≤ n ∧ n ≤ high ∧ x.toNat = n := by
  have hvalid : x.toNat < 0xD800 ∨ 0xDFFF < x.toNat ∧ x.toNat < 0x110000 := x.valid
  rw [within?]
  split
  · next h =>
    simp only [Bool.and_eq_true, Bool.not_eq_true', Bool.and_eq_false_iff, decide_eq_true_eq,
      decide_eq_false_iff_not] at h
    have hof : (Char.ofNat n).toNat = n := by
      refine toNat_ofNat ?_
      unfold Nat.isValidChar
      omega
    rw [Option.some.injEq]
    constructor
    · rintro rfl
      exact ⟨h.1.1, h.1.2, hof⟩
    · rintro ⟨_, _, hx⟩
      exact Char.toNat_inj.1 (hof.trans hx.symm)
  · next h =>
    simp only [Bool.and_eq_true, Bool.not_eq_true', Bool.and_eq_false_iff, decide_eq_true_eq,
      decide_eq_false_iff_not] at h
    constructor
    · intro hnone
      cases hnone
    · intro hx
      omega

/-- The bytes of a character: up to three of them carry six bits each, behind a first one that tells
how many they are. -/
inductive Forms (x : Char) : Bytes → Prop
  | one {a : UInt8} (high : x.toNat ≤ 0x7F) (ha : a.toNat = x.toNat) : Forms x [a]
  | two {a b : UInt8} (low : 0x80 ≤ x.toNat) (high : x.toNat ≤ 0x7FF)
      (ha : a.toNat = 0xC0 + x.toNat / 64) (hb : b.toNat = 0x80 + x.toNat % 64) : Forms x [a, b]
  | three {a b c : UInt8} (low : 0x800 ≤ x.toNat) (high : x.toNat ≤ 0xFFFF)
      (ha : a.toNat = 0xE0 + x.toNat / 4096) (hb : b.toNat = 0x80 + x.toNat / 64 % 64)
      (hc : c.toNat = 0x80 + x.toNat % 64) : Forms x [a, b, c]
  | four {a b c d : UInt8} (low : 0x10000 ≤ x.toNat) (ha : a.toNat = 0xF0 + x.toNat / 262144)
      (hb : b.toNat = 0x80 + x.toNat / 4096 % 64) (hc : c.toNat = 0x80 + x.toNat / 64 % 64)
      (hd : d.toNat = 0x80 + x.toNat % 64) : Forms x [a, b, c, d]

variable {x : Char} {a b c d : UInt8}

/-! ### Writing -/

theorem eq_ofNat {n : Nat} (h : a.toNat = n) : a = UInt8.ofNat n := by
  rw [← h, UInt8.ofNat_toNat]

theorem Forms.eq_encodeChar {bytes : Bytes} (h : Forms x bytes) :
    bytes = String.utf8EncodeChar x := by
  have hval : x.val.toNat = x.toNat := rfl
  rw [String.utf8EncodeChar, hval]
  cases h with
  | one high ha => rw [if_pos high, eq_ofNat ha]
  | @two a b low high ha hb =>
    have ha' : a = UInt8.ofNat (x.toNat / 64 % 32 + 192) := eq_ofNat (by omega)
    have hb' : b = UInt8.ofNat (x.toNat % 64 + 128) := eq_ofNat (by omega)
    rw [if_neg (by omega), if_pos high, ha', hb']
  | @three a b c low high ha hb hc =>
    have ha' : a = UInt8.ofNat (x.toNat / 4096 % 16 + 224) := eq_ofNat (by omega)
    have hb' : b = UInt8.ofNat (x.toNat / 64 % 64 + 128) := eq_ofNat (by omega)
    have hc' : c = UInt8.ofNat (x.toNat % 64 + 128) := eq_ofNat (by omega)
    rw [if_neg (by omega), if_neg (by omega), if_pos high, ha', hb', hc']
  | @four a b c d low ha hb hc hd =>
    have hlt := toNat_lt x
    have ha' : a = UInt8.ofNat (x.toNat / 262144 % 8 + 240) := eq_ofNat (by omega)
    have hb' : b = UInt8.ofNat (x.toNat / 4096 % 64 + 128) := eq_ofNat (by omega)
    have hc' : c = UInt8.ofNat (x.toNat / 64 % 64 + 128) := eq_ofNat (by omega)
    have hd' : d = UInt8.ofNat (x.toNat % 64 + 128) := eq_ofNat (by omega)
    rw [if_neg (by omega), if_neg (by omega), if_neg (by omega), ha', hb', hc', hd']

theorem forms_encodeChar (x : Char) : Forms x (String.utf8EncodeChar x) := by
  have hlt := toNat_lt x
  have hbyte : ∀ {n k : Nat}, n < 256 → n = k → (UInt8.ofNat n).toNat = k := by
    rintro n k hn rfl
    exact UInt8.toNat_ofNat_of_lt hn
  have hval : x.val.toNat = x.toNat := rfl
  rw [String.utf8EncodeChar, hval]
  split
  · next hone => exact .one hone (hbyte (by omega) rfl)
  split
  · next htwo =>
    exact .two (by omega) htwo (hbyte (by omega) (by omega)) (hbyte (by omega) (by omega))
  split
  · next hthree =>
    exact .three (by omega) hthree (hbyte (by omega) (by omega)) (hbyte (by omega) (by omega))
      (hbyte (by omega) (by omega))
  · exact .four (by omega) (hbyte (by omega) (by omega)) (hbyte (by omega) (by omega))
      (hbyte (by omega) (by omega)) (hbyte (by omega) (by omega))

/-! ### Reading -/

theorem two?_eq_some_iff : two? a b = some x ↔ Forms x [a, b] := by
  rw [two?]
  constructor
  · intro h
    obtain ⟨hrange, h⟩ := Option.ite_none_right_eq_some.1 h
    simp only [Bool.and_eq_true, decide_eq_true_eq] at hrange
    obtain ⟨k, hk, h⟩ := Option.bind_eq_some_iff.1 h
    rw [tail?_eq_some_iff] at hk
    rw [within?_eq_some_iff (by omega)] at h
    exact .two (by omega) (by omega) (by omega) (by omega)
  · intro h
    cases h with
    | two low high ha hb =>
      have hk : tail? b = some (x.toNat % 64) := tail?_eq_some_iff.2 (by omega)
      rw [Option.ite_none_right_eq_some]
      refine ⟨by simp only [Bool.and_eq_true, decide_eq_true_eq]; omega, ?_⟩
      rw [hk]
      exact (within?_eq_some_iff (by omega)).2 (by omega)

theorem three?_eq_some_iff : three? a b c = some x ↔ Forms x [a, b, c] := by
  rw [three?]
  constructor
  · intro h
    obtain ⟨hrange, h⟩ := Option.ite_none_right_eq_some.1 h
    simp only [Bool.and_eq_true, decide_eq_true_eq] at hrange
    obtain ⟨k, hk, h⟩ := Option.bind_eq_some_iff.1 h
    obtain ⟨l, hl, h⟩ := Option.bind_eq_some_iff.1 h
    rw [tail?_eq_some_iff] at hk hl
    rw [within?_eq_some_iff (by omega)] at h
    exact .three (by omega) (by omega) (by omega) (by omega) (by omega)
  · intro h
    cases h with
    | three low high ha hb hc =>
      have hk : tail? b = some (x.toNat / 64 % 64) := tail?_eq_some_iff.2 (by omega)
      have hl : tail? c = some (x.toNat % 64) := tail?_eq_some_iff.2 (by omega)
      rw [Option.ite_none_right_eq_some]
      refine ⟨by simp only [Bool.and_eq_true, decide_eq_true_eq]; omega, ?_⟩
      rw [hk, hl]
      exact (within?_eq_some_iff (by omega)).2 (by omega)

theorem four?_eq_some_iff : four? a b c d = some x ↔ Forms x [a, b, c, d] := by
  have hlt := toNat_lt x
  rw [four?]
  constructor
  · intro h
    obtain ⟨hrange, h⟩ := Option.ite_none_right_eq_some.1 h
    simp only [Bool.and_eq_true, decide_eq_true_eq] at hrange
    obtain ⟨k, hk, h⟩ := Option.bind_eq_some_iff.1 h
    obtain ⟨l, hl, h⟩ := Option.bind_eq_some_iff.1 h
    obtain ⟨m, hm, h⟩ := Option.bind_eq_some_iff.1 h
    rw [tail?_eq_some_iff] at hk hl hm
    rw [within?_eq_some_iff (by omega)] at h
    exact .four (by omega) (by omega) (by omega) (by omega) (by omega)
  · intro h
    cases h with
    | four low ha hb hc hd =>
      have hk : tail? b = some (x.toNat / 4096 % 64) := tail?_eq_some_iff.2 (by omega)
      have hl : tail? c = some (x.toNat / 64 % 64) := tail?_eq_some_iff.2 (by omega)
      have hm : tail? d = some (x.toNat % 64) := tail?_eq_some_iff.2 (by omega)
      rw [Option.ite_none_right_eq_some]
      refine ⟨by simp only [Bool.and_eq_true, decide_eq_true_eq]; omega, ?_⟩
      rw [hk, hl, hm]
      exact (within?_eq_some_iff (by omega)).2 (by omega)

theorem two?_eq_none (h : 0xDF < a.toNat) : two? a b = none := by
  rw [Option.eq_none_iff_forall_ne_some]
  intro x hx
  cases two?_eq_some_iff.1 hx with
  | two => omega

theorem three?_eq_none (h : 0xEF < a.toNat) : three? a b c = none := by
  rw [Option.eq_none_iff_forall_ne_some]
  intro x hx
  cases three?_eq_some_iff.1 hx with
  | three => omega

/-- The first byte tells how many bytes a character has, so no shorter reading comes in between. -/
theorem Forms.decode?_append {bytes : Bytes} (h : Forms x bytes) (rest : Bytes) :
    decode? (bytes ++ rest) = (decode? rest).map (x :: ·) := by
  cases h with
  | @one a high ha =>
    have hascii : a.toNat < 0x80 := by omega
    have hchar : Char.ofNat a.toNat = x := by rw [ha, Char.ofNat_toNat]
    rw [List.singleton_append, decode?.eq_def]
    simp only [hascii, if_true, hchar]
  | @two a b low high ha hb =>
    have hascii : ¬ a.toNat < 0x80 := by omega
    have htwo : two? a b = some x := two?_eq_some_iff.2 (.two low high ha hb)
    rw [List.cons_append, List.singleton_append, decode?.eq_def]
    simp only [hascii, if_false, htwo]
  | @three a b c low high ha hb hc =>
    have hascii : ¬ a.toNat < 0x80 := by omega
    have htwo : two? a b = none := two?_eq_none (by omega)
    have hthree : three? a b c = some x := three?_eq_some_iff.2 (.three low high ha hb hc)
    rw [List.cons_append, List.cons_append, List.singleton_append, decode?.eq_def]
    simp only [hascii, if_false, htwo, hthree]
  | @four a b c d low ha hb hc hd =>
    have hascii : ¬ a.toNat < 0x80 := by omega
    have htwo : two? a b = none := two?_eq_none (by omega)
    have hthree : three? a b c = none := three?_eq_none (by omega)
    have hfour : four? a b c d = some x := four?_eq_some_iff.2 (.four low ha hb hc hd)
    rw [List.cons_append, List.cons_append, List.cons_append, List.singleton_append,
      decode?.eq_def]
    simp only [hascii, if_false, htwo, hthree, hfour]

theorem decode?_encode (t : Text) : decode? (encode t) = some t := by
  induction t with
  | nil => rfl
  | cons x rest ih =>
    rw [encode, List.flatMap_cons, (forms_encodeChar x).decode?_append]
    change (decode? (encode rest)).map (x :: ·) = some (x :: rest)
    rw [ih, Option.map_some]

theorem Forms.eq_encode_of_map {front bytes : Bytes} {t : Text} (h : Forms x front)
    (ih : ∀ u, decode? bytes = some u → bytes = encode u)
    (ht : (decode? bytes).map (x :: ·) = some t) : front ++ bytes = encode t := by
  obtain ⟨u, hu, rfl⟩ := Option.map_eq_some_iff.1 ht
  rw [h.eq_encodeChar, ih u hu]
  rfl

theorem eq_encode_of_decode? {bytes : Bytes} {t : Text} (h : decode? bytes = some t) :
    bytes = encode t := by
  fun_induction decode? bytes generalizing t with
  | case1 =>
    cases h
    rfl
  | case2 a rest hascii ih =>
    have hchar : (Char.ofNat a.toNat).toNat = a.toNat := toNat_ofNat (Or.inl (by omega))
    have hone : Forms (Char.ofNat a.toNat) [a] := .one (by omega) hchar.symm
    exact hone.eq_encode_of_map (fun _ => ih) h
  | case4 a _ b rest x htwo ih => exact (two?_eq_some_iff.1 htwo).eq_encode_of_map (fun _ => ih) h
  | case6 a _ b _ c rest x hthree ih =>
    exact (three?_eq_some_iff.1 hthree).eq_encode_of_map (fun _ => ih) h
  | case8 a _ b _ c _ d rest x hfour ih =>
    exact (four?_eq_some_iff.1 hfour).eq_encode_of_map (fun _ => ih) h
  | case3 => cases h
  | case5 => cases h
  | case7 => cases h
  | case9 => cases h

/-- Reading gives a text for its encoding, and for no other bytes. -/
theorem decode?_eq_some_iff {bytes : Bytes} {t : Text} :
    decode? bytes = some t ↔ bytes = encode t := by
  constructor
  · exact eq_encode_of_decode?
  · rintro rfl
    exact decode?_encode t

end Utf8

end FlatAidl
