import HttpWire.Proofs.Text.Utf8
import HttpWire.Text.Base64
/-!
# Base64 on the wire

Base64 reads back as the bytes that were written, and nothing else is read: a text that is accepted
is the base64 of the bytes that are read of it.
-/

namespace HttpWire.Base64

/-! ## Symbols -/

theorem value?_symbol {n : Nat} (h : n < 64) : value? (symbol n) = some n := by
  revert n
  decide

theorem symbol_ne_pad {n : Nat} (h : n < 64) : symbol n ≠ pad := by
  revert n
  decide

/-- A character that base64 is written with. -/
def IsCode (c : Char) : Prop := c = pad ∨ ∃ n < 64, c = symbol n

theorem isCode_of_mem_encode {bytes : Bytes} {c : Char} (h : c ∈ encode bytes) : IsCode c := by
  have hsymbol : ∀ n < 64, IsCode (symbol n) := fun n hn => .inr ⟨n, hn, rfl⟩
  have hpad : IsCode pad := .inl rfl
  induction bytes using encode.induct with
  | case1 => cases h
  | case2 a =>
    have ha := a.toNat_lt
    simp only [encode, List.mem_cons, List.not_mem_nil, or_false] at h
    rcases h with rfl | rfl | rfl | rfl
    · exact hsymbol _ (by omega)
    · exact hsymbol _ (by omega)
    · exact hpad
    · exact hpad
  | case3 a b =>
    have ha := a.toNat_lt
    have hb := b.toNat_lt
    simp only [encode, List.mem_cons, List.not_mem_nil, or_false] at h
    rcases h with rfl | rfl | rfl | rfl
    · exact hsymbol _ (by omega)
    · exact hsymbol _ (by omega)
    · exact hsymbol _ (by omega)
    · exact hpad
  | case4 a b c rest ih =>
    have ha := a.toNat_lt
    have hb := b.toNat_lt
    have hc := c.toNat_lt
    simp only [encode, List.mem_cons] at h
    rcases h with rfl | rfl | rfl | rfl | h
    · exact hsymbol _ (by omega)
    · exact hsymbol _ (by omega)
    · exact hsymbol _ (by omega)
    · exact hsymbol _ (by omega)
    · exact ih h

theorem encode_ne_nil {bytes : Bytes} (h : bytes ≠ []) : encode bytes ≠ [] := by
  match bytes with
  | [] => exact absurd rfl h
  | [_] => exact List.cons_ne_nil _ _
  | [_, _] => exact List.cons_ne_nil _ _
  | _ :: _ :: _ :: _ => exact List.cons_ne_nil _ _

/-! ## Groups -/

theorem toUInt8_of_eq {n : Nat} {b : UInt8} (h : n = b.toNat) : n.toUInt8 = b := by
  rw [h]
  exact UInt8.ofNat_toNat

theorem decodeLast?_one (a : UInt8) :
    decodeLast? (symbol (a.toNat / 4)) (symbol (a.toNat % 4 * 16)) pad pad = some [a] := by
  have ha := a.toNat_lt
  have hunused : (a.toNat % 4 * 16 % 16 == 0) = true := by
    rw [beq_iff_eq]
    omega
  simp only [decodeLast?, value?_symbol (show a.toNat / 4 < 64 by omega),
    value?_symbol (show a.toNat % 4 * 16 < 64 by omega), Option.bind_eq_bind, Option.bind_some,
    if_true, decide_true, hunused, Bool.and_self]
  rw [toUInt8_of_eq (b := a) (by omega)]

theorem decodeLast?_two {a b : UInt8} {n : Nat} (hn : n = a.toNat * 256 + b.toNat) :
    decodeLast? (symbol (n / 1024)) (symbol (n / 16 % 64)) (symbol (n % 16 * 4)) pad =
      some [a, b] := by
  have ha := a.toNat_lt
  have hb := b.toNat_lt
  have hunused : (n % 16 * 4 % 4 == 0) = true := by
    rw [beq_iff_eq]
    omega
  simp only [decodeLast?, value?_symbol (show n / 1024 < 64 by omega),
    value?_symbol (show n / 16 % 64 < 64 by omega), value?_symbol (show n % 16 * 4 < 64 by omega),
    if_neg (symbol_ne_pad (show n % 16 * 4 < 64 by omega)), Option.bind_eq_bind,
    Option.bind_some, if_true, hunused]
  rw [toUInt8_of_eq (b := a) (by omega), toUInt8_of_eq (b := b) (by omega)]

section
variable {a b c : UInt8} {n : Nat}

theorem decodeLast?_three (hn : n = (a.toNat * 256 + b.toNat) * 256 + c.toNat) :
    decodeLast? (symbol (n / 262144)) (symbol (n / 4096 % 64)) (symbol (n / 64 % 64))
      (symbol (n % 64)) = some [a, b, c] := by
  have ha := a.toNat_lt
  have hb := b.toNat_lt
  have hc := c.toNat_lt
  simp only [decodeLast?, value?_symbol (show n / 262144 < 64 by omega),
    value?_symbol (show n / 4096 % 64 < 64 by omega),
    value?_symbol (show n / 64 % 64 < 64 by omega), value?_symbol (show n % 64 < 64 by omega),
    if_neg (symbol_ne_pad (show n / 64 % 64 < 64 by omega)),
    if_neg (symbol_ne_pad (show n % 64 < 64 by omega)), Option.bind_eq_bind, Option.bind_some]
  rw [toUInt8_of_eq (b := a) (by omega), toUInt8_of_eq (b := b) (by omega),
    toUInt8_of_eq (b := c) (by omega)]

theorem decode?_group (hn : n = (a.toNat * 256 + b.toNat) * 256 + c.toNat) {rest : List Char}
    (hrest : rest ≠ []) :
    decode? (symbol (n / 262144) :: symbol (n / 4096 % 64) :: symbol (n / 64 % 64) ::
      symbol (n % 64) :: rest) = (decode? rest).map fun bytes => a :: b :: c :: bytes := by
  have ha := a.toNat_lt
  have hb := b.toNat_lt
  have hc := c.toNat_lt
  obtain ⟨d, tail, rfl⟩ := List.exists_cons_of_ne_nil hrest
  simp only [decode?, value?_symbol (show n / 262144 < 64 by omega),
    value?_symbol (show n / 4096 % 64 < 64 by omega),
    value?_symbol (show n / 64 % 64 < 64 by omega), value?_symbol (show n % 64 < 64 by omega),
    Option.bind_eq_bind, Option.bind_some]
  rw [toUInt8_of_eq (b := a) (by omega), toUInt8_of_eq (b := b) (by omega),
    toUInt8_of_eq (b := c) (by omega)]
  exact Option.map_eq_bind.symm

end

/-- **Base64 reads back** as the bytes that were written. -/
theorem decode?_encode (bytes : Bytes) : decode? (encode bytes) = some bytes := by
  induction bytes using encode.induct with
  | case1 => rfl
  | case2 a => exact decodeLast?_one a
  | case3 a b => exact decodeLast?_two rfl
  | case4 a b c rest ih =>
    by_cases hrest : rest = []
    · subst hrest
      exact decodeLast?_three rfl
    · rw [encode, decode?_group rfl (encode_ne_nil hrest), ih]
      rfl

/-! ## What is accepted -/

/-- Beyond ASCII nothing is in the alphabet. -/
theorem ascii_of_value? {c : Char} {n : Nat} (h : value? c = some n) : c.toNat < 0x80 := by
  refine Nat.not_le.mp fun hbig => ?_
  have hnot : ∀ d : Char, d.toNat < 0x80 → ¬ c ≤ d ∧ c ≠ d := by
    intro d hd
    have hless : d.toNat < c.toNat := by omega
    exact ⟨Nat.not_le.mpr hless, fun heq => Nat.lt_irrefl _ (heq ▸ hless)⟩
  have hnone : value? c = none := by
    simp [value?, (hnot 'Z' (by decide)).1, (hnot 'z' (by decide)).1, (hnot '9' (by decide)).1,
      (hnot '+' (by decide)).2, (hnot '/' (by decide)).2]
  rw [hnone] at h
  cases h

theorem eq_symbol_of_value? {c : Char} {n : Nat} (h : value? c = some n) :
    n < 64 ∧ c = symbol n := by
  have hall : ∀ n ∈ value? c, n < 64 ∧ c = symbol n := by
    refine Utf8.forall_ascii (p := fun c => ∀ n ∈ value? c, n < 64 ∧ c = symbol n) ?_
      (ascii_of_value? h)
    decide
  exact hall n h

theorem toNat_toUInt8 {n : Nat} (h : n < 0x100) : n.toUInt8.toNat = n := by
  rw [Nat.toUInt8_eq, UInt8.toNat_ofNat', Nat.mod_eq_of_lt h]

section
variable {i j k l : Nat} (hi : i < 64) (hj : j < 64) (hk : k < 64) (hl : l < 64)
include hi hj

theorem encode_one (hunused : j % 16 = 0) :
    encode [(i * 4 + j / 16).toUInt8] = [symbol i, symbol j, pad, pad] := by
  have ha : (i * 4 + j / 16).toUInt8.toNat = i * 4 + j / 16 := toNat_toUInt8 (by omega)
  simp only [encode, ha]
  rw [show (i * 4 + j / 16) / 4 = i by omega, show (i * 4 + j / 16) % 4 * 16 = j by omega]

include hk

theorem encode_two (hunused : k % 4 = 0) :
    encode [(i * 4 + j / 16).toUInt8, (j % 16 * 16 + k / 4).toUInt8] =
      [symbol i, symbol j, symbol k, pad] := by
  have ha : (i * 4 + j / 16).toUInt8.toNat = i * 4 + j / 16 := toNat_toUInt8 (by omega)
  have hb : (j % 16 * 16 + k / 4).toUInt8.toNat = j % 16 * 16 + k / 4 := toNat_toUInt8 (by omega)
  simp only [encode, ha, hb]
  generalize hn : (i * 4 + j / 16) * 256 + (j % 16 * 16 + k / 4) = n
  rw [show n / 1024 = i by omega, show n / 16 % 64 = j by omega, show n % 16 * 4 = k by omega]

include hl

theorem encode_three (rest : Bytes) :
    encode ((i * 4 + j / 16).toUInt8 :: (j % 16 * 16 + k / 4).toUInt8 :: (k % 4 * 64 + l).toUInt8 ::
      rest) = symbol i :: symbol j :: symbol k :: symbol l :: encode rest := by
  have ha : (i * 4 + j / 16).toUInt8.toNat = i * 4 + j / 16 := toNat_toUInt8 (by omega)
  have hb : (j % 16 * 16 + k / 4).toUInt8.toNat = j % 16 * 16 + k / 4 := toNat_toUInt8 (by omega)
  have hc : (k % 4 * 64 + l).toUInt8.toNat = k % 4 * 64 + l := toNat_toUInt8 (by omega)
  simp only [encode, ha, hb, hc]
  generalize hn :
    ((i * 4 + j / 16) * 256 + (j % 16 * 16 + k / 4)) * 256 + (k % 4 * 64 + l) = n
  rw [show n / 262144 = i by omega, show n / 4096 % 64 = j by omega,
    show n / 64 % 64 = k by omega, show n % 64 = l by omega]

end

theorem encode_of_decodeLast? {p q r s : Char} {bytes : Bytes}
    (h : decodeLast? p q r s = some bytes) : encode bytes = [p, q, r, s] := by
  obtain ⟨i, hp, h⟩ := Option.bind_eq_some_iff.mp h
  obtain ⟨j, hq, h⟩ := Option.bind_eq_some_iff.mp h
  obtain ⟨hi, hp⟩ := eq_symbol_of_value? hp
  obtain ⟨hj, hq⟩ := eq_symbol_of_value? hq
  rw [hp, hq]
  split at h
  · next hr =>
    split at h
    · next hunused =>
      rw [Bool.and_eq_true, decide_eq_true_eq, beq_iff_eq] at hunused
      cases h
      rw [hr, hunused.1, encode_one hi hj hunused.2]
    · cases h
  · obtain ⟨k, hr, h⟩ := Option.bind_eq_some_iff.mp h
    obtain ⟨hk, hr⟩ := eq_symbol_of_value? hr
    rw [hr]
    split at h
    · next hs =>
      split at h
      · next hunused =>
        rw [beq_iff_eq] at hunused
        cases h
        rw [hs, encode_two hi hj hk hunused]
      · cases h
    · obtain ⟨l, hs, h⟩ := Option.bind_eq_some_iff.mp h
      obtain ⟨hl, hs⟩ := eq_symbol_of_value? hs
      cases h
      rw [hs]
      exact encode_three hi hj hk hl []

theorem encode_of_decode? {text : List Char} {bytes : Bytes} (h : decode? text = some bytes) :
    encode bytes = text := by
  induction text using decode?.induct generalizing bytes with
  | case1 =>
    cases h
    rfl
  | case2 p q r s => exact encode_of_decodeLast? h
  | case3 p q r s rest hrest ih =>
    rw [decode?.eq_3 p q r s rest hrest] at h
    obtain ⟨i, hp, h⟩ := Option.bind_eq_some_iff.mp h
    obtain ⟨j, hq, h⟩ := Option.bind_eq_some_iff.mp h
    obtain ⟨k, hr, h⟩ := Option.bind_eq_some_iff.mp h
    obtain ⟨l, hs, h⟩ := Option.bind_eq_some_iff.mp h
    obtain ⟨later, hlater, h⟩ := Option.bind_eq_some_iff.mp h
    obtain ⟨hi, hp⟩ := eq_symbol_of_value? hp
    obtain ⟨hj, hq⟩ := eq_symbol_of_value? hq
    obtain ⟨hk, hr⟩ := eq_symbol_of_value? hr
    obtain ⟨hl, hs⟩ := eq_symbol_of_value? hs
    cases h
    rw [encode_three hi hj hk hl, ih hlater, hp, hq, hr, hs]
  | case4 text hnil hlast hmore =>
    rw [decode?.eq_4 text hnil hlast hmore] at h
    cases h

/-- **Strict reading accepts exactly what writing produces.** -/
theorem decode?_eq_some_iff {text : List Char} {bytes : Bytes} :
    decode? text = some bytes ↔ text = encode bytes := by
  constructor
  · intro h
    exact (encode_of_decode? h).symm
  · intro h
    rw [h, decode?_encode]

end HttpWire.Base64
