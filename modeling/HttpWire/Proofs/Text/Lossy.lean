import HttpWire.Proofs.Span
import HttpWire.Proofs.Text.Utf8
import Mathlib.Data.Bool.AllAny
import Mathlib.Data.List.Forall2
/-!
# Text read leniently

Bytes that are read leniently and written again are the same but for malformed stretches, which hold
no byte of ASCII before or after. So what the grammar finds by bytes of ASCII, by commas, blanks and
keywords, it finds in both.
-/

namespace HttpWire

theorem exists_getLast?_of_forall₂ {α β : Type} {R : α → β → Prop} {as : List α} {bs : List β}
    (h : List.Forall₂ R as bs) {b : β} (hb : bs.getLast? = some b) :
    ∃ a, as.getLast? = some a ∧ R a b := by
  induction h with
  | nil => cases hb
  | @cons a b' as bs hhead htail ih =>
    cases htail with
    | nil =>
      cases hb
      exact ⟨a, rfl, hhead⟩
    | cons hnext htail => exact ih hb

namespace Bytes

/-! ## Stretches beyond ASCII -/

/-- Whether bytes are a stretch of some bytes from 0x80 on. -/
structure IsHigh (bytes : Bytes) : Prop where
  ne_nil : bytes ≠ []
  high : ∀ b ∈ bytes, 0x80 ≤ b

/-- Whether two byte strings differ only where both have a stretch of bytes from 0x80 on. -/
inductive SameAscii : Bytes → Bytes → Prop where
  | nil : SameAscii [] []
  | cons (b : UInt8) {x y : Bytes} (h : SameAscii x y) : SameAscii (b :: x) (b :: y)
  | stretch {p q x y : Bytes} (hp : IsHigh p) (hq : IsHigh q) (h : SameAscii x y) :
      SameAscii (p ++ x) (q ++ y)

namespace SameAscii

variable {x y : Bytes}

theorem refl (x : Bytes) : SameAscii x x := by
  induction x with
  | nil => exact .nil
  | cons b x ih => exact .cons b ih

theorem symm (h : SameAscii x y) : SameAscii y x := by
  induction h with
  | nil => exact .nil
  | cons b h ih => exact .cons b ih
  | stretch hp hq h ih => exact .stretch hq hp ih

theorem append (h : SameAscii x y) {x' y' : Bytes} (h' : SameAscii x' y') :
    SameAscii (x ++ x') (y ++ y') := by
  induction h with
  | nil => exact h'
  | cons b h ih => exact .cons b ih
  | stretch hp hq h ih =>
    rw [List.append_assoc, List.append_assoc]
    exact .stretch hp hq ih

theorem of_append (bytes : Bytes) (h : SameAscii x y) : SameAscii (bytes ++ x) (bytes ++ y) :=
  (refl bytes).append h

theorem reverse (h : SameAscii x y) : SameAscii x.reverse y.reverse := by
  induction h with
  | nil => exact .nil
  | cons b h ih =>
    rw [List.reverse_cons, List.reverse_cons]
    exact ih.append (refl [b])
  | @stretch p q x y hp hq h ih =>
    have hp' : IsHigh p.reverse :=
      ⟨by simpa using hp.ne_nil, fun b hb => hp.high b (List.mem_reverse.mp hb)⟩
    have hq' : IsHigh q.reverse :=
      ⟨by simpa using hq.ne_nil, fun b hb => hq.high b (List.mem_reverse.mp hb)⟩
    have hstretch := SameAscii.stretch hp' hq' .nil
    rw [List.append_nil, List.append_nil] at hstretch
    rw [List.reverse_append, List.reverse_append]
    exact ih.append hstretch

/-- Bytes of ASCII are the same only as themselves. -/
theorem eq_of_ascii (h : SameAscii x y) (hascii : ∀ b ∈ y, b < 0x80) : x = y := by
  induction h with
  | nil => rfl
  | cons b h ih => rw [ih fun c hc => hascii c (List.mem_cons_of_mem b hc)]
  | stretch hp hq h ih =>
    obtain ⟨b, q, rfl⟩ := List.exists_cons_of_ne_nil hq.ne_nil
    have hlow := hascii b (by simp)
    have hhigh := hq.high b (by simp)
    exact absurd hhigh (UInt8.not_le.mpr hlow)

section
variable {inClass : UInt8 → Bool}

/-- A class that holds all bytes from 0x80 on holds all of both, or of neither. -/
theorem all (h : SameAscii x y) (hclass : ∀ b, 0x80 ≤ b → inClass b = true)
    (hx : ∀ b ∈ x, inClass b = true) : ∀ b ∈ y, inClass b = true := by
  induction h with
  | nil => exact hx
  | cons b h ih =>
    obtain ⟨hb, hx⟩ := List.forall_mem_cons.mp hx
    exact List.forall_mem_cons.mpr ⟨hb, ih hx⟩
  | stretch hp hq h ih =>
    obtain ⟨-, hx⟩ := List.forall_mem_append.mp hx
    exact List.forall_mem_append.mpr ⟨fun b hb => hclass b (hq.high b hb), ih hx⟩

variable (hclass : ∀ b, 0x80 ≤ b → inClass b = false)
include hclass

/-- A class that holds no byte from 0x80 on holds the first byte of both, or of neither. -/
theorem head (h : SameAscii x y) (hx : ∀ b ∈ x.head?, inClass b = false) :
    ∀ b ∈ y.head?, inClass b = false := by
  cases h with
  | nil => exact hx
  | cons b h => exact hx
  | stretch hp hq h =>
    obtain ⟨b, q, rfl⟩ := List.exists_cons_of_ne_nil hq.ne_nil
    rintro _ ⟨⟩
    exact hclass b (hq.high b (by simp))

theorem getLast (h : SameAscii x y) (hx : ∀ b ∈ x.getLast?, inClass b = false) :
    ∀ b ∈ y.getLast?, inClass b = false := by
  rw [← List.head?_reverse] at hx ⊢
  exact h.reverse.head hclass hx

/-- Leaving such bytes away at the front leaves the same. -/
theorem dropWhile (h : SameAscii x y) :
    SameAscii (x.dropWhile inClass) (y.dropWhile inClass) := by
  induction h with
  | nil => exact .nil
  | cons b h ih =>
    by_cases hb : inClass b = true
    · rwa [List.dropWhile_cons_of_pos hb, List.dropWhile_cons_of_pos hb]
    · rw [List.dropWhile_cons_of_neg hb, List.dropWhile_cons_of_neg hb]
      exact .cons b h
  | @stretch p q x y hp hq h ih =>
    have hstop : ∀ {stretch rest : Bytes}, IsHigh stretch →
        (stretch ++ rest).dropWhile inClass = stretch ++ rest := by
      intro stretch rest hstretch
      obtain ⟨b, tail, rfl⟩ := List.exists_cons_of_ne_nil hstretch.ne_nil
      refine dropWhile_of_head ?_
      rintro _ ⟨⟩
      exact hclass b (hstretch.high b (by simp))
    rw [hstop hp, hstop hq]
    exact .stretch hp hq h

end

/-! ## Lists -/

theorem isBlank_of_high {b : UInt8} (h : 0x80 ≤ b) : Byte.isBlank b = false := by
  rw [Byte.isBlank, Bool.or_eq_false_iff, beq_eq_false_iff_ne, beq_eq_false_iff_ne]
  constructor
  · rintro rfl
    exact absurd h (by decide)
  · rintro rfl
    exact absurd h (by decide)

theorem trim (h : SameAscii x y) : SameAscii x.trim y.trim :=
  ((h.dropWhile fun _ => isBlank_of_high).reverse.dropWhile fun _ => isBlank_of_high).reverse

/-- A stretch without the separator stays with the element that follows it. -/
theorem splitOn_append {separator : UInt8} {p : Bytes} (hp : separator ∉ p) (x : Bytes) :
    (p ++ x).splitOn separator = (x.splitOn separator).modifyHead (p ++ ·) := by
  induction p with
  | nil =>
    obtain ⟨first, others, hx⟩ := List.exists_cons_of_ne_nil (List.splitOn_ne_nil separator x)
    rw [List.nil_append, hx]
    rfl
  | cons b p ih =>
    obtain ⟨hb, hp⟩ := not_or.mp (mt List.mem_cons.mpr hp)
    have hne : ¬ (b == separator) = true := by simpa using Ne.symm hb
    rw [List.cons_append, List.splitOn_cons_eq_if_modifyHead, if_neg hne, ih hp,
      List.modifyHead_modifyHead]
    rfl

theorem forall₂_modifyHead {l l' : List Bytes} (h : List.Forall₂ SameAscii l l')
    {f f' : Bytes → Bytes} (hf : ∀ {a a'}, SameAscii a a' → SameAscii (f a) (f' a')) :
    List.Forall₂ SameAscii (l.modifyHead f) (l'.modifyHead f') := by
  cases h with
  | nil => exact .nil
  | cons hhead htail => exact .cons (hf hhead) htail

theorem splitOn (h : SameAscii x y) {separator : UInt8} (hascii : separator < 0x80) :
    List.Forall₂ SameAscii (x.splitOn separator) (y.splitOn separator) := by
  have hother : ∀ {p : Bytes}, IsHigh p → separator ∉ p := by
    intro p hp hmem
    exact absurd (hp.high separator hmem) (UInt8.not_le.mpr hascii)
  induction h with
  | nil => exact .cons .nil .nil
  | cons b h ih =>
    rw [List.splitOn_cons_eq_if_modifyHead, List.splitOn_cons_eq_if_modifyHead]
    split
    · exact .cons .nil ih
    · exact forall₂_modifyHead ih fun hhead => .cons b hhead
  | stretch hp hq h ih =>
    rw [splitOn_append (hother hp), splitOn_append (hother hq)]
    exact forall₂_modifyHead ih fun hhead => .stretch hp hq hhead

theorem listElements (h : SameAscii x y) :
    List.Forall₂ SameAscii x.listElements y.listElements := by
  rw [Bytes.listElements, Bytes.listElements, List.forall₂_map_left_iff,
    List.forall₂_map_right_iff]
  exact (h.splitOn (by decide)).imp fun _ _ hsame => hsame.trim

/-- What is the same as a word of ASCII up to letter case is that word. -/
theorem eq_of_sameLetters (h : SameAscii x y) {word : Bytes}
    (hword : ∀ b ∈ word.foldCase, b < 0x80) (hy : y.sameLetters word = true) : x = y := by
  refine h.eq_of_ascii fun b hb => ?_
  rw [sameLetters, beq_iff_eq] at hy
  refine UInt8.not_le.mp fun hhigh => ?_
  -- A byte from 0x80 on would be left alone, and be in the word.
  have hmem : Byte.toLower b ∈ y.foldCase := List.mem_map_of_mem hb
  rw [hy, Byte.toLower_of_high hhigh] at hmem
  exact absurd hhigh (UInt8.not_le.mpr (hword b hmem))

end SameAscii

end Bytes

/-! ## Lenient reading -/

namespace Utf8

open Bytes (IsHigh SameAscii)

/-- Every byte of ASCII is a character. -/
theorem high_of_leadingChar? {b : UInt8} {rest : Bytes} (h : leadingChar? (b :: rest) = none) :
    0x80 ≤ b := by
  refine UInt8.not_lt.mp fun hlow => ?_
  have hlt : b.toNat < 0x80 := UInt8.lt_iff_toNat_lt.mp hlow
  have hvalid : ∀ n < 0x80, (Char.ofNat n).toNat = n := by decide
  have hascii : (Char.ofNat b.toNat).toNat < 0x80 := by rwa [hvalid _ hlt]
  have hlead := leadingChar?_encodeChar (Char.ofNat b.toNat) rest
  rw [encodeChar_of_ascii hascii, hvalid _ hlt, Nat.toUInt8_eq, UInt8.ofNat_toNat,
    List.cons_append, List.nil_append, h] at hlead
  cases hlead

theorem high_of_continuations (lead : UInt8) :
    ∀ bound ∈ continuations lead, 0x80 ≤ bound.1 := by
  simp only [continuations]
  split_ifs <;> simp

theorem high_of_keptBounds {bounds : List (UInt8 × UInt8)} (h : ∀ bound ∈ bounds, 0x80 ≤ bound.1)
    (bytes : Bytes) : ∀ b ∈ bytes.take (keptBounds bounds bytes), 0x80 ≤ b := by
  induction bounds generalizing bytes with
  | nil => simp [keptBounds]
  | cons bound bounds ih =>
    obtain ⟨hbound, hbounds⟩ := List.forall_mem_cons.mp h
    cases bytes with
    | nil => simp
    | cons b bytes =>
      rw [keptBounds]
      split
      · next hkept =>
        rw [Bool.and_eq_true, decide_eq_true_eq, decide_eq_true_eq] at hkept
        rw [List.take_succ_cons]
        exact List.forall_mem_cons.mpr ⟨UInt8.le_trans hbound hkept.1, ih hbounds bytes⟩
      · simp

theorem isHigh_replacement : IsHigh (String.utf8EncodeChar replacement) :=
  ⟨by decide, List.all_iff_forall_prop.mp (by decide)⟩

/-- A malformed piece and the replacement character are both beyond ASCII. -/
theorem isHigh_malformed {b : UInt8} {rest : Bytes} (h : leadingChar? (b :: rest) = none) :
    IsHigh (b :: rest.take (malformedLength b rest - 1)) := by
  have hkept : malformedLength b rest - 1 = keptBounds (continuations b) rest := rfl
  refine ⟨List.cons_ne_nil _ _, List.forall_mem_cons.mpr ⟨high_of_leadingChar? h, ?_⟩⟩
  rw [hkept]
  exact high_of_keptBounds (high_of_continuations b) rest

theorem sameAscii_pieces (bytes : Bytes) :
    SameAscii bytes (((pieces bytes).map (·.getD replacement)).flatMap String.utf8EncodeChar) := by
  induction bytes using piece_induction with
  | nil =>
    rw [pieces_nil]
    exact .nil
  | char c rest ih =>
    rw [pieces_encodeChar]
    exact ih.of_append _
  | malformed b rest hlead ih =>
    have hstretch := SameAscii.stretch (isHigh_malformed hlead) isHigh_replacement ih
    rw [List.cons_append, List.take_append_drop] at hstretch
    rw [pieces_malformed hlead]
    exact hstretch

/-- **Text that was read leniently is written as it came**, up to stretches beyond ASCII. -/
theorem sameAscii_decodeLossy (bytes : Bytes) : SameAscii bytes (encode (decodeLossy bytes)) := by
  rw [encode, decodeLossy, String.toList_ofList]
  exact sameAscii_pieces bytes

/-- Bytes of ASCII come back as they are. -/
theorem encode_decodeLossy {bytes : Bytes} (h : ∀ b ∈ bytes, b < 0x80) :
    encode (decodeLossy bytes) = bytes :=
  (sameAscii_decodeLossy bytes).symm.eq_of_ascii h

end Utf8

end HttpWire
