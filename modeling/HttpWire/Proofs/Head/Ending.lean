import HttpWire.Head.Ending
import Mathlib.Data.List.Infix
/-!
# Where a head ends

What the search for an empty line finds, without the search: an empty line is one of two short
stretches of bytes somewhere in the input. Two facts follow that a reader of cut input relies on.
An empty line stays found when more input comes, and to find one that a cut went through, the
last bytes before the cut are enough.
-/

namespace HttpWire.Head

theorem startsWithBlankLine_iff {bytes : Bytes} :
    startsWithBlankLine bytes = true ↔
      [Byte.lf, Byte.lf] <+: bytes ∨ [Byte.lf, Byte.cr, Byte.lf] <+: bytes := by
  simp only [startsWithBlankLine, Bool.or_eq_true, List.isPrefixOf_iff_prefix]

/-- **An ending is an empty line** and the line feed before it. -/
theorem hasEnding_iff {bytes : Bytes} :
    hasEnding bytes = true ↔
      [Byte.lf, Byte.lf] <:+: bytes ∨ [Byte.lf, Byte.cr, Byte.lf] <:+: bytes := by
  induction bytes with
  | nil => simp [hasEnding]
  | cons b rest ih =>
    rw [hasEnding, Bool.or_eq_true, startsWithBlankLine_iff, ih, List.infix_cons_iff,
      List.infix_cons_iff]
    exact or_or_or_comm

/-- What has an ending has one in any context. -/
theorem hasEnding_mono {part whole : Bytes} (h : hasEnding part = true)
    (hpart : part <:+: whole) : hasEnding whole = true := by
  rw [hasEnding_iff] at h ⊢
  exact h.imp (·.trans hpart) (·.trans hpart)

theorem hasEnding_append_left {before : Bytes} (h : hasEnding before = true) (more : Bytes) :
    hasEnding (before ++ more) = true :=
  hasEnding_mono h (List.prefix_append _ _).isInfix

/-- An ending starts with a line feed, so text without one can be left out of the search. -/
theorem hasEnding_text_append {text : Bytes} (h : Byte.lf ∉ text) (rest : Bytes) :
    hasEnding (text ++ rest) = hasEnding rest := by
  induction text with
  | nil => rfl
  | cons b text ih =>
    have hb : (Byte.lf == b) = false := by
      simp only [beq_eq_false_iff_ne, ne_eq]
      intro heq
      subst heq
      exact h (by simp)
    rw [List.cons_append, hasEnding, ih fun hmem => h (by simp [hmem])]
    simp [startsWithBlankLine, List.isPrefixOf, hb]

theorem hasEnding_of_not_mem {text : Bytes} (h : Byte.lf ∉ text) : hasEnding text = false := by
  have heq := hasEnding_text_append h []
  rwa [List.append_nil] at heq

/-- A line that starts with no line break is not empty, so the search goes on behind it. -/
theorem hasEnding_line_append {b : UInt8} {text rest : Bytes} (hb : Byte.isBreak b = false)
    (h : Byte.lf ∉ b :: text) :
    hasEnding (Byte.lf :: (b :: text ++ rest)) = hasEnding rest := by
  simp only [Byte.isBreak, Bool.or_eq_false_iff, beq_eq_false_iff_ne] at hb
  have hcr : (Byte.cr == b) = false := by simpa using hb.1.symm
  have hlf : (Byte.lf == b) = false := by simpa using hb.2.symm
  rw [hasEnding, hasEnding_text_append h]
  simp [startsWithBlankLine, List.isPrefixOf, hcr, hlf]

theorem hasEnding_lf_cons {text : Bytes} (h : Byte.lf ∉ text) :
    hasEnding (Byte.lf :: text) = false := by
  have hstart : startsWithBlankLine (Byte.lf :: text) = false := by
    rw [Bool.eq_false_iff, ne_eq, startsWithBlankLine_iff]
    rintro (⟨more, heq⟩ | ⟨more, heq⟩)
    · exact h (by rw [← (List.cons.inj heq).2]; simp)
    · exact h (by rw [← (List.cons.inj heq).2]; simp)
  rw [hasEnding, hstart, hasEnding_of_not_mem h, Bool.or_false]

/-! ## Searching the last bytes only -/

/-- An empty line is too short to reach from a byte over two more into what follows. -/
theorem hasEnding_cons_append {b : UInt8} {before more : Bytes} (hlen : 2 ≤ before.length)
    (hnone : hasEnding (b :: before) = false) :
    hasEnding (b :: before ++ more) = hasEnding (before ++ more) := by
  obtain ⟨c, d, tail, rfl⟩ : ∃ c d tail, before = c :: d :: tail := by
    match before, hlen with
    | c :: d :: tail, _ => exact ⟨c, d, tail, rfl⟩
  have hstart : startsWithBlankLine (b :: c :: d :: tail) = false := by
    rw [hasEnding, Bool.or_eq_false_iff] at hnone
    exact hnone.1
  have hmore : startsWithBlankLine (b :: c :: d :: tail ++ more) = false := by
    simpa [startsWithBlankLine, List.isPrefixOf] using hstart
  rw [List.cons_append, hasEnding]
  rw [List.cons_append] at hmore
  rw [hmore, Bool.false_or]

theorem hasEnding_drop_append {before more : Bytes} {n : Nat} (hlen : n + 2 ≤ before.length)
    (hnone : hasEnding before = false) :
    hasEnding (before.drop n ++ more) = hasEnding (before ++ more) := by
  induction n generalizing before with
  | zero => rfl
  | succ n ih =>
    cases before with
    | nil => simp at hlen
    | cons b before =>
      rw [List.length_cons] at hlen
      have hrest : hasEnding before = false := by
        rw [hasEnding, Bool.or_eq_false_iff] at hnone
        exact hnone.2
      rw [List.drop_succ_cons, ih (by omega) hrest, hasEnding_cons_append (by omega) hnone]

/-- **The last bytes are enough.** Where nothing was found before, searching what has come and
the last bytes before it finds an ending exactly if there is one in all of it. -/
theorem completesEnding_eq {before : Array UInt8} {more : Bytes}
    (hnone : hasEnding before.toList = false) :
    completesEnding before more = hasEnding (before.toList ++ more) := by
  have hlast : (before.extract (before.size - overlap) before.size).toList =
      before.toList.drop (before.size - overlap) := by
    simp
  rw [completesEnding, hlast]
  by_cases hlen : before.size ≤ overlap
  · rw [Nat.sub_eq_zero_of_le hlen, List.drop_zero]
  · refine hasEnding_drop_append ?_ hnone
    simp only [Array.length_toList, overlap] at hlen ⊢
    omega

end HttpWire.Head
