import HttpWire.Proofs.Head.Outcome
import Mathlib.Data.List.Induction
/-!
# The first empty line

Where a head ends is where its first empty line ends. The grammar and the search for empty lines
find that place on their own, and here they are compared: the grammar completes no head before the
empty line is in, it has made up its mind when the line is in, and what stands behind the line
changes nothing. A search that looks at the last bytes only finds the line with the same piece of
input as one that looks at everything.
-/

namespace HttpWire.Head

/-- Whether an empty line is complete somewhere in some input, with the line feed before it. -/
def HasEmptyLine (bytes : Bytes) : Prop :=
  [Byte.lf, Byte.lf] <:+: bytes ∨ [Byte.lf, Byte.cr, Byte.lf] <:+: bytes

theorem HasEmptyLine.mono {part whole : Bytes} (h : HasEmptyLine part) (hpart : part <:+: whole) :
    HasEmptyLine whole :=
  h.imp (·.trans hpart) (·.trans hpart)

/-- A block that ends in an empty line and has none before. -/
structure EndsAtFirst (block : Bytes) : Prop where
  ends : [Byte.lf, Byte.lf] <:+ block ∨ [Byte.lf, Byte.cr, Byte.lf] <:+ block
  first : ∀ part, part <+: block → part ≠ block → ¬ HasEmptyLine part

theorem EndsAtFirst.hasEmptyLine {block : Bytes} (h : EndsAtFirst block) : HasEmptyLine block :=
  h.ends.imp (·.isInfix) (·.isInfix)

/-- What has an empty line has a first one. -/
theorem exists_endsAtFirst {bytes : Bytes} (h : HasEmptyLine bytes) :
    ∃ block rest, bytes = block ++ rest ∧ EndsAtFirst block := by
  induction bytes using List.reverseRecOn with
  | nil =>
    rw [HasEmptyLine, List.infix_nil, List.infix_nil] at h
    simp at h
  | append_singleton bytes b ih =>
    by_cases hbefore : HasEmptyLine bytes
    · obtain ⟨block, rest, heq, hblock⟩ := ih hbefore
      exact ⟨block, rest ++ [b], by rw [heq, List.append_assoc], hblock⟩
    · -- The last byte completes the empty line.
      refine ⟨bytes ++ [b], [], by simp, ?_, fun part hpart hne => ?_⟩
      · rw [HasEmptyLine, List.infix_concat_iff, List.infix_concat_iff] at h
        rw [HasEmptyLine, not_or] at hbefore
        exact h.imp (·.resolve_right hbefore.1) (·.resolve_right hbefore.2)
      · have hshort : part <+: bytes := (List.prefix_concat_iff.mp hpart).resolve_left hne
        exact fun hempty => hbefore (hempty.mono hshort.isInfix)

/-! ## The empty line and the grammar -/

section
variable (kind : Kind) (maxFields : Nat) {block : Bytes} (h : EndsAtFirst block)
include h

/-- A head that ends in its first empty line is complete or malformed with it. -/
theorem parse_of_endsAtFirst :
    (∃ head, parse kind maxFields block = .done head []) ∨
      ∃ error, parse kind maxFields block = .failed error := by
  cases hscan : parse kind maxFields block with
  | failed error => exact .inr ⟨error, rfl⟩
  | incomplete =>
    have hnone := hasEnding_of_parse_incomplete hscan
    rw [hasEnding_iff.mpr h.hasEmptyLine] at hnone
    cases hnone
  | done head rest =>
    obtain ⟨front, heq, hending, -⟩ := parse_block hscan
    have hfront : front = block := by
      by_contra hne
      exact h.first front ⟨rest, heq.symm⟩ hne (hasEnding_iff.mp hending)
    rw [hfront] at heq
    exact .inl ⟨head, by rw [List.self_eq_append_right.mp heq]⟩

/-- **The first empty line decides about a head**, whatever stands behind it. -/
theorem parse_append_of_endsAtFirst (rest : Bytes) :
    parse kind maxFields (block ++ rest) ≠ .incomplete ∧
      (∀ head left, parse kind maxFields (block ++ rest) = .done head left ↔
        parse kind maxFields block = .done head [] ∧ left = rest) ∧
      ∀ error, parse kind maxFields (block ++ rest) = .failed error ↔
        parse kind maxFields block = .failed error := by
  obtain ⟨head, hdone⟩ | ⟨error, hfailed⟩ := parse_of_endsAtFirst kind maxFields h
  · have hlong := parse_append hdone rest
    refine ⟨by simp [hlong], fun head' left => ?_, fun error => by simp [hlong, hdone]⟩
    simp [hlong, hdone, eq_comm]
  · have hwait : parse kind maxFields block ≠ .incomplete := by simp [hfailed]
    have hlong := parse_settled kind maxFields block rest hwait
    rw [hfailed, Scan.extend] at hlong
    refine ⟨by simp [hlong], fun head' left => by simp [hlong, hfailed], fun error' => ?_⟩
    simp [hlong, hfailed]

end

/-! ## The empty line in pieces of input -/

/-- With which piece, counted from one, a search first finds something that is done as each piece
comes. It is given what has come before and the piece. -/
def foundWith (finds : Array UInt8 → Bytes → Bool) (before : Array UInt8) : List Bytes → Option Nat
  | [] => none
  | piece :: pieces =>
    if finds before piece then some 1
    else (foundWith finds (before ++ piece) pieces).map (· + 1)

/-- **Searching the last bytes finds the empty line as soon** as searching all of them. -/
theorem foundWith_completesEnding {before : Array UInt8} (hnone : hasEnding before.toList = false)
    (pieces : List Bytes) :
    foundWith completesEnding before pieces =
      foundWith (fun before piece => hasEnding (before.toList ++ piece)) before pieces := by
  induction pieces generalizing before with
  | nil => rfl
  | cons piece pieces ih =>
    rw [foundWith, foundWith, completesEnding_eq hnone]
    split
    · rfl
    · next hpiece =>
      have hlater : hasEnding (before ++ piece).toList = false := by
        rw [Array.toList_appendList]
        simpa using hpiece
      rw [ih hlater]

end HttpWire.Head
