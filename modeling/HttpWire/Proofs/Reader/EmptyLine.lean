import HttpWire.Proofs.Head.EmptyLine
import HttpWire.Proofs.Reader.Consumption
/-!
# Waiting for the empty line

A reader does not parse a head before the empty line is in. Nothing is lost by that and nothing
gained by asking the grammar earlier: the first empty line decides, and the reader finds it with the
bytes that complete it, though it searches only the last bytes of those that came before. So when it
does ask the grammar, the grammar never has to wait.
-/

namespace HttpWire.Reader

variable {kind : Kind}

/-- At every step into a head the search of the last bytes finds what a search of all of them would,
and where it finds an empty line the grammar does not wait. -/
theorem Steps.search {k : Nat} {r s : Reader kind} {input rest : Bytes}
    (h : Steps k r input s rest) (hsound : r.state.Sound r.limits) {buffer : Array UInt8}
    (hstate : s.state = .head buffer) (taken : Bytes) (maxFields : Nat) :
    Head.completesEnding buffer taken = Head.hasEnding (buffer.toList ++ taken) ∧
      (Head.completesEnding buffer taken = true →
        Head.parse kind maxFields (buffer.toList ++ taken) ≠ .incomplete) := by
  have hs := h.sound hsound
  rw [hstate] at hs
  have hsearch : Head.completesEnding buffer taken = Head.hasEnding (buffer.toList ++ taken) :=
    Head.completesEnding_eq hs.1
  refine ⟨hsearch, fun hcompletes hinc => ?_⟩
  rw [hsearch, Head.hasEnding_of_parse_incomplete hinc] at hcompletes
  cases hcompletes

/-- **The empty line decides about a head.** Without one, text that may start a head is no complete
head. With one it is complete or malformed, and is so already where it is cut off behind the first
empty line, with the same head, which ends right there, or the same error. In however many pieces a
head comes, a search that looks back at the last bytes finds the empty line with the same piece as a
search of all that has come. And at no step of any call does the grammar wait for more of a head in
which the reader has found an empty line. -/
theorem emptyLine_decides (kind : Kind) :
    (∀ (maxFields : Nat) (b : UInt8) (text : Bytes), Byte.isBreak b = false →
      (Head.hasEnding (b :: text) = false →
        ∀ head rest, Head.parse kind maxFields (b :: text) ≠ .done head rest) ∧
      (Head.hasEnding (b :: text) = true →
        ∃ block rest, b :: text = block ++ rest ∧ Head.EndsAtFirst block ∧
          Head.parse kind maxFields (b :: text) ≠ .incomplete ∧
          (∀ head left, Head.parse kind maxFields (b :: text) = .done head left ↔
            Head.parse kind maxFields block = .done head [] ∧ left = rest) ∧
          ∀ error, Head.parse kind maxFields (b :: text) = .failed error ↔
            Head.parse kind maxFields block = .failed error)) ∧
    (∀ pieces : List Bytes,
      Head.foundWith Head.completesEnding #[] pieces =
        Head.foundWith (fun before piece => Head.hasEnding (before.toList ++ piece)) #[] pieces) ∧
    ∀ r : Reader kind, r.Reachable → ∀ input k s rest buffer, Steps k r input s rest →
      s.state = .head buffer →
        let taken := rest.take (s.limits.maxHeadLength - buffer.size)
        Head.completesEnding buffer taken = Head.hasEnding (buffer.toList ++ taken) ∧
          (Head.completesEnding buffer taken = true →
            Head.parse kind s.limits.maxFields (buffer.toList ++ taken) ≠ .incomplete) := by
  refine ⟨fun maxFields b text _ => ⟨fun hnone head rest hdone => ?_, fun hending => ?_⟩,
    fun pieces => Head.foundWith_completesEnding rfl pieces, ?_⟩
  · obtain ⟨block, heq, hblock⟩ := Head.hasEnding_of_parse_done hdone
    rw [heq, Head.hasEnding_append_left hblock rest] at hnone
    cases hnone
  · obtain ⟨block, rest, heq, hblock⟩ := Head.exists_endsAtFirst (Head.hasEnding_iff.mp hending)
    rw [heq]
    exact ⟨block, rest, rfl, hblock, Head.parse_append_of_endsAtFirst kind maxFields hblock rest⟩
  · intro r hr input k s rest buffer hsteps hstate
    exact hsteps.search hr.sound hstate _ _

/-- A head with line breaks of both kinds, up to inside its empty line. -/
def mixedHead : Bytes := Utf8.encode "GET / HTTP/1.1\nA: 1\r\n\r"

/-- What comes behind that: the end of the empty line, and another empty line. -/
def mixedRest : Bytes := Utf8.encode "\nx\n\ny"

theorem mixedHead_decides :
    let cut := (({} : Reader .request).feed mixedHead).reader
    (Byte.isBreak 0x47 = false ∧ mixedHead ++ mixedRest = 0x47 :: (mixedHead ++ mixedRest).tail ∧
        Head.hasEnding (mixedHead ++ mixedRest) = true ∧ cut.Reachable ∧
        cut.state = .head mixedHead.toArray) ∧
      (∃ block rest, mixedHead ++ mixedRest = block ++ rest ∧ Head.EndsAtFirst block) ∧
      Head.foundWith Head.completesEnding #[] [mixedHead, mixedRest] = some 2 ∧
      Head.completesEnding mixedHead.toArray mixedRest = true ∧
      Head.parse .request 64 (mixedHead ++ mixedRest) ≠ .incomplete := by
  intro cut
  obtain ⟨hbytes, hsearch, hsteps⟩ := emptyLine_decides .request
  have hreachable : cut.Reachable := .feed (.new {}) mixedHead
  have hstate : cut.state = .head mixedHead.toArray := by decide +kernel
  have hlimits : cut.limits = {} := by decide +kernel
  have hbreak : Byte.isBreak 0x47 = false := by decide
  have hcons : mixedHead ++ mixedRest = 0x47 :: (mixedHead ++ mixedRest).tail := by decide +kernel
  have hending : Head.hasEnding (mixedHead ++ mixedRest) = true := by decide +kernel
  obtain ⟨block, rest, heq, hblock, -⟩ := (hbytes 64 0x47 _ hbreak).2 (hcons ▸ hending)
  -- The step on what is left begins in the head that is cut.
  obtain ⟨hfinds, hdecided⟩ := hsteps cut hreachable mixedRest 0 cut mixedRest _ (.none _ _) hstate
  have htaken : mixedRest.take (cut.limits.maxHeadLength - mixedHead.toArray.size) = mixedRest := by
    rw [hlimits]
    decide +kernel
  rw [htaken] at hfinds hdecided
  rw [hlimits] at hdecided
  have hcompletes : Head.completesEnding mixedHead.toArray mixedRest = true := hfinds.trans hending
  refine ⟨⟨hbreak, hcons, hending, hreachable, hstate⟩, ⟨block, rest, hcons.trans heq, hblock⟩, ?_,
    hcompletes, hdecided hcompletes⟩
  rw [hsearch]
  decide +kernel

end HttpWire.Reader
