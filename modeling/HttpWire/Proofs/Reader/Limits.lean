import HttpWire.Proofs.Head.EmptyLine
import HttpWire.Proofs.Head.Grammar
import HttpWire.Proofs.Reader.Consumption
import HttpWire.Proofs.Reader.Failure
/-!
# Limits

What a reader keeps of its input is bounded: a head by the limit that the reader was given, a line
of a chunked body by a limit of its own. Both bounds hold between any two steps. The limits of a
head are exact: of two heads that differ in one byte, or in one field line, one may be refused and
the other not, and which of them is refused does not depend on how the input is cut.
-/

namespace HttpWire

/-! ## Lines of chunked bodies -/

namespace Chunked.Decoder

/-- What has been read of the line that the decoder is in. -/
def line : Decoder → Bytes
  | .size line => line
  | .trailer line => line
  | .payload _ => []
  | .afterReturn => []

/-- A step that goes on has finished its line. -/
theorem Moves.line_eq_nil {d next : Decoder} {b : UInt8} {input rest : Bytes}
    {piece : Option Bytes} (h : Moves b input d next piece rest) : next.line = [] := by
  cases h <;> rfl

theorem length_le_of_readLine_part {line input part : Bytes}
    (h : readLine line input = .part part) : part.length ≤ maxLineLength := by
  obtain hnot | ⟨text, rest, hnot, rfl⟩ := lf_cases input
  · rw [readLine_of_not_mem hnot] at h
    split at h
    · next hlength =>
      cases h
      rwa [List.length_append]
    · cases h
  · rw [readLine_of_lf hnot] at h
    split at h <;> cases h

/-- A step that waits for more keeps no more than a line may have. -/
theorem length_line_of_step_more {d next : Decoder} {b : UInt8} {input : Bytes}
    (h : step d b input = .stop (.more next)) : next.line.length ≤ maxLineLength := by
  cases d with
  | size line =>
    simp only [step, stepSize] at h
    split at h
    · cases h
    · next hread =>
      cases h
      exact length_le_of_readLine_part hread
    · split at h <;> cases h
  | trailer line =>
    simp only [step, stepTrailer] at h
    split at h
    · cases h
    · next hread =>
      cases h
      exact length_le_of_readLine_part hread
    · split at h <;> cases h
  | afterReturn =>
    simp only [step, stepBreak] at h
    split at h
    · cases h
    · split at h <;> cases h
  | payload n =>
    cases n with
    | zero =>
      simp only [step, stepBreak] at h
      split at h
      · cases h
      · split at h <;> cases h
    | succ n => cases h

/-- **Decoding keeps no more of a line** than a line may have. -/
theorem length_line_decode {d next : Decoder} {input : Bytes}
    (hd : d.line.length ≤ maxLineLength) (h : (d.decode input).outcome = .more next) :
    next.line.length ≤ maxLineLength := by
  induction d, input using decode_induction with
  | nil d =>
    rw [decode_nil] at h
    cases h
    exact hd
  | stop d b input outcome hstep =>
    rw [decode_of_step_stop hstep] at h
    dsimp only at h
    rw [h] at hstep
    exact length_line_of_step_more hstep
  | next d b input after piece rest hstep ih =>
    rw [decode_of_step_next hstep] at h
    refine ih ?_ h
    rw [(moves_of_step_next hstep).line_eq_nil]
    exact Nat.zero_le _

end Chunked.Decoder

namespace Reader

variable {kind : Kind}

/-! ## What is kept of the input -/

/-- Whether what a state keeps of the input is within its bounds. -/
def State.Bounded (limits : Limits) : State → Prop
  | .head buffer => buffer.size ≤ limits.maxHeadLength
  | .body (.chunked decoder) => decoder.line.length ≤ 1024
  | _ => True

theorem State.bounded_afterHead (limits : Limits) (framing : Framing) :
    (State.afterHead framing).Bounded limits := by
  cases framing with
  | protocolSwitch => trivial
  | chunked => exact Nat.zero_le _
  | untilEnd => trivial
  | length n =>
    cases n with
    | zero => exact Nat.zero_le _
    | succ n => trivial

/-- A step in a head leads into it, behind it or between messages. -/
theorem StepTo.bounded_of_head {r : Reader kind} {input : Bytes} {p : Progress kind}
    (h : r.StepTo input p) (hsound : r.state.Sound r.limits) {buffer : Array UInt8}
    (hstate : r.state = .head buffer) : p.reader.state.Bounded p.reader.limits := by
  cases h with
  | failed error => trivial
  | skipped n => exact Nat.zero_le _
  | waited buffer n hhead hbuffer hkeeps => exact (hkeeps hsound).2
  | opened head start framing => exact State.bounded_afterHead _ framing
  | read pieces body n hbody =>
    rw [hstate] at hbody
    cases hbody
  | completed pieces n => exact Nat.zero_le _
  | stopped => trivial

/-- **Every step keeps to the bounds.** -/
theorem step_bounded {r : Reader kind} (hsound : r.state.Sound r.limits)
    (h : r.state.Bounded r.limits) (input : Bytes) :
    (r.step input).reader.state.Bounded (r.step input).reader.limits := by
  obtain ⟨limits, state, start⟩ := r
  cases state with
  | head buffer => exact (step_stepTo _ input).bounded_of_head hsound rfl
  | switched => trivial
  | failed error => trivial
  | body body =>
    cases body with
    | untilEnd => trivial
    | length remaining =>
      rw [step, readLength]
      split
      · exact Nat.zero_le _
      · trivial
    | chunked decoder =>
      rw [step_chunked, closeChunks]
      split
      · next later hmore => exact Chunked.Decoder.length_line_decode h hmore
      · exact Nat.zero_le _
      · trivial

theorem finish_bounded (r : Reader kind) :
    r.finish.reader.state.Bounded r.finish.reader.limits := by
  rw [finish]
  split
  · split
    · exact Nat.zero_le _
    · trivial
  · exact Nat.zero_le _
  · trivial
  · trivial
  · trivial

theorem feed_bounded {r : Reader kind} (hsound : r.state.Sound r.limits)
    (h : r.state.Bounded r.limits) (input : Bytes) :
    (r.feed input).reader.state.Bounded (r.feed input).reader.limits := by
  have hkeeps := feed_keeps (fun r _ => r.state.Sound r.limits ∧ r.state.Bounded r.limits)
    (fun r _ input _ hr => ⟨(step_stepTo r input).sound hr.1, step_bounded hr.1 hr.2 input⟩)
    (fun r _ hr => ⟨(finish_finishTo r).sound, finish_bounded r⟩) [] ⟨hsound, h⟩ input
  exact hkeeps.2

theorem Reachable.bounded {r : Reader kind} (h : r.Reachable) : r.state.Bounded r.limits := by
  induction h with
  | new limits => exact Nat.zero_le _
  | feed h input ih => exact feed_bounded h.sound ih input
  | reset h ih => exact Nat.zero_le _

theorem Steps.bounded {k : Nat} {r s : Reader kind} {input rest : Bytes}
    (h : Steps k r input s rest) (hsound : r.state.Sound r.limits)
    (hr : r.state.Bounded r.limits) : s.state.Bounded s.limits := by
  induction h with
  | none r input => exact hr
  | more hinput hgoing hok hlater ih =>
    exact ih ((step_stepTo _ _).sound hsound) (step_bounded hsound hr _)

/-! ## The length of a head -/

section
variable {r : Reader kind} (hidle : r.state = .idle) {b : UInt8} (hb : Byte.isBreak b = false)
  {text : Bytes}
include hidle hb

/-- A head with its empty line within the limit is complete or malformed, and not too large. -/
theorem not_headTooLarge_of_ending
    (hending : Head.hasEnding ((b :: text).take r.limits.maxHeadLength) = true) :
    ¬ (r.consume (b :: text)).FailsFirst .headTooLarge := by
  intro hfails
  obtain ⟨block, rest, htake, hblock⟩ := Head.exists_endsAtFirst (Head.hasEnding_iff.mp hending)
  obtain ⟨head, hdone⟩ | ⟨error, hfailed⟩ :=
    Head.parse_of_endsAtFirst kind r.limits.maxFields hblock
  · have hlength : block.length ≤ r.limits.maxHeadLength := by
      have hle := List.length_take_le r.limits.maxHeadLength (b :: text)
      rw [htake, List.length_append] at hle
      omega
    have hsplit : b :: text = block ++ (rest ++ (b :: text).drop r.limits.maxHeadLength) := by
      rw [← List.append_assoc, ← htake, List.take_append_drop]
    rw [hsplit] at hfails
    rcases error_of_failsFirst_head hidle hdone hlength hfails with h | h | h <;> cases h
  · have hmalformed := Head.parse_append_of_endsAtFirst kind r.limits.maxFields hblock rest
    have hparse := (hmalformed.2.2 error).mpr hfailed
    rw [← htake] at hparse
    rw [consume_of_malformed hidle hb hending hparse, failsFirst_fail_iff rfl] at hfails
    rw [hfails] at hfailed
    exact absurd (Head.failsIn_parse kind r.limits.maxFields block _ hfailed) (by decide)

/-- **A head is too large** exactly if as much of it has come as it may have, and its empty line is
not in that. -/
theorem failsFirst_headTooLarge_iff :
    (r.consume (b :: text)).FailsFirst .headTooLarge ↔
      max r.limits.maxHeadLength 1 ≤ (b :: text).length ∧
        ¬ Head.HasEmptyLine ((b :: text).take r.limits.maxHeadLength) := by
  rw [Head.HasEmptyLine, ← Head.hasEnding_iff, Bool.not_eq_true]
  constructor
  · intro hfails
    have hnone : Head.hasEnding ((b :: text).take r.limits.maxHeadLength) = false := by
      rw [Bool.eq_false_iff]
      exact fun hending => not_headTooLarge_of_ending hidle hb hending hfails
    refine ⟨?_, hnone⟩
    -- A shorter head would be waited for.
    by_contra hshort
    have hlength : (b :: text).length < r.limits.maxHeadLength := by
      rw [List.length_cons] at hshort ⊢
      omega
    rw [List.take_of_length_le (Nat.le_of_lt hlength)] at hnone
    have hfailed := hfails.failed
    rw [consume_of_short hidle hb hlength hnone] at hfailed
    cases hfailed
  · rintro ⟨hlength, hnone⟩
    rw [consume_of_tooLarge hidle hb hlength hnone]
    exact (failsFirst_fail_iff rfl).mpr rfl

end

/-! ## The number of fields -/

/-- **A head that is made of lines has too many fields** exactly if they exceed their limit. -/
theorem failsFirst_tooManyFields_iff {r : Reader kind} (hidle : r.state = .idle) {block : Bytes}
    {head : Head} (hlines : Head.Lines kind head block)
    (hlength : block.length ≤ r.limits.maxHeadLength) (tail : Bytes) :
    (r.consume (block ++ tail)).FailsFirst .tooManyFields ↔
      r.limits.maxFields < head.fields.length := by
  by_cases hroom : head.fields.length ≤ r.limits.maxFields
  · have hparse : Head.parse kind r.limits.maxFields block = .done head [] :=
      Head.parse_eq_done_iff.mpr ⟨block, hlines, by rw [List.append_nil], hroom⟩
    constructor
    · intro hfails
      rcases error_of_failsFirst_head hidle hparse hlength hfails with h | h | h <;> cases h
    · omega
  · obtain ⟨more, htake⟩ := exists_take_append hlength tail
    have hparse : Head.parse kind r.limits.maxFields ((block ++ tail).take r.limits.maxHeadLength) =
        .failed .tooManyFields := by
      rw [htake]
      exact (hlines.tooManyFields_iff more).mpr (Nat.lt_of_not_le hroom)
    have hending : Head.hasEnding ((block ++ tail).take r.limits.maxHeadLength) = true := by
      rw [htake]
      exact Head.hasEnding_append_left hlines.hasEnding more
    have hconsume : r.consume (block ++ tail) = r.base.fail [.messageBegin] .tooManyFields := by
      cases block with
      | nil => cases hlines.hasEnding
      | cons b block =>
        exact consume_of_malformed hidle (Head.isBreak_of_parse_done hlines.parse) hending hparse
    rw [hconsume, failsFirst_fail_iff rfl]
    exact ⟨fun _ => Nat.lt_of_not_le hroom, fun _ => rfl⟩

/-! ## Limits are exact -/

/-- Calls that have failed have failed with one error. -/
theorem Calls.FailsBehind.unique {r : Reader kind} (hidle : r.state = .idle)
    {before message : Bytes} (hbefore : r.ComesThrough before) {pieces : List Bytes}
    (hne : ∀ piece ∈ pieces, piece ≠ []) (hpieces : pieces.flatten = before ++ message)
    {error error' : Error} (h : (r.feedAll pieces).FailsBehind r before error)
    (h' : (r.feedAll pieces).FailsBehind r before error') : error = error' := by
  have hfailed := ((failsBehind_iff hidle hbefore hne hpieces error).mp h).failed
  rw [((failsBehind_iff hidle hbefore hne hpieces error').mp h').failed] at hfailed
  cases hfailed
  rfl

/-- **Limits are exact, and what is kept is bounded.** Whatever calls and resets have led to a
reader, at every step of a call it keeps no more of a head than its limit allows, with what the step
takes, and no more of a line of a chunked body than a line may have.

A message that begins behind input which has been read to its end, wherever the calls cut the two,
fails for being too large exactly if as much of it has come as a head may have, one byte at the
least, and no empty line is in that, and then it fails for nothing else. So it does not where the
empty line ends within the limit. A message whose head is made of lines and not too long fails for
too many fields exactly if there are more of them than the reader puts up with. -/
theorem limits_exact (kind : Kind) :
    (∀ r : Reader kind, r.Reachable → ∀ k input s rest, Steps k r input s rest →
      s.state.Bounded s.limits ∧
        ∀ buffer, s.state = .head buffer →
          buffer.size + (rest.take (s.limits.maxHeadLength - buffer.size)).length ≤
            s.limits.maxHeadLength) ∧
    ∀ (r : Reader kind) (before : Bytes) (pieces : List Bytes) (b : UInt8) (text : Bytes),
      r.state = .idle → r.ComesThrough before → (∀ piece ∈ pieces, piece ≠ []) →
      Byte.isBreak b = false → pieces.flatten = before ++ b :: text →
        ((r.feedAll pieces).FailsBehind r before .headTooLarge ↔
          max r.limits.maxHeadLength 1 ≤ (b :: text).length ∧
            ¬ Head.HasEmptyLine ((b :: text).take r.limits.maxHeadLength)) ∧
        (∀ error, (r.feedAll pieces).FailsBehind r before .headTooLarge →
          (r.feedAll pieces).FailsBehind r before error → error = .headTooLarge) ∧
        ∀ block tail, b :: text = block ++ tail → block.length ≤ r.limits.maxHeadLength →
          (Head.HasEmptyLine block → ¬ (r.feedAll pieces).FailsBehind r before .headTooLarge) ∧
          ∀ head, Head.Lines kind head block →
            ((r.feedAll pieces).FailsBehind r before .tooManyFields ↔
              r.limits.maxFields < head.fields.length) := by
  constructor
  · intro r hr k input s rest hsteps
    have hbounded := hsteps.bounded hr.sound hr.bounded
    refine ⟨hbounded, fun buffer hstate => ?_⟩
    rw [hstate] at hbounded
    have hsize : buffer.size ≤ s.limits.maxHeadLength := hbounded
    rw [List.length_take]
    omega
  · intro r before pieces b text hidle hbefore hne hb hpieces
    have hfails := failsBehind_iff hidle hbefore hne hpieces
    have hafter : (r.feed before).reader.state = .idle := hbefore.between
    have hlimits : (r.feed before).reader.limits = r.limits := limits_feed r before
    have hlarge := (hfails .headTooLarge).trans (failsFirst_headTooLarge_iff hafter hb)
    rw [hlimits] at hlarge
    refine ⟨hlarge, fun error hlarge' herror => herror.unique hidle hbefore hne hpieces hlarge',
      fun block tail hsplit hlength => ⟨fun hempty hoverflow => ?_, fun head hlines => ?_⟩⟩
    · obtain ⟨more, htake⟩ := exists_take_append hlength tail
      refine (hlarge.mp hoverflow).2 (hempty.mono ?_)
      rw [hsplit, htake]
      exact (List.prefix_append block more).isInfix
    · rw [hfails, hsplit, failsFirst_tooManyFields_iff hafter hlines (hlimits ▸ hlength), hlimits]

/-- A whole request and a blank line. -/
def firstRequest : Bytes := Utf8.encode "GET / HTTP/1.1\r\n\r\n\n"

/-- The lines of a request with two fields, 26 bytes. -/
def twoFieldLines : Bytes := Utf8.encode "GET / HTTP/1.1\nA: 1\nB: 2\n\n"

/-- The head that the lines make up. -/
def twoFieldHead : Head where
  start := .request (Utf8.encode "GET") [0x2F] 1
  fields := [⟨[0x41], [0x31]⟩, ⟨[0x42], [0x32]⟩]

/-- A reader that puts up with one field only, and with so many bytes. -/
def readerOf (maxHeadLength : Nat) : Reader .request := { limits := ⟨1, maxHeadLength⟩ }

theorem lines_twoFieldHead : Head.Lines .request twoFieldHead twoFieldLines := by
  have hparse : Head.parse .request 2 twoFieldLines = .done twoFieldHead [] := by
    decide +kernel
  exact (Head.lines_of_parse_done hparse).1

/-- With one byte less to a head the same calls fail for its length and not for its fields. -/
theorem twoFieldHead_limits :
    let pieces := [firstRequest ++ [0x47], twoFieldLines.tail ++ [0x21]]
    (∀ r ∈ [readerOf 26, readerOf 25], r.state = .idle ∧ r.ComesThrough firstRequest) ∧
      (∀ piece ∈ pieces, piece ≠ []) ∧
      pieces.flatten = firstRequest ++ 0x47 :: (twoFieldLines.tail ++ [0x21]) ∧
      ((readerOf 26).feedAll pieces).FailsBehind (readerOf 26) firstRequest .tooManyFields ∧
      ((readerOf 25).feedAll pieces).FailsBehind (readerOf 25) firstRequest .headTooLarge ∧
      ((readerOf 26).feed (firstRequest ++ [0x47])).reader.state.Bounded (readerOf 26).limits := by
  intro pieces
  obtain ⟨hbounded, hexact⟩ := limits_exact .request
  have hthrough : ∀ r ∈ [readerOf 26, readerOf 25],
      r.state = .idle ∧ r.ComesThrough firstRequest := by
    intro r hr
    simp only [List.mem_cons, List.not_mem_nil, or_false] at hr
    obtain rfl | rfl := hr
    · exact ⟨rfl, by decide +kernel, by decide +kernel⟩
    · exact ⟨rfl, by decide +kernel, by decide +kernel⟩
  have hne : ∀ piece ∈ pieces, piece ≠ [] := by decide +kernel
  have hpieces : pieces.flatten =
      firstRequest ++ 0x47 :: (twoFieldLines.tail ++ [0x21]) := by decide +kernel
  have hbreak : Byte.isBreak 0x47 = false := by decide
  have hroomy := hexact (readerOf 26) firstRequest pieces 0x47 _ rfl (hthrough _ (by simp)).2 hne
    hbreak hpieces
  have htight := hexact (readerOf 25) firstRequest pieces 0x47 _ rfl (hthrough _ (by simp)).2 hne
    hbreak hpieces
  have hsplit : (0x47 : UInt8) :: (twoFieldLines.tail ++ [0x21]) =
      twoFieldLines ++ [0x21] := by decide +kernel
  have hfits : twoFieldLines.length ≤ (readerOf 26).limits.maxHeadLength := by
    decide +kernel
  have hnone : ¬ Head.HasEmptyLine
      ((0x47 :: (twoFieldLines.tail ++ [0x21])).take (readerOf 25).limits.maxHeadLength) :=
    fun hempty => absurd (Head.hasEnding_iff.mpr hempty) (by decide +kernel)
  refine ⟨hthrough, hne, hpieces, ?_, htight.1.mpr ⟨by decide +kernel, hnone⟩, ?_⟩
  · exact ((hroomy.2.2 _ _ hsplit hfits).2 _ lines_twoFieldHead).mpr (by decide)
  · have hreachable : ((readerOf 26).feed (firstRequest ++ [0x47])).reader.Reachable :=
      .feed (.new _) _
    have hlimits : ((readerOf 26).feed (firstRequest ++ [0x47])).reader.limits =
        (readerOf 26).limits := by
      decide +kernel
    rw [← hlimits]
    exact (hbounded _ hreachable 0 [] _ [] (.none _ _)).1

end Reader

end HttpWire
