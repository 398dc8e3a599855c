import HttpWire.Proofs.Reader.Between
/-!
# Messages that fail

A stream that is read up to the beginning of a message may fail in that message or in a later one,
and the report tells which: it counts the messages that have begun. Inside a body nothing can go
wrong but the framing of chunks, so an error of any other kind in the first message is found in its
head: no empty line within the limit, a head that is malformed, or one that is complete and says
what it must not say.
-/

namespace HttpWire.Reader

open Event

variable {kind : Kind}

/-! ## Outside a head -/

/-- Whether a state is not inside a head. If it has failed, then not in one either. -/
def State.OutsideHead : State → Prop
  | .head buffer => buffer = #[]
  | .failed error => error = .invalidChunkSize
  | _ => True

/-- A step outside a head stays outside, unless a message begins. -/
theorem step_outsideHead {r : Reader kind} (h : r.state.OutsideHead) (input : Bytes) :
    (r.step input).reader.state.OutsideHead ∨ [.messageBegin] <+: (r.step input).events := by
  obtain ⟨limits, state, start⟩ := r
  cases state with
  | switched => exact .inl trivial
  | failed error => exact .inl h
  | head buffer =>
    obtain rfl : buffer = #[] := h
    have hstep := step_stepTo (⟨limits, .idle, start⟩ : Reader kind) input
    rcases hstep.begins rfl with ⟨-, hidle⟩ | hbegins
    · left
      rw [show State.head #[] = State.idle from rfl, hidle]
      rfl
    · exact .inr hbegins
  | body body =>
    left
    cases body with
    | untilEnd => trivial
    | length remaining =>
      rw [step, readLength]
      split
      · rfl
      · trivial
    | chunked decoder =>
      rw [step_chunked, closeChunks]
      split
      · trivial
      · rfl
      · rfl

/-- So does a run. -/
theorem consume_outsideHead {r : Reader kind} (h : r.state.OutsideHead) (input : Bytes) :
    (r.consume input).reader.state.OutsideHead ∨ 0 < begun (r.consume input).events := by
  refine consume_keeps_reported (fun r events => r.state.OutsideHead ∨ 0 < begun events)
    (fun r events input _ hr => ?_) [] (.inl h) input
  rw [begun_append]
  rcases hr with houtside | hbegun
  · rcases step_outsideHead houtside input with hafter | ⟨later, hlater⟩
    · exact .inl hafter
    · right
      have hone : begun [.messageBegin] = 1 := rfl
      rw [← hlater, begun_append]
      omega
  · exact .inr (by omega)

/-- **Outside a head only the framing of chunks can go wrong** before another message begins. -/
theorem error_of_outsideHead {r : Reader kind} (h : r.state.OutsideHead) {input : Bytes}
    {error : Error} (herror : (r.consume input).result = .error error)
    (hnone : begun (r.consume input).events = 0) : error = .invalidChunkSize := by
  rcases consume_outsideHead h input with hafter | hbegun
  · rw [consume_failsForGood r input error herror] at hafter
    exact hafter
  · omega

theorem outsideHead_afterHead (framing : Framing) : (State.afterHead framing).OutsideHead := by
  cases framing with
  | length n => cases n <;> trivial
  | _ => trivial

/-! ## The message that fails -/

/-- Whether a reader reads some input to its end and is between messages there, so that a message
begins with what comes behind it. -/
structure ComesThrough (r : Reader kind) (before : Bytes) : Prop where
  consumed : (r.feed before).result = .ok before.length
  between : (r.feed before).reader.state = .idle

/-- Whether calls have failed with this error in the message that begins behind `before`: no other
has begun since. -/
structure Calls.FailsBehind (calls : Calls kind) (r : Reader kind) (before : Bytes)
    (error : Error) : Prop where
  failed : .error error ∈ calls.results
  last : begun calls.events = begun (r.feed before).events + 1

/-- Whether a run fails with this error in the first message that it reads. -/
structure Progress.FailsFirst (p : Progress kind) (error : Error) : Prop where
  failed : p.result = .error error
  first : begun p.events = 1

theorem failsFirst_fail_iff {r : Reader kind} {events : List Event} (hevents : begun events = 1)
    {error error' : Error} : (r.fail events error).FailsFirst error' ↔ error = error' := by
  constructor
  · intro h
    cases h.failed
    rfl
  · rintro rfl
    exact ⟨rfl, hevents⟩

theorem comesThrough_nil {r : Reader kind} (hidle : r.state = .idle) : r.ComesThrough [] := by
  have hfeed := feed_of_idle hidle []
  rw [consume_nil] at hfeed
  constructor
  · rw [hfeed]
    rfl
  · rw [hfeed]
    exact hidle

section
variable {r : Reader kind} (hidle : r.state = .idle) {before message : Bytes}
  (hbefore : r.ComesThrough before) {pieces : List Bytes} (hne : ∀ piece ∈ pieces, piece ≠ [])
  (hpieces : pieces.flatten = before ++ message)
include hidle hbefore hne hpieces

/-- Calls that come through some input do behind it what the reader does that has read it. -/
theorem feedAll_behind :
    (r.feedAll pieces).ComeTo
      (.behind (r.feed before).events before.length ((r.feed before).reader.consume message)) := by
  have hsound := sound_of_idle hidle
  have hfeed := feed_of_idle hidle before
  have hconsumed := hbefore.consumed
  have hcut := consume_append hsound before message
  have hcome := feedAll_flatten hsound hne
  rw [hpieces] at hcome
  rw [hfeed] at hconsumed ⊢
  rw [Progress.andThen_of_ok hconsumed] at hcut
  exact hcome.of_agree hcut.symm

/-- **The message behind some input fails in calls on a stream** exactly if it fails when the reader
that has read that input reads on. -/
theorem failsBehind_iff (error : Error) :
    (r.feedAll pieces).FailsBehind r before error ↔
      ((r.feed before).reader.consume message).FailsFirst error := by
  have hall := feedAll_behind hidle hbefore hne hpieces
  have hbegun : begun (r.feedAll pieces).events =
      begun (r.feed before).events + begun ((r.feed before).reader.consume message).events := by
    rw [← begun_joinBodies, hall.events, begun_joinBodies, Progress.behind, begun_append]
  have hresult : .error error ∈ (r.feedAll pieces).results ↔
      ((r.feed before).reader.consume message).result = .error error := by
    rw [← hall.results.error_iff error, Progress.behind]
    cases ((r.feed before).reader.consume message).result <;> simp [Except.map]
  constructor
  · rintro ⟨hfailed, hlast⟩
    exact ⟨hresult.mp hfailed, by omega⟩
  · rintro ⟨hfailed, hfirst⟩
    exact ⟨hresult.mpr hfailed, by omega⟩

end

/-! ## The head of a message -/

theorem hasEnding_empty : Head.hasEnding (#[] : Array UInt8).toList = false := rfl

section
variable {r : Reader kind} (hidle : r.state = .idle) {b : UInt8} (hb : Byte.isBreak b = false)
  {text : Bytes}
include hidle hb

theorem step_message :
    r.step (b :: text) = r.base.readHead [.messageBegin] #[] (b :: text) := by
  obtain ⟨limits, state, start⟩ := r
  subst hidle
  exact step_idle_of_not_break hb

/-- A message that fails with its first step. -/
theorem consume_of_fail {events : List Event} {error : Error}
    (h : r.base.readHead [.messageBegin] #[] (b :: text) = r.base.fail events error) :
    r.consume (b :: text) = r.base.fail events error := by
  have hstep := (step_message hidle hb).trans h
  have herror : (r.step (b :: text)).result = .error error := by
    rw [hstep]
    rfl
  rw [consume_of_error herror, hstep]

/-- A head has to have its empty line within its limit. -/
theorem consume_of_tooLarge (hlength : max r.limits.maxHeadLength 1 ≤ (b :: text).length)
    (hnone : Head.hasEnding ((b :: text).take r.limits.maxHeadLength) = false) :
    r.consume (b :: text) = r.base.fail [.messageBegin] .headTooLarge := by
  apply consume_of_fail hidle hb
  by_cases hzero : r.limits.maxHeadLength = 0
  · exact readHead_full (Nat.le_of_eq hzero)
  · have hne : (b :: text).take r.limits.maxHeadLength ≠ [] := by
      simp [hzero]
    have hfull : r.limits.maxHeadLength ≤
        ((#[] : Array UInt8) ++ (b :: text).take r.limits.maxHeadLength).size := by
      rw [← Array.length_toList, Array.toList_appendList, List.nil_append, List.length_take]
      omega
    have htaken : (b :: text).take (r.base.limits.maxHeadLength - (#[] : Array UInt8).size) =
        (b :: text).take r.limits.maxHeadLength := rfl
    rw [readHead_of_not_ending hasEnding_empty htaken hne hnone, awaitHead]
    exact if_pos hfull

/-- While it is shorter, more of it is waited for. -/
theorem consume_of_short (hlength : (b :: text).length < r.limits.maxHeadLength)
    (hnone : Head.hasEnding (b :: text) = false) :
    (r.consume (b :: text)).result = .ok (b :: text).length := by
  have htaken : (b :: text).take (r.base.limits.maxHeadLength - (#[] : Array UInt8).size) =
      b :: text := List.take_of_length_le (Nat.le_of_lt hlength)
  have hroom : ¬ r.base.limits.maxHeadLength ≤ ((#[] : Array UInt8) ++ (b :: text)).size := by
    rw [← Array.length_toList, Array.toList_appendList]
    exact Nat.not_le.mpr hlength
  have hread : r.base.readHead [.messageBegin] #[] (b :: text) =
      r.base.moveTo [.messageBegin] (.head ((#[] : Array UInt8) ++ (b :: text)))
        (b :: text).length := by
    rw [readHead_of_not_ending hasEnding_empty htaken (List.cons_ne_nil b text) hnone,
      awaitHead, if_neg hroom]
  rw [consume_of_moveTo ((step_message hidle hb).trans hread) (Nat.succ_pos _)
    (List.cons_ne_nil b text), List.drop_length, consume_nil]
  rfl

/-- A head that is malformed fails as soon as its empty line is in. -/
theorem consume_of_malformed {error : Error}
    (hending : Head.hasEnding ((b :: text).take r.limits.maxHeadLength) = true)
    (hfailed : Head.parse kind r.limits.maxFields ((b :: text).take r.limits.maxHeadLength) =
      .failed error) :
    r.consume (b :: text) = r.base.fail [.messageBegin] error := by
  apply consume_of_fail hidle hb
  have hparse : Head.parse kind r.base.limits.maxFields
      ((#[] : Array UInt8).toList ++ (b :: text).take r.limits.maxHeadLength) = .failed error :=
    hfailed
  have htaken : (b :: text).take (r.base.limits.maxHeadLength - (#[] : Array UInt8).size) =
      (b :: text).take r.limits.maxHeadLength := rfl
  rw [readHead_of_ending hasEnding_empty htaken hending, hparse]

end

theorem begun_headEvents (head : Head) : begun (headEvents head) = 0 := by
  obtain ⟨start, fields⟩ := head
  have hfields := (balance_fields (fieldsPart_flatMap fields)).1
  cases start with
  | status version code reason => exact hfields
  | request method target version => simpa [headEvents, begun] using hfields

theorem begun_openEvents (head : Head) (start : Start) : begun (openEvents head start) = 1 := by
  rw [openEvents, begun_append, begun_append, begun_headEvents]
  rfl

theorem begun_endEvents (framing : Framing) (start : Start) :
    begun (endEvents framing start) = 0 := by
  rw [endEvents]
  split <;> rfl

theorem error_of_start {line : StartLine} {error : Error} (h : line.start = .error error) :
    error = .unknownMethod := by
  cases line with
  | status version code reason => cases h
  | request method target version =>
    rw [StartLine.start] at h
    split at h
    · cases h
    · cases h
      rfl

section
variable {r : Reader kind} (hidle : r.state = .idle) {block : Bytes} {head : Head}
  (hparse : Head.parse kind r.limits.maxFields block = .done head [])
  (hlength : block.length ≤ r.limits.maxHeadLength)
include hidle hparse hlength

/-- A complete head that is refused, whatever follows it. -/
theorem consume_of_refused {events : List Event} {error : Error}
    (h : r.base.openMessage [.messageBegin] head block.length = r.base.fail events error)
    (tail : Bytes) : r.consume (block ++ tail) = r.base.fail events error := by
  have hread : r.base.readHead [.messageBegin] #[] (block ++ tail) =
      r.base.openMessage [.messageBegin] head block.length := readHead_append hparse hlength
  cases block with
  | nil => cases kind <;> cases hparse
  | cons b block => exact consume_of_fail hidle (Head.isBreak_of_parse_done hparse) (hread.trans h)

/-- A head whose lengths are at odds is refused, after it has been reported. -/
theorem consume_of_unsound {start : Start} (hstart : head.start.start = .ok start) {error : Error}
    (hframing : Framing.ofHead kind start head.fields = .error error) (tail : Bytes) :
    r.consume (block ++ tail) = r.base.fail ([.messageBegin] ++ headEvents head) error := by
  refine consume_of_refused hidle hparse hlength ?_ tail
  rw [openMessage, hstart]
  dsimp only
  rw [hframing]

/-- **A head that is complete** fails for an unknown method, or for lengths that are at odds, and
for nothing else. Behind it the framing of chunks may be broken. -/
theorem failsFirst_head_iff (tail : Bytes) {error : Error} (herror : error ≠ .invalidChunkSize) :
    (r.consume (block ++ tail)).FailsFirst error ↔
      head.start.start = .error error ∨
        ∃ start, head.start.start = .ok start ∧
          Framing.ofHead kind start head.fields = .error error := by
  cases hstart : head.start.start with
  | error error' =>
    have hopen : r.base.openMessage [.messageBegin] head block.length =
        r.base.fail [.messageBegin] error' := by
      rw [openMessage, hstart]
    rw [consume_of_refused hidle hparse hlength hopen, failsFirst_fail_iff rfl]
    simp
  | ok start =>
    cases hframing : Framing.ofHead kind start head.fields with
    | error error' =>
      have hbegun : begun ([.messageBegin] ++ headEvents head) = 1 := by
        rw [begun_append, begun_headEvents]
        rfl
      rw [consume_of_unsound hidle hparse hlength hstart hframing, failsFirst_fail_iff hbegun]
      simp [hframing]
    | ok framing =>
      have haccepted : Accepted kind r.limits block head start framing :=
        ⟨hparse, hlength, hstart, hframing⟩
      constructor
      · rintro ⟨hfailed, hfirst⟩
        rw [consume_head hidle haccepted, Progress.behind] at hfailed hfirst
        dsimp only at hfailed hfirst
        rw [begun_append, begun_append, begun_openEvents, begun_endEvents] at hfirst
        -- What fails behind the head without another beginning fails in the body.
        have hlater : (consume (⟨r.limits, State.afterHead framing, start⟩ : Reader kind)
            tail).result = .error error := by
          cases hresult : (consume (⟨r.limits, State.afterHead framing, start⟩ : Reader kind)
              tail).result with
          | ok n =>
            rw [hresult] at hfailed
            cases hfailed
          | error error' =>
            rw [hresult] at hfailed
            cases hfailed
            rfl
        exact absurd (error_of_outsideHead (outsideHead_afterHead framing) hlater (by omega)) herror
      · rintro (h | ⟨start', h, hframing'⟩)
        · cases h
        · cases h
          rw [hframing] at hframing'
          cases hframing'

/-- What can be wrong with a message whose head is complete. -/
theorem error_of_failsFirst_head {tail : Bytes} {error : Error}
    (h : (r.consume (block ++ tail)).FailsFirst error) :
    error = .invalidChunkSize ∨ error = .unknownMethod ∨ error = .invalidContentLength := by
  by_cases hchunk : error = .invalidChunkSize
  · exact .inl hchunk
  · right
    obtain hstart | ⟨start, -, hframing⟩ :=
      (failsFirst_head_iff hidle hparse hlength tail hchunk).mp h
    · exact .inl (error_of_start hstart)
    · exact .inr (Framing.error_of_ofHead hframing)

end

end HttpWire.Reader
