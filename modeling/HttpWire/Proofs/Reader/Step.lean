import HttpWire.Proofs.Chunked.Cut
import HttpWire.Proofs.Framing.Rules
import HttpWire.Proofs.Head.Outcome
import HttpWire.Reader.Feed
/-!
# Steps

Everything that a step can do, said once: which events it reports in which state and where it
leads. What holds of every step is shown case by case from here, without going through the code
again.
-/

namespace HttpWire

/-- Whether a message with this framing can be over with this body before the input ends. -/
def Framing.Fits (body : Bytes) : Framing → Prop
  | .protocolSwitch => body = []
  | .length n => body.length = n
  | .chunked => True
  | .untilEnd => False

namespace Reader

variable {kind : Kind}

/-! ## Readers as feeding leaves them -/

/-- What holds of the state between calls: no empty line has been overlooked in a buffered head,
which has not outgrown its limit, and a body of known length is not over. -/
def State.Sound (limits : Limits) : State → Prop
  | .head buffer => Head.hasEnding buffer.toList = false ∧ buffer.size ≤ limits.maxHeadLength
  | .body (.length remaining) => 0 < remaining
  | _ => True

theorem State.sound_idle (limits : Limits) : State.idle.Sound limits :=
  ⟨rfl, Nat.zero_le _⟩

theorem sound_of_idle {r : Reader kind} (h : r.state = .idle) : r.state.Sound r.limits := by
  rw [h]
  exact State.sound_idle r.limits

theorem State.sound_afterHead (limits : Limits) (framing : Framing) :
    (State.afterHead framing).Sound limits := by
  cases framing with
  | protocolSwitch => trivial
  | chunked => trivial
  | untilEnd => trivial
  | length n =>
    cases n with
    | zero => exact sound_idle limits
    | succ n => exact Nat.succ_pos n

/-- The framing of a body of which some pieces have come, as what is still to come tells it. -/
def Body.framing (pieces : List Bytes) : Body → Framing
  | .length remaining => .length (pieces.flatten.length + remaining)
  | .chunked _ => .chunked
  | .untilEnd => .untilEnd

/-! ## The cases -/

/-- The reader as steps hand it on: between messages, with its limits and start line. -/
def base (r : Reader kind) : Reader kind := { limits := r.limits, start := r.start }

/-- What the first byte of a message adds to the events. Inside a message nothing. -/
def opening (r : Reader kind) : List Event := if r.state = .idle then [.messageBegin] else []

/-- Whether `n` is a sound count of the bytes that a step consumes: some, and no more than there
are. -/
def Counts (r : Reader kind) (input : Bytes) (n : Nat) : Prop :=
  r.state.Sound r.limits → input ≠ [] → 0 < n ∧ n ≤ input.length

/-- Whether a step hands out no empty pieces of a body. -/
def HandsOut (r : Reader kind) (input : Bytes) (pieces : List Bytes) : Prop :=
  r.state.Sound r.limits → input ≠ [] → ∀ piece ∈ pieces, piece ≠ []

/-- Whether an error is one that a reader finds in its stream. -/
def FindsError : Error → Prop
  | .invalidUrl | .emptyParam | .unconsumed .. => False
  | _ => True

/-- What a step may have reported by the time it fails: that a message begins, a head whose
lengths are at odds, or the pieces of a body in front of broken framing. -/
inductive BeforeFailure (r : Reader kind) : List Event → Prop where
  | nothing : BeforeFailure r r.opening
  | head {old : Array UInt8} (head : Head) (hstate : r.state = .head old)
      (hkind : head.start.kind = kind) : BeforeFailure r (r.opening ++ headEvents head)
  | pieces {old : Body} (pieces : List Bytes) (hstate : r.state = .body old)
      (hpieces : ∀ piece ∈ pieces, piece ≠ []) : BeforeFailure r (pieces.map .body)

/-- The ways in which a step over some input can go. -/
inductive StepTo (r : Reader kind) (input : Bytes) : Progress kind → Prop where
  /-- It fails, maybe after it has reported something. -/
  | failed {events : List Event} (error : Error) (hevents : r.BeforeFailure events)
      (herror : r.state = .failed error ∨ FindsError error) :
      StepTo r input (r.fail events error)
  /-- It skips line breaks between messages. -/
  | skipped (n : Nat) (hstate : r.state = .idle) (hcount : r.Counts input n) :
      StepTo r input (r.moveTo [] .idle n)
  /-- It waits for more of a head. -/
  | waited {old : Array UInt8} (buffer : Array UInt8) (n : Nat) (hstate : r.state = .head old)
      (hbuffer : buffer ≠ #[])
      (hsound : r.state.Sound r.limits → (State.head buffer).Sound r.limits)
      (htaken : buffer.toList = old.toList ++ input.take n) (hcount : r.Counts input n) :
      StepTo r input (r.moveTo r.opening (.head buffer) n)
  /-- It completes a head, and with it a message that has no body. The head is what had come
  before and what the step takes. -/
  | opened {old : Array UInt8} (head : Head) (start : Start) (framing : Framing) (n : Nat)
      (hstate : r.state = .head old) (hkind : head.start.kind = kind)
      (hstart : head.start.start = .ok start)
      (hframing : Framing.ofHead kind start head.fields = .ok framing)
      (hparse : r.state.Sound r.limits →
        Head.parse kind r.limits.maxFields (old.toList ++ input.take n) = .done head [])
      (hcount : r.Counts input n) (hfits : old.size + n ≤ r.limits.maxHeadLength) :
      StepTo r input
        (moveTo { r with start }
          (r.opening ++ headEvents head ++ .headersComplete start ::
            if (State.afterHead framing).inBody then [] else [.messageComplete start])
          (State.afterHead framing) n)
  /-- It reads some of a body. -/
  | read {old : Body} (pieces : List Bytes) (body : Body) (n : Nat) (hstate : r.state = .body old)
      (hsound : (State.body body).Sound r.limits) (hpieces : r.HandsOut input pieces)
      (hcount : r.Counts input n) (hlength : pieces.flatten.length ≤ n)
      (hframing : ∀ front, body.framing (front ++ pieces) = old.framing front) :
      StepTo r input (r.moveTo (pieces.map .body) (.body body) n)
  /-- It reads the end of a body. -/
  | completed {old : Body} (pieces : List Bytes) (n : Nat) (hstate : r.state = .body old)
      (hpieces : r.HandsOut input pieces) (hcount : r.Counts input n)
      (hlength : pieces.flatten.length ≤ n)
      (hfits : ∀ front, (old.framing front).Fits (front ++ pieces).flatten) :
      StepTo r input (r.complete (pieces.map .body) n)
  /-- It has stopped already. -/
  | stopped (hstate : r.state = .switched) : StepTo r input (r.moveTo [] .switched 0)

theorem opening_of_body {r : Reader kind} {body : Body} (h : r.state = .body body) :
    r.opening = [] := by
  rw [opening, h]
  rfl

theorem BeforeFailure.opens {r : Reader kind} {events : List Event}
    (h : r.BeforeFailure events) : r.opening <+: events := by
  cases h with
  | nothing => exact List.prefix_refl _
  | head head hstate hkind => exact List.prefix_append _ _
  | pieces pieces hstate hpieces =>
    rw [opening_of_body hstate]
    exact List.nil_prefix

theorem findsError_of_fault {error : Error} (h : error ∈ Head.faults) : FindsError error := by
  simp only [Head.faults, List.mem_cons, List.not_mem_nil, or_false] at h
  rcases h with rfl | rfl | rfl | rfl | rfl | rfl | rfl <;> trivial

section
variable {r : Reader kind} {old : Array UInt8} {input taken : Bytes}

/-- All of what is taken counts, as long as it is something. -/
theorem counts_taken (htaken : taken <+: input) (hne : taken ≠ []) :
    r.Counts input taken.length := by
  intro _ _
  exact ⟨List.length_pos_iff.mpr hne, htaken.length_le⟩

theorem awaitHead_stepTo (hstate : r.state = .head old) (htaken : taken <+: input)
    (hne : taken ≠ [])
    (hending : Head.hasEnding old.toList = false → Head.hasEnding (old.toList ++ taken) = false) :
    r.StepTo input (r.base.awaitHead r.opening (old ++ taken) taken.length) := by
  have hlist : (old ++ taken).toList = old.toList ++ taken := Array.toList_appendList
  have hbuffer : old ++ taken ≠ #[] := by
    intro hnil
    rw [hnil] at hlist
    exact hne (List.append_eq_nil_iff.mp hlist.symm).2
  unfold awaitHead
  split
  · exact .failed _ .nothing (.inr trivial)
  · next hroom =>
    refine .waited (old ++ taken) taken.length hstate hbuffer (fun hsound => ?_) ?_
      (counts_taken htaken hne)
    · rw [hstate] at hsound
      refine ⟨?_, Nat.le_of_not_le hroom⟩
      rw [hlist]
      exact hending hsound.1
    · rw [hlist, ← List.prefix_iff_eq_take.mp htaken]

/-- Where no empty line was before, a head that is complete ends in what is taken. -/
theorem take_of_parse_done {kind : Kind} {maxFields : Nat} {before rest : Bytes} {head : Head}
    (hbefore : Head.hasEnding before = false) (htaken : taken <+: input)
    (hparse : Head.parse kind maxFields (before ++ taken) = .done head rest) :
    rest.length < taken.length ∧
      Head.parse kind maxFields (before ++ input.take (taken.length - rest.length)) =
        .done head [] := by
  have hlen := Head.length_of_parse_done hbefore hparse
  obtain ⟨block, heq, -, hblock⟩ := Head.parse_block hparse
  refine ⟨hlen, ?_⟩
  have hcount : block.length = before.length + (taken.length - rest.length) := by
    have hboth := congrArg List.length heq
    simp only [List.length_append] at hboth
    omega
  have htake : taken.take (taken.length - rest.length) =
      input.take (taken.length - rest.length) := by
    obtain ⟨more, rfl⟩ := htaken
    rw [List.take_append_of_le_length (Nat.sub_le _ _)]
  have hcut : block = before ++ input.take (taken.length - rest.length) := by
    calc block = (block ++ rest).take block.length := List.take_left.symm
      _ = (before ++ taken).take (before.length + (taken.length - rest.length)) := by
        rw [heq, hcount]
      _ = before ++ input.take (taken.length - rest.length) := by
        rw [List.take_length_add_append, htake]
  rwa [← hcut]

theorem openMessage_stepTo {rest : Bytes} {head : Head} (hstate : r.state = .head old)
    (htaken : taken <+: input) (hroom : old.size + taken.length ≤ r.limits.maxHeadLength)
    (hparse : Head.parse kind r.limits.maxFields (old.toList ++ taken) = .done head rest) :
    r.StepTo input (r.base.openMessage r.opening head
      (old.size + taken.length - rest.length - old.size)) := by
  have hkind := Head.kind_of_parse_done hparse
  have hcut : r.state.Sound r.limits → rest.length < taken.length ∧
      Head.parse kind r.limits.maxFields
        (old.toList ++ input.take (old.size + taken.length - rest.length - old.size)) =
          .done head [] := by
    intro hsound
    rw [hstate] at hsound
    have hcount : old.size + taken.length - rest.length - old.size =
        taken.length - rest.length := by
      omega
    rw [hcount]
    exact take_of_parse_done hsound.1 htaken hparse
  unfold openMessage
  split
  · next error hstart =>
    refine .failed _ .nothing (.inr ?_)
    -- An unknown method is all that can be wrong with a start line by itself.
    unfold StartLine.start at hstart
    split at hstart
    · split at hstart <;> cases hstart
      trivial
    · cases hstart
  · next start hstart =>
    dsimp only
    split
    · next error hframing =>
      refine .failed _ (.head head hstate hkind) (.inr ?_)
      rw [Framing.error_of_ofHead hframing]
      trivial
    · next framing hframing =>
      refine .opened head start framing _ hstate hkind hstart hframing
        (fun hsound => (hcut hsound).2) (fun hsound _ => ?_) ?_
      · have hlen := (hcut hsound).1
        have hle := htaken.length_le
        omega
      · omega

theorem readHead_stepTo (hstate : r.state = .head old) (input : Bytes) :
    r.StepTo input (r.base.readHead r.opening old input) := by
  have htaken : input.take (r.base.limits.maxHeadLength - old.size) <+: input :=
    List.take_prefix _ _
  have hle : (input.take (r.base.limits.maxHeadLength - old.size)).length ≤
      r.limits.maxHeadLength - old.size := List.length_take_le _ _
  unfold readHead
  generalize input.take (r.base.limits.maxHeadLength - old.size) = taken at htaken hle ⊢
  dsimp only
  by_cases hempty : taken.isEmpty = true
  · rw [if_pos hempty]
    exact .failed _ .nothing (.inr trivial)
  have hne : taken ≠ [] := by simpa using hempty
  have hroom : old.size + taken.length ≤ r.limits.maxHeadLength := by
    have hpos := List.length_pos_iff.mpr hne
    omega
  rw [if_neg hempty]
  split
  · split
    · next hscan => exact openMessage_stepTo hstate htaken hroom hscan
    · -- Waiting needs that the empty line is not in, which the grammar knows too.
      next hscan =>
      exact awaitHead_stepTo hstate htaken hne fun _ => Head.hasEnding_of_parse_incomplete hscan
    · next error hscan =>
      exact .failed _ .nothing (.inr (findsError_of_fault (Head.failsIn_parse _ _ _ error hscan)))
  · next hcompletes =>
    refine awaitHead_stepTo hstate htaken hne fun hnone => ?_
    rw [Head.completesEnding_eq hnone] at hcompletes
    exact Bool.eq_false_iff.mpr hcompletes

theorem readStart_stepTo (hstate : r.state = .idle) (input : Bytes) :
    r.StepTo input (r.base.readStart input) := by
  have hopening : r.opening = [.messageBegin] := if_pos hstate
  unfold readStart
  dsimp only
  split
  · rw [← hopening]
    exact readHead_stepTo hstate input
  · next hbreaks =>
    exact .skipped _ hstate (counts_taken (List.takeWhile_prefix _) (by simpa using hbreaks))

theorem readChunks_stepTo {decoder : Chunked.Decoder}
    (hstate : r.state = .body (.chunked decoder)) (input : Bytes) :
    r.StepTo input (r.base.readChunks decoder input) := by
  have hpieces : ∀ piece ∈ (decoder.decode input).pieces, piece ≠ [] :=
    fun piece => Chunked.Decoder.pieces_ne_nil
  unfold readChunks
  dsimp only
  split
  · next decoder' _ =>
    exact .read _ (.chunked decoder') _ hstate trivial (fun _ _ => hpieces)
      (fun _ hne => ⟨List.length_pos_iff.mpr hne, Nat.le_refl _⟩)
      (Chunked.Decoder.length_payload_le decoder input) fun _ => rfl
  · next rest hfinished =>
    have hlen := Chunked.Decoder.length_payload_lt hfinished
    rw [Chunked.Decoded.payload] at hlen
    refine .completed _ _ hstate (fun _ _ => hpieces) (fun _ _ => ?_) ?_ fun _ => trivial
    · omega
    · omega
  · exact .failed _ (.pieces _ hstate hpieces) (.inr trivial)

theorem readLength_stepTo {remaining : Nat} (hstate : r.state = .body (.length remaining))
    (input : Bytes) : r.StepTo input (r.base.readLength remaining input) := by
  have hne : r.state.Sound r.limits → input ≠ [] → input.take remaining ≠ [] := by
    intro hsound hinput hnil
    rw [hstate] at hsound
    have hpos : 0 < remaining := hsound
    rcases List.take_eq_nil_iff.mp hnil with hzero | hempty
    · omega
    · exact hinput hempty
  have hpieces : r.HandsOut input [input.take remaining] := by
    intro hsound hinput piece hmem
    rw [List.mem_singleton.mp hmem]
    exact hne hsound hinput
  have hcount : r.Counts input (input.take remaining).length := fun hsound hinput =>
    counts_taken (List.take_prefix _ _) (hne hsound hinput) hsound hinput
  have hflat : [input.take remaining].flatten.length ≤ (input.take remaining).length := by simp
  have hle : (input.take remaining).length ≤ remaining := List.length_take_le _ _
  unfold readLength
  dsimp only
  split
  · refine .completed [_] _ hstate hpieces hcount hflat fun front => ?_
    show (front ++ [_]).flatten.length = front.flatten.length + remaining
    rw [List.flatten_concat, List.length_append]
    omega
  · next hmore =>
    refine .read [_] (.length _) _ hstate (Nat.sub_pos_of_lt (Nat.not_le.mp hmore)) hpieces hcount
      hflat fun front => congrArg Framing.length ?_
    rw [List.flatten_concat, List.length_append]
    omega

end

/-- **Every step goes in one of these ways.** -/
theorem step_stepTo (r : Reader kind) (input : Bytes) : r.StepTo input (r.step input) := by
  obtain ⟨limits, state, start⟩ := r
  cases state with
  | switched => exact .stopped rfl
  | failed error => exact .failed error .nothing (.inl rfl)
  | head buffer =>
    by_cases hbuffer : buffer.isEmpty = true
    · have hidle : buffer = #[] := by simpa using hbuffer
      subst hidle
      exact readStart_stepTo rfl input
    · rw [step, if_neg hbuffer]
      have hopening : opening (⟨limits, .head buffer, start⟩ : Reader kind) = [] := by
        refine if_neg fun hidle => hbuffer ?_
        injection hidle with hnil
        simp [hnil]
      have hread := readHead_stepTo (r := (⟨limits, .head buffer, start⟩ : Reader kind)) rfl input
      rwa [hopening] at hread
  | body body =>
    cases body with
    | chunked decoder => exact readChunks_stepTo rfl input
    | length remaining => exact readLength_stepTo rfl input
    | untilEnd =>
      refine .read [input] .untilEnd _ rfl trivial (fun _ hne piece hmem => ?_)
        (fun _ hne => ⟨List.length_pos_iff.mpr hne, Nat.le_refl _⟩) (by simp) fun _ => rfl
      rwa [List.mem_singleton.mp hmem]

/-! ## What holds of every step -/

/-- A call that fails leaves a reader that answers with the same error from then on. -/
def Progress.FailsForGood (p : Progress kind) : Prop :=
  ∀ error, p.result = .error error → p.reader.state = .failed error

theorem StepTo.failsForGood {r : Reader kind} {input : Bytes} {p : Progress kind}
    (h : r.StepTo input p) : p.FailsForGood := by
  intro error herror
  cases h with
  | failed error' hevents =>
    cases herror
    rfl
  | _ => cases herror

theorem StepTo.ne_failed {r : Reader kind} {input : Bytes} {p : Progress kind}
    (h : r.StepTo input p) {n : Nat} (hok : p.result = .ok n) (error : Error) :
    p.reader.state ≠ .failed error := by
  cases h with
  | failed error' hevents => cases hok
  | opened head start framing m hstate =>
    cases framing with
    | length n => cases n <;> rintro ⟨⟩
    | _ => rintro ⟨⟩
  | _ => rintro ⟨⟩

/-- **Every step keeps a reader sound.** -/
theorem StepTo.sound {r : Reader kind} {input : Bytes} {p : Progress kind}
    (h : r.StepTo input p) (hsound : r.state.Sound r.limits) :
    p.reader.state.Sound p.reader.limits := by
  cases h with
  | failed error hevents => trivial
  | skipped n hstate => exact State.sound_idle _
  | waited buffer n hstate hbuffer hkeeps => exact hkeeps hsound
  | opened head start framing n hstate => exact State.sound_afterHead _ framing
  | read pieces body n hstate hbody => exact hbody
  | completed pieces n hstate => exact State.sound_idle _
  | stopped hstate => trivial

/-- **A step that does not fail consumes something**, and no more than there is, unless the reader
has stopped. -/
theorem StepTo.count {r : Reader kind} {input : Bytes} {p : Progress kind}
    (h : r.StepTo input p) (hsound : r.state.Sound r.limits) (hgoing : r.state ≠ .switched)
    (hinput : input ≠ []) {n : Nat} (hok : p.result = .ok n) : 0 < n ∧ n ≤ input.length := by
  cases h with
  | failed error hevents => cases hok
  | skipped n hstate hcount =>
    cases hok
    exact hcount hsound hinput
  | waited buffer n hstate hbuffer hkeeps htaken hcount =>
    cases hok
    exact hcount hsound hinput
  | opened head start framing n hstate hkind hstart hframing hparse hcount =>
    cases hok
    exact hcount hsound hinput
  | read pieces body n hstate hbody hpieces hcount =>
    cases hok
    exact hcount hsound hinput
  | completed pieces n hstate hpieces hcount =>
    cases hok
    exact hcount hsound hinput
  | stopped hstate => exact absurd hstate hgoing

theorem StepTo.limits {r : Reader kind} {input : Bytes} {p : Progress kind}
    (h : r.StepTo input p) : p.reader.limits = r.limits := by
  cases h <;> rfl

/-! ## The end of the input -/

/-- Whether a reader is inside a message. -/
def State.InMessage : State → Prop
  | .head buffer => buffer ≠ #[]
  | .body _ => True
  | _ => False

/-- The ways in which the end of the input can go. -/
inductive FinishTo (r : Reader kind) : Progress kind → Prop where
  /-- No message is cut off. -/
  | between (hstate : r.state = .idle) : FinishTo r (r.moveTo [] .idle 0)
  /-- A body that lasts until here is over. -/
  | completed (hstate : r.state = .body .untilEnd) : FinishTo r (r.complete [] 0)
  /-- A message is cut off. -/
  | cutOff (hinside : r.state.InMessage) : FinishTo r (r.fail [] .unexpectedEnd)
  /-- The reader has stopped already. -/
  | stopped (hstate : r.state = .switched) : FinishTo r (r.moveTo [] .switched 0)
  /-- The reader has failed already. -/
  | failed (error : Error) (hstate : r.state = .failed error) : FinishTo r (r.fail [] error)

/-- **The end of the input goes in one of these ways.** -/
theorem finish_finishTo (r : Reader kind) : r.FinishTo r.finish := by
  obtain ⟨limits, state, start⟩ := r
  cases state with
  | switched => exact .stopped rfl
  | failed error => exact .failed error rfl
  | head buffer =>
    unfold finish
    dsimp only
    split
    · next hbuffer =>
      obtain rfl : buffer = #[] := by simpa using hbuffer
      exact .between rfl
    · next hbuffer =>
      refine .cutOff ?_
      show buffer ≠ #[]
      simpa using hbuffer
  | body body =>
    cases body with
    | untilEnd => exact .completed rfl
    | _ => exact .cutOff trivial

theorem FinishTo.failsForGood {r : Reader kind} {p : Progress kind} (h : r.FinishTo p) :
    p.FailsForGood := by
  intro error herror
  cases h with
  | cutOff hinside =>
    cases herror
    rfl
  | failed error' hstate =>
    cases herror
    rfl
  | _ => cases herror

theorem FinishTo.sound {r : Reader kind} {p : Progress kind} (h : r.FinishTo p) :
    p.reader.state.Sound p.reader.limits := by
  cases h with
  | between hstate => exact State.sound_idle _
  | completed hstate => exact State.sound_idle _
  | _ => trivial

theorem FinishTo.limits {r : Reader kind} {p : Progress kind} (h : r.FinishTo p) :
    p.reader.limits = r.limits := by
  cases h <;> rfl

end Reader

end HttpWire
