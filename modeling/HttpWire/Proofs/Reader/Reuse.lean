import HttpWire.Proofs.Reader.Run
/-!
# Readers that are used again

Between messages all that a reader remembers of the stream is a start line, and it looks at that
only inside a body, where it is the one of the message at hand. So a used reader reads on like a
new one: two readers that are alike (`Alike`) stay alike, and report and return the same.
-/

namespace HttpWire.Reader

variable {kind : Kind}

/-- Readers that differ at most in the start line of a message that is over. -/
structure Alike (r s : Reader kind) : Prop where
  limits : r.limits = s.limits
  state : r.state = s.state
  start : r.state.inBody = true → r.start = s.start

/-- Calls that report and return the same, and leave readers that are alike. -/
structure Progress.Alike (p q : Progress kind) : Prop where
  events : p.events = q.events
  reader : p.reader.Alike q.reader
  result : p.result = q.result

theorem Alike.refl (r : Reader kind) : r.Alike r := ⟨rfl, rfl, fun _ => rfl⟩

theorem Progress.Alike.refl (p : Progress kind) : p.Alike p := ⟨rfl, .refl _, rfl⟩

/-- A used reader between messages is like a new one. -/
theorem alike_of_idle {r : Reader kind} (h : r.state = .idle) :
    r.Alike { limits := r.limits } := by
  refine ⟨rfl, h, ?_⟩
  rw [h]
  intro hbody
  cases hbody

/-! ## Steps -/

theorem fail_alike {r s : Reader kind} (h : r.limits = s.limits) (events : List Event)
    (error : Error) : (r.fail events error).Alike (s.fail events error) :=
  ⟨rfl, ⟨h, rfl, by rintro ⟨⟩⟩, rfl⟩

theorem moveTo_alike {r s : Reader kind} {state : State} (h : r.limits = s.limits)
    (hstate : state.inBody = false) (events : List Event) (n : Nat) :
    (r.moveTo events state n).Alike (s.moveTo events state n) := by
  refine ⟨rfl, ⟨h, rfl, fun hbody => ?_⟩, rfl⟩
  exact absurd (hstate.symm.trans hbody) Bool.false_ne_true

theorem openMessage_alike {r s : Reader kind} (h : r.limits = s.limits) (events : List Event)
    (head : Head) (n : Nat) :
    (r.openMessage events head n).Alike (s.openMessage events head n) := by
  unfold openMessage
  split
  · exact fail_alike h _ _
  · dsimp only
    split
    · exact fail_alike h _ _
    · exact ⟨rfl, ⟨h, rfl, fun _ => rfl⟩, rfl⟩

theorem awaitHead_alike {r s : Reader kind} (h : r.limits = s.limits) (events : List Event)
    (buffer : Array UInt8) (n : Nat) :
    (r.awaitHead events buffer n).Alike (s.awaitHead events buffer n) := by
  unfold awaitHead
  rw [h]
  split
  · exact fail_alike h _ _
  · exact moveTo_alike h rfl _ _

theorem readHead_alike {r s : Reader kind} (h : r.limits = s.limits) (events : List Event)
    (buffer : Array UInt8) (input : Bytes) :
    (r.readHead events buffer input).Alike (s.readHead events buffer input) := by
  unfold readHead
  rw [h]
  dsimp only
  split
  · exact fail_alike h _ _
  · split
    · split
      · exact openMessage_alike h _ _ _
      · exact awaitHead_alike h _ _ _
      · exact fail_alike h _ _
    · exact awaitHead_alike h _ _ _

theorem readStart_alike {r s : Reader kind} (h : r.limits = s.limits) (input : Bytes) :
    (r.readStart input).Alike (s.readStart input) := by
  unfold readStart
  dsimp only
  split
  · exact readHead_alike h _ _ _
  · exact moveTo_alike h rfl _ _

/-- **Readers that are alike take the same step.** -/
theorem Alike.step {r s : Reader kind} (h : r.Alike s) (input : Bytes) :
    (r.step input).Alike (s.step input) := by
  obtain ⟨limits, state, start⟩ := r
  obtain ⟨limits', state', start'⟩ := s
  obtain ⟨hlimits, hstate, hstart⟩ := h
  dsimp only at hlimits hstate hstart
  subst hlimits hstate
  cases state with
  | switched =>
    apply moveTo_alike <;> rfl
  | failed error =>
    apply fail_alike
    rfl
  | body body =>
    -- Only a body looks at the start line, and in a body they have the same one.
    obtain rfl : start = start' := hstart rfl
    exact .refl _
  | head buffer =>
    unfold Reader.step
    dsimp only
    split
    · apply readStart_alike
      rfl
    · apply readHead_alike
      rfl

/-! ## Calls -/

theorem Progress.Alike.andThen {p q : Progress kind} {next : Reader kind → Progress kind}
    (h : p.Alike q) (hnext : (next p.reader).Alike (next q.reader)) :
    (p.andThen next).Alike (q.andThen next) := by
  cases hq : q.result with
  | error error => rwa [andThen_of_error (h.result.trans hq), andThen_of_error hq]
  | ok n =>
    rw [andThen_of_ok (h.result.trans hq), andThen_of_ok hq]
    exact ⟨by rw [h.events, hnext.events], hnext.reader, by rw [hnext.result]⟩

theorem Alike.consume {r s : Reader kind} (h : r.Alike s) (input : Bytes) :
    (r.consume input).Alike (s.consume input) := by
  induction r, input using consume_induction generalizing s with
  | nil r =>
    rw [consume_nil, consume_nil]
    exact ⟨rfl, h, rfl⟩
  | last r b rest hlast =>
    have hstep := h.step (b :: rest)
    rw [consume_of_last hlast, consume_of_last (by rwa [← hstep.result])]
    exact hstep
  | more r b rest n hn ih =>
    have hstep := h.step (b :: rest)
    rw [consume_of_ok hn, consume_of_ok (hstep.result.symm.trans hn)]
    exact hstep.andThen (ih hstep.reader)

theorem Alike.finish {r s : Reader kind} (h : r.Alike s) : r.finish.Alike s.finish := by
  obtain ⟨limits, state, start⟩ := r
  obtain ⟨limits', state', start'⟩ := s
  obtain ⟨hlimits, hstate, hstart⟩ := h
  dsimp only at hlimits hstate hstart
  subst hlimits hstate
  cases state with
  | switched =>
    apply moveTo_alike <;> rfl
  | failed error =>
    apply fail_alike
    rfl
  | body body =>
    obtain rfl : start = start' := hstart rfl
    exact .refl _
  | head buffer =>
    unfold Reader.finish
    dsimp only
    split
    · apply moveTo_alike <;> rfl
    · apply fail_alike
      rfl

/-- **Readers that are alike report and return the same**, and stay alike. -/
theorem Alike.feed {r s : Reader kind} (h : r.Alike s) (input : Bytes) :
    (r.feed input).Alike (s.feed input) := by
  by_cases hempty : input = []
  · rw [hempty, feed_nil, feed_nil]
    exact h.finish
  · rw [feed_of_ne_nil hempty, feed_of_ne_nil hempty]
    exact h.consume input

/-! ## What comes first -/

/-- Between messages a step that does not skip line breaks first reports that a message begins. -/
theorem StepTo.begins {r : Reader kind} {input : Bytes} {p : Progress kind}
    (h : r.StepTo input p) (hidle : r.state = .idle) :
    p.events = [] ∧ p.reader.state = .idle ∨ [.messageBegin] <+: p.events := by
  have hopening : r.opening = [.messageBegin] := if_pos hidle
  cases h with
  | failed error hevents =>
    right
    rw [← hopening]
    exact hevents.opens
  | skipped n hstate => exact .inl ⟨rfl, rfl⟩
  | waited buffer n hstate hbuffer hsound =>
    right
    rw [hopening]
    exact List.prefix_refl _
  | opened head start framing n hstate =>
    right
    rw [hopening]
    exact ⟨_, (List.append_assoc ..).symm⟩
  | read pieces body n hstate hsound =>
    rw [hidle] at hstate
    cases hstate
  | completed pieces n hstate =>
    rw [hidle] at hstate
    cases hstate
  | stopped hstate =>
    rw [hidle] at hstate
    cases hstate

theorem consume_begins {r : Reader kind} (hidle : r.state = .idle) (input : Bytes) :
    (r.consume input).events = [] ∨ [.messageBegin] <+: (r.consume input).events := by
  induction r, input using consume_induction with
  | nil r =>
    rw [consume_nil]
    exact .inl rfl
  | last r b rest hlast =>
    rw [consume_of_last hlast]
    exact (((step_stepTo r (b :: rest)).begins hidle).imp And.left id)
  | more r b rest n hn ih =>
    rw [consume_of_ok hn, Progress.andThen_of_ok hn]
    dsimp only
    rcases (step_stepTo r (b :: rest)).begins hidle with ⟨hnone, hskip⟩ | hbegin
    · rw [hnone]
      exact ih hskip
    · right
      exact hbegin.trans (List.prefix_append _ _)

/-- **Between messages, whatever is reported starts with the beginning of a message.** -/
theorem feed_begins {r : Reader kind} (hidle : r.state = .idle) (input : Bytes) :
    (r.feed input).events = [] ∨ [.messageBegin] <+: (r.feed input).events := by
  by_cases hempty : input = []
  · obtain ⟨limits, state, start⟩ := r
    subst hempty hidle
    exact .inl rfl
  · rw [feed_of_ne_nil hempty]
    exact consume_begins hidle input

end HttpWire.Reader
