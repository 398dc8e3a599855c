import HttpWire.Proofs.Message
import HttpWire.Proofs.Message.Receive
import HttpWire.Proofs.Reader.EndOfInput
/-!
# The message that came last

A reader at rest has reported a whole message last, framed as its head says, and so what is received
is that message: the fields of its head, and the body that the pieces make up. No more of a body is
received than has been consumed, and less of it as soon as a head was read.
-/

namespace HttpWire.Reader

open Event (begun completed)

variable {kind : Kind} {r : Reader kind} {events : List Event} {input : Bytes} {p : Progress kind}

/-! ## Whole messages -/

/-- Whether a report closes with a whole message: with this head, which was accepted, and pieces of
a body that the framing fits, and that it is complete. -/
def Completes (kind : Kind) (limits : Limits) (head : Head) (start : Start) (framing : Framing)
    (pieces : List Bytes) (events : List Event) : Prop :=
  ∃ before block, Accepted kind limits block head start framing ∧ framing.Fits pieces.flatten ∧
    events = before ++ (openEvents head start ++ pieces.map .body ++ [.messageComplete start])

/-- Whether a report closes with a whole message where the reader rests, unless it is empty. -/
def RestsBehind (r : Reader kind) (events : List Event) : Prop :=
  r.state.Rests → events = [] ∨
    ∃ head start framing pieces, Completes kind r.limits head start framing pieces events

theorem not_rests_body {body : Body} (h : r.state = .body body) : ¬ r.state.Rests := by
  rw [h]
  rintro (hidle | hswitched)
  · cases hidle
  · cases hswitched

/-- A head that leaves no body to come is that of a whole message. -/
theorem restsBehind_afterHead {limits : Limits} {block : Bytes} {head : Head} {start : Start}
    {framing : Framing} (h : Accepted kind limits block head start framing)
    (before : List Event) :
    RestsBehind (⟨limits, State.afterHead framing, start⟩ : Reader kind)
      (before ++ (openEvents head start ++ endEvents framing start)) := by
  intro hrests
  have hwhole : ∀ framing, Accepted kind limits block head start framing →
      framing.Fits [] → endEvents framing start = [.messageComplete start] →
      Completes kind limits head start framing []
        (before ++ (openEvents head start ++ endEvents framing start)) := by
    intro framing haccepted hfits hend
    refine ⟨before, block, haccepted, hfits, ?_⟩
    rw [hend, List.map_nil, List.append_nil]
  right
  refine ⟨head, start, framing, [], ?_⟩
  cases framing with
  | protocolSwitch => exact hwhole _ h rfl rfl
  | chunked => exact absurd hrests (not_rests_body rfl)
  | untilEnd => exact absurd hrests (not_rests_body rfl)
  | length n =>
    cases n with
    | zero => exact hwhole _ h rfl rfl
    | succ n => exact absurd hrests (not_rests_body rfl)

/-- **A step that comes to rest has reported a whole message**, unless nothing was reported. -/
theorem StepTo.restsBehind (h : r.StepTo input p) (hsound : r.state.Sound r.limits)
    (hopen : r.LeavesOpen events) (hbehind : r.RestsBehind events) :
    p.reader.RestsBehind (events ++ p.events) := by
  cases h with
  | failed error hevents =>
    rintro (hidle | hswitched)
    · cases hidle
    · cases hswitched
  | skipped n hstate =>
    intro _
    have hrests : r.state.Rests := .inl hstate
    exact (List.append_nil events).symm ▸ hbehind hrests
  | stopped hstate =>
    intro _
    have hrests : r.state.Rests := .inr hstate
    exact (List.append_nil events).symm ▸ hbehind hrests
  | waited buffer n hstate hbuffer =>
    rintro (hidle | hswitched)
    · injection hidle with hnil
      exact absurd hnil hbuffer
    · cases hswitched
  | opened head start framing n hstate hkind hstart hframing hparse hcount hfits =>
    obtain ⟨before, hevents⟩ := hopen.opened hstate head start framing
    have hafter := restsBehind_afterHead
      (accepted_of_opened (hparse hsound) hstart hframing hfits) before
    rw [← hevents] at hafter
    exact hafter
  | read pieces body n hstate => exact fun hrests => absurd hrests (not_rests_body rfl)
  | completed pieces n hstate hpieces hcount hlength hfits =>
    intro _
    right
    rw [LeavesOpen, hstate] at hopen
    obtain ⟨head, front, before, block, haccepted, rfl⟩ := hopen
    refine ⟨head, r.start, _, front ++ pieces, before, block, haccepted, hfits front, ?_⟩
    rw [List.map_append]
    simp only [List.append_assoc, complete, moveTo]

/-- **And so has a run** from between messages. -/
theorem consume_restsBehind (hidle : r.state = .idle) (input : Bytes) :
    (r.consume input).reader.RestsBehind (r.consume input).events := by
  have hstart : r.state.Sound r.limits ∧ r.LeavesOpen [] ∧ r.RestsBehind [] := by
    rw [LeavesOpen, hidle]
    exact ⟨State.sound_idle _, .inl rfl, fun _ => .inl rfl⟩
  have hkeeps := consume_keeps_reported
    (fun r events => r.state.Sound r.limits ∧ r.LeavesOpen events ∧ r.RestsBehind events)
    (fun r events input _ hr => ?_) [] hstart input
  · exact hkeeps.2.2
  · have hstep := step_stepTo r input
    exact ⟨hstep.sound hr.1, hstep.leavesOpen hr.1 hr.2.1, hstep.restsBehind hr.1 hr.2.1 hr.2.2⟩

section
variable {m : Message} (hidle : r.state = .idle) (hm : m.phase = .awaitingMessage)
  (h : ((r.consume input).events.foldl Message.receive m).answer (r.consume input).result
    input.length = .ok .complete)
include hidle hm h

/-- **A run that is answered with a complete message** has taken all that came, and the reader
rests. -/
theorem rests_of_complete :
    (∃ n, (r.consume input).result = .ok n ∧ input.length ≤ n) ∧
      (r.consume input).reader.state.Rests := by
  obtain ⟨n, hok, hwhole⟩ := Message.whole_of_answer h
  refine ⟨⟨n, hok, hwhole⟩, ?_⟩
  have hshows : r.state.Shows m.phase := by
    rw [hidle]
    exact .inl hm
  have hafter := consume_shows hshows input
  rw [(Message.complete_of_answer h).1] at hafter
  refine hafter.rests (consume_ne_failed (fun error => ?_) hok)
  rw [hidle]
  rintro ⟨⟩

/-- **It has reported a whole message last.** -/
theorem completes_of_complete :
    ∃ head start framing pieces,
      Completes kind r.limits head start framing pieces (r.consume input).events := by
  rcases consume_restsBehind hidle input (rests_of_complete hidle hm h).2 with hnone | hlast
  · -- Nothing has come, so nothing is complete.
    rw [hnone] at h
    have hphase := (Message.complete_of_answer h).1
    rw [List.foldl_nil, hm] at hphase
    cases hphase
  · rwa [limits_consume] at hlast

end

/-- **What is received is the message that came last.** -/
theorem Completes.foldl_receive {limits : Limits} {head : Head} {start : Start} {framing : Framing}
    {pieces : List Bytes} (h : Completes kind limits head start framing pieces events)
    (m : Message) :
    ∃ pendingName, events.foldl Message.receive m =
      { headers := .insertFields {} head.fields
        body := pieces.flatten.toArray
        phase := .complete
        pendingName } := by
  obtain ⟨before, block, -, -, rfl⟩ := h
  rw [List.foldl_append]
  exact Message.foldl_receive_whole _ head start pieces

/-- Nothing of what was there before is left. -/
theorem Completes.foldl_receive_congr {limits : Limits} {head : Head} {start : Start}
    {framing : Framing} {pieces : List Bytes}
    (h : Completes kind limits head start framing pieces events) (m m' : Message) :
    events.foldl Message.receive m = events.foldl Message.receive m' := by
  obtain ⟨before, block, -, -, rfl⟩ := h
  simp only [openEvents, List.foldl_append, List.foldl_cons, List.foldl_nil, Message.receive]

/-! ## How much of a body is received -/

/-- The beginning of a message empties the body. -/
theorem body_foldl_opening (r : Reader kind) (m : Message) :
    (r.opening.foldl Message.receive m).body = if r.state = .idle then #[] else m.body := by
  rw [opening]
  split
  · rfl
  · rfl

/-- Its head leaves the body alone. -/
theorem body_foldl_opened (r : Reader kind) (m : Message) (head : Head) (start : Start)
    (framing : Framing) :
    ((r.opening ++ headEvents head ++ Event.headersComplete start ::
        if (State.afterHead framing).inBody then [] else [Event.messageComplete start]).foldl
      Message.receive m).body = if r.state = .idle then #[] else m.body := by
  obtain ⟨pendingName, hhead⟩ :=
    Message.foldl_receive_headEvents (r.opening.foldl Message.receive m) head
  rw [← body_foldl_opening, List.foldl_append, List.foldl_append, hhead]
  split
  · rfl
  · rfl

theorem size_foldl_pieces (m : Message) (pieces : List Bytes) :
    ((pieces.map Event.body).foldl Message.receive m).body.size =
      m.body.size + pieces.flatten.length := by
  rw [Message.foldl_receive_pieces, ← Array.length_toList, Array.toList_appendList,
    List.length_append, Array.length_toList]

/-- **No step adds more to the body than it consumes.** -/
theorem StepTo.body_le (h : r.StepTo input p) {n : Nat} (hok : p.result = .ok n) (m : Message) :
    (p.events.foldl Message.receive m).body.size ≤ m.body.size + n := by
  have hopening : (if r.state = .idle then #[] else m.body).size ≤ m.body.size := by
    split
    · exact Nat.zero_le _
    · exact Nat.le_refl _
  cases h with
  | failed error hevents => cases hok
  | skipped n hstate => exact Nat.le_add_right _ _
  | stopped hstate => exact Nat.le_add_right _ _
  | waited buffer n hstate =>
    show (r.opening.foldl Message.receive m).body.size ≤ _
    rw [body_foldl_opening]
    omega
  | opened head start framing n hstate =>
    unfold moveTo
    rw [body_foldl_opened]
    omega
  | read pieces body n hstate hbody hpieces hcount hlength =>
    cases hok
    show ((pieces.map Event.body).foldl Message.receive m).body.size ≤ _
    rw [size_foldl_pieces]
    omega
  | completed pieces n hstate hpieces hcount hlength =>
    cases hok
    unfold complete moveTo
    rw [List.foldl_append]
    show ((pieces.map Event.body).foldl Message.receive m).body.size ≤ _
    rw [size_foldl_pieces]
    omega

/-- Between messages a step reports nothing, or a message begins. -/
theorem StepTo.nothing_or_begins (h : r.StepTo input p) (hidle : r.state = .idle) {n : Nat}
    (hok : p.result = .ok n) (m : Message) :
    p.events = [] ∧ p.reader.state = .idle ∨ (p.events.foldl Message.receive m).body = #[] := by
  cases h with
  | failed error hevents => cases hok
  | skipped n hstate => exact .inl ⟨rfl, rfl⟩
  | waited buffer n hstate =>
    right
    show (r.opening.foldl Message.receive m).body = #[]
    rw [body_foldl_opening, if_pos hidle]
  | opened head start framing n hstate =>
    right
    unfold moveTo
    rw [body_foldl_opened, if_pos hidle]
  | read pieces body n hstate =>
    rw [hidle] at hstate
    cases hstate
  | completed pieces n hstate =>
    rw [hidle] at hstate
    cases hstate
  | stopped hstate =>
    rw [hidle] at hstate
    cases hstate

/-- Nor does a run. -/
theorem consume_body_le {n : Nat} (hok : (r.consume input).result = .ok n) (m : Message) :
    ((r.consume input).events.foldl Message.receive m).body.size ≤ m.body.size + n := by
  induction r, input using consume_induction generalizing n m with
  | nil r =>
    rw [consume_nil]
    exact Nat.le_add_right _ _
  | last r b rest hlast =>
    rw [consume_of_last hlast] at hok ⊢
    exact (step_stepTo r (b :: rest)).body_le hok m
  | more r b rest k hk ih =>
    rw [consume_of_ok hk, Progress.andThen_of_ok hk] at hok ⊢
    have hfirst := (step_stepTo r (b :: rest)).body_le hk m
    cases hlater : ((r.step (b :: rest)).reader.consume (rest.drop k)).result with
    | error error =>
      rw [hlater] at hok
      cases hok
    | ok j =>
      rw [hlater] at hok
      cases hok
      have hrest := ih hlater ((r.step (b :: rest)).events.foldl Message.receive m)
      show _ ≤ m.body.size + (k + 1 + j)
      rw [List.foldl_append]
      omega

/-- **A run from between messages receives less than it consumes**, if it reports anything: the
message that it receives has a head. -/
theorem consume_body_lt (hidle : r.state = .idle) {n : Nat}
    (hok : (r.consume input).result = .ok n) (hsome : (r.consume input).events ≠ [])
    (m : Message) : ((r.consume input).events.foldl Message.receive m).body.size < n := by
  induction r, input using consume_induction generalizing n with
  | nil r => exact absurd (congrArg Progress.events (consume_nil r)) hsome
  | last r b rest hlast =>
    rw [consume_of_last hlast] at hok hsome ⊢
    have hpos := (step_stepTo r (b :: rest)).count (sound_of_idle hidle)
      (by rw [hidle]; rintro ⟨⟩) (List.cons_ne_nil b rest) hok
    obtain ⟨k, rfl⟩ : ∃ k, n = k + 1 := ⟨n - 1, by omega⟩
    exact absurd hok (hlast k)
  | more r b rest k hk ih =>
    rw [consume_of_ok hk, Progress.andThen_of_ok hk] at hok hsome ⊢
    cases hlater : ((r.step (b :: rest)).reader.consume (rest.drop k)).result with
    | error error =>
      rw [hlater] at hok
      cases hok
    | ok j =>
      rw [hlater] at hok
      cases hok
      show _ < k + 1 + j
      rw [List.foldl_append]
      rcases (step_stepTo r (b :: rest)).nothing_or_begins hidle hk m with
        ⟨hnothing, hstays⟩ | hempty
      · rw [hnothing] at hsome ⊢
        have hless := ih hstays hlater hsome
        rw [List.foldl_nil]
        omega
      · have hrest := consume_body_le hlater ((r.step (b :: rest)).events.foldl Message.receive m)
        rw [hempty, Array.size_empty] at hrest
        omega

end HttpWire.Reader
