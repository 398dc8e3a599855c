import HttpWire.Proofs.Reader.Protocol
/-!
# Messages begun and messages completed

A report balances when it has completed every message that it has begun. Inside a message one more
has begun than has been completed; between messages, and behind a switch of protocols, the report
balances. So the two numbers tell where a reader is that has not failed.
-/

namespace HttpWire

namespace Event

/-- Whether a message is over with this event. -/
def isEnd : Event → Bool
  | .messageComplete _ => true
  | _ => false

/-- How many messages have begun. -/
def begun (events : List Event) : Nat := events.count .messageBegin

/-- How many messages have been completed. -/
def completed (events : List Event) : Nat := events.countP isEnd

theorem begun_append (events events' : List Event) :
    begun (events ++ events') = begun events + begun events' := List.count_append

theorem completed_append (events events' : List Event) :
    completed (events ++ events') = completed events + completed events' := List.countP_append

/-- How bodies are cut makes no difference to how many events there are of another kind. -/
theorem countP_joinBodies {p : Event → Bool} (hp : ∀ piece, p (.body piece) = false)
    (events : List Event) : (joinBodies events).countP p = events.countP p := by
  have hpush : ∀ event joined, (push event joined).countP p = (event :: joined).countP p := by
    intro event joined
    cases event with
    | body piece =>
      cases joined with
      | nil => rfl
      | cons next joined => cases next <;> simp [push, hp]
    | _ => rfl
  induction events with
  | nil => rfl
  | cons event events ih =>
    rw [joinBodies, List.foldr_cons, hpush, List.countP_cons, List.countP_cons, ← ih, joinBodies]

theorem begun_joinBodies (events : List Event) : begun (joinBodies events) = begun events :=
  countP_joinBodies (fun _ => rfl) events

theorem completed_joinBodies (events : List Event) :
    completed (joinBodies events) = completed events :=
  countP_joinBodies (fun _ => rfl) events

/-- The pieces of a body neither begin nor complete anything. -/
theorem balance_pieces (pieces : List Bytes) :
    begun (pieces.map body) = 0 ∧ completed (pieces.map body) = 0 := by
  induction pieces with
  | nil => exact ⟨rfl, rfl⟩
  | cons piece pieces ih =>
    obtain ⟨hbegun, hcompleted⟩ := ih
    simp only [begun, completed, List.map_cons, List.count_cons, List.countP_cons] at *
    exact ⟨by simpa using hbegun, by simp [isEnd, hcompleted]⟩

/-- Nor do the fields of a head. -/
theorem balance_fields {fields : List Event} (h : Reader.FieldsPart fields) :
    begun fields = 0 ∧ completed fields = 0 := by
  induction h with
  | none => exact ⟨rfl, rfl⟩
  | more name value hlater ih =>
    obtain ⟨hbegun, hcompleted⟩ := ih
    simp only [begun, completed, List.count_cons, List.countP_cons] at *
    exact ⟨by simpa using hbegun, by simp [isEnd, hcompleted]⟩

end Event

namespace Reader

open Event

variable {kind : Kind}

/-! ## Whole messages -/

theorem OpenMessage.balance {start : Start} {opened : List Event}
    (h : OpenMessage kind start opened) : begun opened = 1 ∧ completed opened = 0 := by
  cases h with
  | intro htarget hfields start pieces hpieces =>
    obtain ⟨hbegun, hcompleted⟩ := balance_fields hfields
    obtain ⟨hbegun', hcompleted'⟩ := balance_pieces pieces
    simp only [begun_append, completed_append, hbegun, hbegun', hcompleted, hcompleted']
    cases htarget with
    | request bytes => exact ⟨rfl, rfl⟩
    | response => exact ⟨rfl, rfl⟩

theorem IsMessage.balance {message : List Event} (h : IsMessage kind message) :
    begun message = 1 ∧ completed message = 1 := by
  obtain ⟨start, opened, hopen, rfl⟩ := h
  obtain ⟨hbegun, hcompleted⟩ := hopen.balance
  rw [begun_append, completed_append, hbegun, hcompleted]
  exact ⟨rfl, rfl⟩

theorem IsWord.balance {word : List Event} (h : IsWord kind word) : begun word = completed word := by
  obtain ⟨messages, hmessages, rfl⟩ := h
  induction messages with
  | nil => rfl
  | cons message messages ih =>
    obtain ⟨hbegun, hcompleted⟩ := (hmessages message (by simp)).balance
    have hlater := ih fun later hmem => hmessages later (by simp [hmem])
    rw [List.flatten_cons, begun_append, completed_append, hbegun, hcompleted, hlater]

/-- A word in which nothing begins is empty. -/
theorem IsWord.eq_nil {word : List Event} (h : IsWord kind word) (hnone : begun word = 0) :
    word = [] := by
  obtain ⟨messages, hmessages, rfl⟩ := h
  cases messages with
  | nil => rfl
  | cons message messages =>
    have hone := (hmessages message (by simp)).balance.1
    rw [List.flatten_cons, begun_append] at hnone
    omega

/-! ## Where the reader is -/

/-- Whether a reader is between messages or behind a switch of protocols. -/
def State.Rests (state : State) : Prop := state = .idle ∨ state = .switched

/-- A reader that has not failed is inside a message or rests. -/
theorem State.inMessage_or_rests {state : State} (hgoing : ∀ error, state ≠ .failed error) :
    state.InMessage ∨ state.Rests := by
  cases state with
  | failed error => exact absurd rfl (hgoing error)
  | switched => exact .inr (.inr rfl)
  | body body => exact .inl trivial
  | head buffer =>
    by_cases hbuffer : buffer = #[]
    · rw [hbuffer]
      exact .inr (.inl rfl)
    · exact .inl hbuffer

section
variable {r : Reader kind} {events : List Event}

theorem Reported.balance_inMessage {part : List Event} (h : r.Reported part)
    (hinside : r.state.InMessage) : begun part = 1 ∧ completed part = 0 := by
  cases hstate : r.state with
  | body body => exact (h.of_body hstate).balance
  | head buffer =>
    rw [hstate] at hinside
    rw [Reported, hstate] at h
    dsimp only at h
    rw [if_neg hinside] at h
    rw [h]
    exact ⟨rfl, rfl⟩
  | switched =>
    rw [hstate] at hinside
    exact hinside.elim
  | failed error =>
    rw [hstate] at hinside
    exact hinside.elim

theorem Reported.eq_nil {part : List Event} (h : r.Reported part) (hrests : r.state.Rests) :
    part = [] := by
  rcases hrests with hstate | hstate
  · rw [Reported, hstate] at h
    exact h
  · rw [Reported, hstate] at h
    exact h

/-- **Inside a message one more has begun than has been completed.** -/
theorem Follows.begun_inMessage (h : r.Follows events) (hinside : r.state.InMessage) :
    begun events = completed events + 1 := by
  obtain ⟨word, part, hword, hpart, rfl⟩ := h
  obtain ⟨hbegun, hcompleted⟩ := hpart.balance_inMessage hinside
  rw [begun_append, completed_append, hword.balance, hbegun, hcompleted]

/-- **A reader that rests has completed what it has begun.** -/
theorem Follows.begun_rests (h : r.Follows events) (hrests : r.state.Rests) :
    begun events = completed events := by
  obtain ⟨word, part, hword, hpart, rfl⟩ := h
  rw [hpart.eq_nil hrests, List.append_nil, hword.balance]

/-- So the numbers tell where a reader is that has not failed. -/
theorem Follows.balanced_iff (h : r.Follows events) (hgoing : ∀ error, r.state ≠ .failed error) :
    completed events = begun events ↔ r.state.Rests := by
  constructor
  · intro hbalanced
    rcases State.inMessage_or_rests hgoing with hinside | hrests
    · have hmore := h.begun_inMessage hinside
      omega
    · exact hrests
  · intro hrests
    exact (h.begun_rests hrests).symm

/-- Nothing is reported before a message begins. -/
theorem Follows.begun_eq_zero_iff (h : r.Follows events)
    (hgoing : ∀ error, r.state ≠ .failed error) : begun events = 0 ↔ events = [] := by
  constructor
  · intro hnone
    rcases State.inMessage_or_rests hgoing with hinside | hrests
    · have hmore := h.begun_inMessage hinside
      omega
    · obtain ⟨word, part, hword, hpart, rfl⟩ := h
      rw [hpart.eq_nil hrests, List.append_nil] at hnone ⊢
      exact hword.eq_nil hnone
  · rintro rfl
    rfl

end

/-! ## Calls -/

/-- Whatever has been reported, one more call leaves it in accord with the reader. -/
theorem feed_follows {r : Reader kind} (hsound : r.state.Sound r.limits) {events : List Event}
    (h : r.Follows events) (input : Bytes) :
    (r.feed input).reader.Follows (events ++ (r.feed input).events) := by
  have hkeeps := feed_keeps (fun r events => r.state.Sound r.limits ∧ r.Follows events)
    (fun r events input hinput hr => ?_) (fun r events hr => ?_) events ⟨hsound, h⟩ input
  · exact hkeeps.2
  · have hstep := step_stepTo r input
    exact ⟨hstep.sound hr.1, hr.2.extend fun part hpart => hstep.follows hr.1 hinput hpart⟩
  · have hfinish := finish_finishTo r
    exact ⟨hfinish.sound, hr.2.extend fun part hpart => hfinish.follows hpart⟩

theorem FinishTo.ne_failed {r : Reader kind} {p : Progress kind} (h : r.FinishTo p) {n : Nat}
    (hok : p.result = .ok n) (error : Error) : p.reader.state ≠ .failed error := by
  cases h with
  | cutOff hinside => cases hok
  | failed error' hstate => cases hok
  | _ => rintro ⟨⟩

/-- A call that succeeds leaves a reader that has not failed. -/
theorem feed_ne_failed {r : Reader kind} (hr : ∀ error, r.state ≠ .failed error) {input : Bytes}
    {n : Nat} (hok : (r.feed input).result = .ok n) :
    ∀ error, (r.feed input).reader.state ≠ .failed error := by
  by_cases hempty : input = []
  · subst hempty
    exact (finish_finishTo r).ne_failed hok
  · rw [feed_of_ne_nil hempty] at hok ⊢
    exact consume_ne_failed hr hok

/-- So do calls of which none fails. -/
theorem feedAll_ne_failed {r : Reader kind} (hr : ∀ error, r.state ≠ .failed error)
    {inputs : List Bytes} (hok : ∀ error, .error error ∉ (r.feedAll inputs).results) :
    ∀ error, (r.feedAll inputs).reader.state ≠ .failed error := by
  induction inputs generalizing r with
  | nil => exact hr
  | cons input inputs ih =>
    cases hfirst : (r.feed input).result with
    | error error =>
      refine absurd ?_ (hok error)
      rw [feedAll]
      dsimp only
      rw [hfirst]
      exact List.mem_cons_self
    | ok n =>
      refine ih (feed_ne_failed hr hfirst) fun error hmem => hok error ?_
      exact List.mem_cons_of_mem _ hmem

end Reader

end HttpWire
