import HttpWire.Proofs.Receiver
import HttpWire.Request
/-!
# Receiving

What the parts of a request owe to the events that are received, and what to the request that
they are received into. The message fills up on its own, the method is that of the last complete
message, and a target that is a URL takes the place of the URL before it. Other targets leave it
alone, so that then only the user information can change.
-/

namespace HttpWire.Request

theorem parse_eq (r : Request) (input : Bytes) :
    r.parse input =
      let progress := r.reader.feed input
      let received := progress.events.foldl receive { r with reader := progress.reader }
      (received, received.message.answer progress.result input.length) := by
  obtain ⟨method?, url, message, reader⟩ := r
  rfl

/-! ## Message and method -/

theorem message_receive (r : Request) (event : Event) :
    (r.receive event).message = r.message.receive event := by
  cases event <;> rfl

/-- Requests are receivers. -/
def receiver : Receiver .request Request where
  message := message
  reader := reader
  withReader r reader := { r with reader }
  receive := receive
  parse := parse
  message_receive := message_receive
  reader_receive r event := by cases event <;> rfl
  withReader_receive r event new := by cases event <;> rfl
  receive_body r a b := congrArg (fun message => { r with message }) (r.message.receive_body a b)
  message_withReader _ _ := rfl
  reader_withReader _ _ := rfl
  withReader_reader _ := rfl
  withReader_withReader _ _ _ := rfl
  parse_eq := parse_eq

theorem message_foldl_receive (r : Request) (events : List Event) :
    (events.foldl receive r).message = events.foldl Message.receive r.message :=
  receiver.message_foldl r events

theorem reader_foldl_receive (r : Request) (events : List Event) :
    (events.foldl receive r).reader = r.reader :=
  receiver.reader_foldl r events

/-- Parses the pieces of a stream in turn. No error keeps the later pieces back. -/
def parseAll (r : Request) (pieces : List Bytes) : Request × List (Except Error Receipt) :=
  receiver.parseAll r pieces

/-- Once a message is complete, the method does not depend on what was there before. -/
theorem method?_foldl_receive {events : List Event} {start : Start}
    (h : .messageComplete start ∈ events) (r s : Request) :
    (events.foldl receive r).method? = (events.foldl receive s).method? := by
  obtain ⟨before, after, rfl⟩ := List.append_of_mem h
  rw [List.foldl_append, List.foldl_append, List.foldl_cons, List.foldl_cons]
  refine List.foldl_rel (r := fun r s : Request => r.method? = s.method?) rfl ?_
  intro event _ r s hsame
  cases event with
  | messageComplete start => rfl
  | _ => exact hsame

/-! ## URL -/

/-- Whether a target is text and a URL. -/
def IsUrl (target : Bytes) : Prop :=
  ∃ text, Utf8.decode? target = some text ∧ ∃ url, Url.parse text = .ok url

theorem receiveTarget_of_isUrl {target : Bytes} (h : IsUrl target) (url url' : Url) :
    receiveTarget url target = receiveTarget url' target := by
  obtain ⟨text, htext, parsed, hparsed⟩ := h
  simp only [receiveTarget, htext, Url.replaceBy, hparsed]

theorem receiveTarget_of_not_isUrl {target : Bytes} (h : ¬ IsUrl target) (url : Url) :
    receiveTarget url target = url := by
  unfold receiveTarget
  cases htext : Utf8.decode? target with
  | none => rfl
  | some text =>
    dsimp only
    unfold Url.replaceBy
    cases hparse : Url.parse text with
    | error error => rfl
    | ok parsed => exact absurd ⟨text, htext, parsed, hparse⟩ h

/-- A field with credentials sets the user information, if they are readable. -/
theorem receiveField_eq (url : Url) (name value : String) :
    receiveField url name value =
      { url with
        userinfo? := Option.or
          (if sameName name Credentials.fieldName then Credentials.decode? value else none)
          url.userinfo? } := by
  unfold receiveField
  split
  · cases Credentials.decode? value with
    | none => rfl
    | some userinfo => rfl
  · rfl

/-- Requests that have the same message and URL keep that in common. -/
theorem receive_same {r s : Request} (h : r.message = s.message ∧ r.url = s.url) (event : Event) :
    (r.receive event).message = (s.receive event).message ∧
      (r.receive event).url = (s.receive event).url := by
  obtain ⟨hmessage, hurl⟩ := h
  refine ⟨by rw [message_receive, message_receive, hmessage], ?_⟩
  cases event with
  | target bytes => exact congrArg (receiveTarget · bytes) hurl
  | fieldValue value =>
    show receiveField r.url _ _ = receiveField s.url _ _
    rw [hmessage, hurl]
  | _ => exact hurl

/-- Once a target that is a URL has come, the URL does not depend on what was there before. -/
theorem url_foldl_receive {events : List Event} {target : Bytes} (h : .target target ∈ events)
    (hurl : IsUrl target) {r s : Request} (hsame : r.message = s.message) :
    (events.foldl receive r).url = (events.foldl receive s).url := by
  obtain ⟨before, after, rfl⟩ := List.append_of_mem h
  have hbefore : (before.foldl receive r).message = (before.foldl receive s).message := by
    rw [message_foldl_receive, message_foldl_receive, hsame]
  rw [List.foldl_append, List.foldl_append, List.foldl_cons, List.foldl_cons]
  refine (List.foldl_rel (r := fun r s : Request => r.message = s.message ∧ r.url = s.url) ?_
    fun event _ r s hrs => receive_same hrs event).2
  exact ⟨hbefore, receiveTarget_of_isUrl hurl _ _⟩

/-- An event that is no URL can change the user information only, to what it says. -/
theorem url_receive_of_not_isUrl {event : Event} (m : Message)
    (h : ∀ target, event = .target target → ¬ IsUrl target) :
    ∃ userinfo?, ∀ r : Request, r.message = m →
      (r.receive event).url = { r.url with userinfo? := Option.or userinfo? r.url.userinfo? } := by
  cases event with
  | target bytes =>
    exact ⟨none, fun r _ => receiveTarget_of_not_isUrl (h bytes rfl) r.url⟩
  | fieldValue value =>
    refine ⟨if sameName m.pendingField Credentials.fieldName then
      Credentials.decode? (Utf8.decodeLossy value) else none, fun r hr => ?_⟩
    subst hr
    exact receiveField_eq r.url r.message.pendingField (Utf8.decodeLossy value)
  | _ => exact ⟨none, fun r _ => rfl⟩

/-- As long as no target that is a URL comes, only the user information of the URL can change,
and what it changes to does not depend on the URL. -/
theorem url_foldl_receive_of_not_isUrl {events : List Event}
    (h : ∀ target, .target target ∈ events → ¬ IsUrl target) (m : Message) :
    ∃ userinfo?, ∀ r : Request, r.message = m →
      (events.foldl receive r).url =
        { r.url with userinfo? := Option.or userinfo? r.url.userinfo? } := by
  induction events generalizing m with
  | nil => exact ⟨none, fun r _ => rfl⟩
  | cons event events ih =>
    obtain ⟨first?, hfirst⟩ := url_receive_of_not_isUrl m fun target htarget =>
      h target (htarget ▸ List.mem_cons_self)
    obtain ⟨later?, hlater⟩ := ih (fun target hmem => h target (List.mem_cons_of_mem _ hmem))
      (m.receive event)
    refine ⟨later?.or first?, fun r hr => ?_⟩
    have hmessage : (r.receive event).message = m.receive event := by
      rw [message_receive, hr]
    rw [List.foldl_cons, hlater _ hmessage, hfirst r hr, Option.or_assoc]

/-! ## Whole messages -/

/-- Of the fields the URL hears one by one. -/
theorem url_foldl_receive_fields (r : Request) (fields : List Field) :
    ((fields.flatMap Reader.fieldEvents).foldl receive r).url =
      fields.foldl (fun url field => receiveField url field.toEntry.1 field.toEntry.2) r.url := by
  induction fields generalizing r with
  | nil => rfl
  | cons field fields ih =>
    have hfield : ((Reader.fieldEvents field).foldl receive r).url =
        receiveField r.url field.toEntry.1 field.toEntry.2 := rfl
    rw [List.flatMap_cons, List.foldl_append, ih, hfield, List.foldl_cons]

/-- A body has no meaning for it. -/
theorem url_foldl_receive_pieces (r : Request) (pieces : List Bytes) :
    ((pieces.map Event.body).foldl receive r).url = r.url := by
  induction pieces generalizing r with
  | nil => rfl
  | cons piece pieces ih =>
    rw [List.map_cons, List.foldl_cons, ih]
    rfl

/-- **What is received of a whole message**: what the message gets of it, the method, and what the
target and the fields make of the URL. -/
theorem foldl_receive_whole (r : Request) (method target : Bytes) (version : Nat)
    (fields : List Field) (start : Start) (pieces : List Bytes) :
    ∃ pendingName,
      (Reader.openEvents ⟨.request method target version, fields⟩ start ++
          pieces.map Event.body ++ [Event.messageComplete start]).foldl receive r =
        { r with
          method? := start.method
          url := fields.foldl (fun url field => receiveField url field.toEntry.1 field.toEntry.2)
            (receiveTarget r.url target)
          message :=
            { headers := .insertFields {} fields
              body := pieces.flatten.toArray
              phase := .complete
              pendingName } } := by
  obtain ⟨pendingName, hfilled⟩ := Message.foldl_receive_whole r.message
    ⟨.request method target version, fields⟩ start pieces
  refine ⟨pendingName, ?_⟩
  rw [← message_foldl_receive] at hfilled
  have hreader := reader_foldl_receive r (Reader.openEvents
    ⟨.request method target version, fields⟩ start ++ pieces.map Event.body ++
      [Event.messageComplete start])
  have hmethod : ((Reader.openEvents ⟨.request method target version, fields⟩ start ++
      pieces.map Event.body ++ [Event.messageComplete start]).foldl receive r).method? =
        start.method := by
    rw [List.foldl_append]
    rfl
  have hurl : ((Reader.openEvents ⟨.request method target version, fields⟩ start ++
      pieces.map Event.body ++ [Event.messageComplete start]).foldl receive r).url =
        fields.foldl (fun url field => receiveField url field.toEntry.1 field.toEntry.2)
          (receiveTarget r.url target) := by
    rw [Reader.openEvents, List.foldl_append, List.foldl_append, List.foldl_append,
      List.foldl_append]
    exact (url_foldl_receive_pieces _ pieces).trans (url_foldl_receive_fields _ fields)
  rw [← hmethod, ← hurl, ← hfilled, ← hreader]

end HttpWire.Request
