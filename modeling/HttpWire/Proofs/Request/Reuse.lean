import HttpWire.Proofs.Message
import HttpWire.Proofs.Reader.Reuse
import HttpWire.Proofs.Request.Receive
import HttpWire.Proofs.Text.Utf8
import Mathlib.Control.Monad.Basic
/-!
# Requests that are used again

A request into which a message has been received takes the next one in like a new request: with
the same answer, method, fields and body. The URL is the one exception. A target that is no URL
is ignored, so the URL of the message before stays until another target takes its place.
-/

namespace HttpWire.Request

/-- Whether one of the targets among some events is a URL. -/
def HasUrl (events : List Event) : Prop := ∃ target, .target target ∈ events ∧ IsUrl target

/-! ## The same events into two requests -/

/-- The message that begins takes the place of the one before. -/
theorem message_foldl_begin (r s : Request) (events : List Event) :
    ((.messageBegin :: events).foldl receive r).message =
      ((.messageBegin :: events).foldl receive s).message := by
  rw [message_foldl_receive, message_foldl_receive]
  rfl

theorem url_foldl_begin {events : List Event} (h : HasUrl (.messageBegin :: events))
    (r s : Request) :
    ((.messageBegin :: events).foldl receive r).url =
      ((.messageBegin :: events).foldl receive s).url := by
  obtain ⟨target, hmem, hurl⟩ := h
  have hbehind : .target target ∈ events := by simpa using hmem
  rw [List.foldl_cons, List.foldl_cons]
  exact url_foldl_receive hbehind hurl rfl

theorem url_foldl_begin_of_not_hasUrl {events : List Event}
    (h : ¬ HasUrl (.messageBegin :: events)) :
    ∃ userinfo?, ∀ r : Request, ((.messageBegin :: events).foldl receive r).url =
      { r.url with userinfo? := Option.or userinfo? r.url.userinfo? } := by
  have hnone : ∀ target, .target target ∈ events → ¬ IsUrl target :=
    fun target hmem hurl => h ⟨target, List.mem_cons_of_mem _ hmem, hurl⟩
  obtain ⟨userinfo?, hevents⟩ := url_foldl_receive_of_not_isUrl hnone { phase := .inHeaders }
  refine ⟨userinfo?, fun r => ?_⟩
  rw [List.foldl_cons]
  exact hevents (r.receive .messageBegin) rfl

/-! ## Between messages -/

/-- A request that has parsed complete messages is between messages. -/
theorem idle_of_parse {limits : Limits} {v : Bytes} {previous : Request}
    (h : (withLimits limits).parse v = (previous, .ok .complete))
    (hswitched : previous.reader.isSwitched = false) :
    previous.reader.state = .idle ∧ previous.reader.limits = limits := by
  rw [parse_eq] at h
  injection h with hprevious hanswer
  subst hprevious
  obtain ⟨hphase, n, hok⟩ := Message.complete_of_answer hanswer
  rw [message_foldl_receive] at hphase
  rw [reader_foldl_receive] at hswitched ⊢
  exact Reader.feed_idle rfl (.inl rfl) hok hphase hswitched

/-- If a new request is complete after some input, then a message began in it and was
completed. -/
theorem events_of_parse {limits : Limits} {w : Bytes} {fresh : Request}
    (h : (withLimits limits).parse w = (fresh, .ok .complete)) :
    ∃ events start, (({ limits } : Reader .request).feed w).events = .messageBegin :: events ∧
      .messageComplete start ∈ .messageBegin :: events := by
  rw [parse_eq] at h
  injection h with hfresh hanswer
  subst hfresh
  obtain ⟨hphase, -⟩ := Message.complete_of_answer hanswer
  rw [message_foldl_receive] at hphase
  have hcomplete : ∃ start, .messageComplete start ∈
      (({ limits } : Reader .request).feed w).events :=
    (Reader.complete_of_phase hphase).resolve_left (by rintro ⟨⟩)
  obtain ⟨start, hmem⟩ := hcomplete
  -- With no events at all the message would still be awaited.
  have hidle : ({ limits } : Reader .request).state = .idle := rfl
  rcases Reader.feed_begins hidle w with hnone | ⟨events, hevents⟩
  · rw [hnone] at hmem
    cases hmem
  · rw [← hevents] at hmem
    exact ⟨events, start, hevents.symm, hmem⟩

/-- What a request takes in between messages, against what a new one takes in from the same
input. -/
theorem parse_of_idle {r fresh : Request} {w : Bytes} (hidle : r.reader.state = .idle)
    (hfresh : (withLimits r.reader.limits).parse w = (fresh, .ok .complete)) :
    let events := (({ limits := r.reader.limits } : Reader .request).feed w).events
    ∃ reused, r.parse w = (reused, .ok .complete) ∧
      reused.method? = fresh.method? ∧ reused.message = fresh.message ∧
      (HasUrl events → reused.url = fresh.url) ∧
      (¬ HasUrl events →
        reused.url = { r.url with userinfo? := fresh.url.userinfo?.or r.url.userinfo? } ∧
          fresh.url = { userinfo? := fresh.url.userinfo? }) := by
  intro events
  have hnew : (withLimits r.reader.limits).reader = { limits := r.reader.limits } := rfl
  -- The readers are alike, so both requests receive the same events.
  have halike := (Reader.alike_of_idle hidle).feed w
  obtain ⟨post, start, hpost, hmem⟩ := events_of_parse hfresh
  have hevents : events = .messageBegin :: post := hpost
  rw [parse_eq] at hfresh ⊢
  dsimp only at hfresh ⊢
  rw [hnew, hpost] at hfresh
  rw [halike.events, halike.result, hpost, hevents]
  injection hfresh with hreceived hanswer
  subst hreceived
  refine ⟨_, congrArg (_, ·) ?_, method?_foldl_receive hmem _ _, message_foldl_begin _ _ _,
    fun hurl => url_foldl_begin hurl _ _, fun hurl => ?_⟩
  · rw [← hanswer]
    exact congrArg (fun m : Message => m.answer _ w.length) (message_foldl_begin _ _ post)
  · obtain ⟨userinfo?, hurls⟩ := url_foldl_begin_of_not_hasUrl hurl
    rw [hurls, hurls]
    simp [withLimits]

/-- **A request that is used again.** Whatever complete messages a request has parsed without a
switch of protocols, it parses complete messages `w` as a new request with the same limits does,
and has the same method, fields and body afterwards. If some target in `w` is a URL, then the URL
is the same in all its components too. If none is, then the URL of the messages before is still
there, with user information from `w` if there is any in it; and that is all that a new request
has of a URL. -/
theorem parse_reused {limits : Limits} {v w : Bytes} {previous fresh : Request}
    (hprevious : (withLimits limits).parse v = (previous, .ok .complete))
    (hswitched : previous.reader.isSwitched = false)
    (hfresh : (withLimits limits).parse w = (fresh, .ok .complete)) :
    let events := (({ limits } : Reader .request).feed w).events
    ∃ reused, previous.parse w = (reused, .ok .complete) ∧
      reused.method? = fresh.method? ∧
      reused.message.headers = fresh.message.headers ∧
      reused.message.body = fresh.message.body ∧
      (HasUrl events → reused.url = fresh.url) ∧
      (¬ HasUrl events →
        reused.url =
          { previous.url with userinfo? := fresh.url.userinfo?.or previous.url.userinfo? } ∧
        fresh.url = { userinfo? := fresh.url.userinfo? }) := by
  intro events
  obtain ⟨hidle, hlimits⟩ := idle_of_parse hprevious hswitched
  subst hlimits
  obtain ⟨reused, hparse, hmethod, hmessage, hurl⟩ := parse_of_idle hidle hfresh
  refine ⟨reused, hparse, hmethod, ?_, ?_, hurl⟩
  · rw [hmessage]
  · rw [hmessage]

/-- A request with a query and credentials. -/
def secretRequest : Bytes :=
  Utf8.encode "GET /secret?x=1 HTTP/1.1\r\nAuthorization: Basic dTpw\r\n\r\n"

/-- What a new request is after that one. -/
def secretReceived : Request where
  method? := some .get
  url :=
    { path? := some "/secret"
      userinfo? := some "u:p"
      params := ⟨[("x", "1")], by decide⟩ }
  message :=
    { headers := ⟨⟨[("Authorization", some "Basic dTpw")], by decide⟩⟩
      phase := .complete
      pendingName := Utf8.encode "Authorization" }
  reader := { start := { method := some .get, version := 1 } }

theorem parse_secretRequest :
    (withLimits {}).parse secretRequest = (secretReceived, .ok .complete) := by decide +kernel

/-- A request whose target is no URL. -/
def relativeRequest : Bytes := Utf8.encode "GET foo HTTP/1.1\r\n\r\n"

/-- What a request with this URL is after that one. -/
def relativeReceived (url : Url) : Request where
  method? := some .get
  url
  message := { phase := .complete }
  reader := { start := { method := some .get, version := 1 } }

/-- A request whose target is a URL. -/
def postRequest : Bytes :=
  Utf8.encode "POST /next HTTP/1.1\r\nContent-Length: 1\r\n\r\nz"

theorem postRequest_reused :
    ((withLimits {}).parse secretRequest = (secretReceived, .ok .complete) ∧
      secretReceived.reader.isSwitched = false ∧
      HasUrl (({} : Reader .request).feed (relativeRequest ++ postRequest)).events) ∧
    ∃ fresh reused,
      (withLimits {}).parse (relativeRequest ++ postRequest) = (fresh, .ok .complete) ∧
      secretReceived.parse (relativeRequest ++ postRequest) = (reused, .ok .complete) ∧
      reused.method? = some .post ∧ reused.message.body = #[0x7A] ∧
      reused.url = { path? := some "/next" } := by
  have hswitched : secretReceived.reader.isSwitched = false := by decide
  have hurl : HasUrl (({} : Reader .request).feed (relativeRequest ++ postRequest)).events := by
    refine ⟨Utf8.encode "/next", ?_, "/next", Utf8.decode?_encode _, { path? := some "/next" }, rfl⟩
    decide +kernel
  have hfresh : (withLimits {}).parse (relativeRequest ++ postRequest) =
      ({ method? := some .post
         url := { path? := some "/next" }
         message :=
          { headers := ⟨⟨[("Content-Length", some "1")], by decide⟩⟩
            body := #[0x7A]
            phase := .complete
            pendingName := Utf8.encode "Content-Length" }
         reader := { start := { method := some .post, version := 1 } } }, .ok .complete) := by
    decide +kernel
  obtain ⟨reused, hparse, hmethod, -, hbody, hsame, -⟩ :=
    parse_reused parse_secretRequest hswitched hfresh
  exact ⟨⟨parse_secretRequest, hswitched, hurl⟩, _, reused, hfresh, hparse, hmethod, hbody,
    hsame hurl⟩

/-- A target that is no URL leaves the URL of the request before in place, with the query and
the credentials of that request. -/
theorem leftover_url :
    ∃ fresh reused,
      (withLimits {}).parse secretRequest = (secretReceived, .ok .complete) ∧
      secretReceived.reader.isSwitched = false ∧
      (withLimits {}).parse relativeRequest = (fresh, .ok .complete) ∧
      secretReceived.parse relativeRequest = (reused, .ok .complete) ∧
      reused.url = secretReceived.url ∧ fresh.url = {} ∧ reused.url ≠ fresh.url := by
  have hfresh : (withLimits {}).parse relativeRequest = (relativeReceived {}, .ok .complete) := by
    decide +kernel
  have hreused : secretReceived.parse relativeRequest =
      (relativeReceived secretReceived.url, .ok .complete) := by
    decide +kernel
  refine ⟨_, _, parse_secretRequest, by decide, hfresh, hreused, rfl, rfl, ?_⟩
  show secretReceived.url ≠ {}
  decide

end HttpWire.Request
