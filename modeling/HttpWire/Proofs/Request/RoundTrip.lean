import HttpWire.Proofs.Message.Receive
import HttpWire.Proofs.Request.Receive
import HttpWire.Proofs.Request.Written
/-!
# Requests read back

A request that is written and received again is the same request: the same method, target,
credentials, fields and body. The head is found by the grammar, the body by its length, and what
the reader reports of them builds the request up again piece by piece.
-/

namespace HttpWire.Request

open Headers (entries_foldl_insert)

/-! ## Receiving credentials -/

theorem receiveField_of_ne {name : String} (url : Url) (value : String)
    (h : sameName name Credentials.fieldName = false) : receiveField url name value = url := by
  rw [receiveField, if_neg (by simp [h])]

/-- Only fields of one name matter to the URL. -/
theorem foldl_receiveField (url : Url) (entries : List (String × String)) :
    entries.foldl (fun url entry => receiveField url entry.1 entry.2) url =
      (entries.filter fun entry => sameName entry.1 Credentials.fieldName).foldl
        (fun url entry => receiveField url entry.1 entry.2) url := by
  induction entries generalizing url with
  | nil => rfl
  | cons entry entries ih =>
    cases hname : sameName entry.1 Credentials.fieldName with
    | false =>
      rw [List.filter_cons_of_neg (by simp [hname]), List.foldl_cons,
        receiveField_of_ne url entry.2 hname, ih]
    | true =>
      have hfilter : (entry :: entries).filter
          (fun entry => sameName entry.1 Credentials.fieldName) =
            entry :: entries.filter fun entry => sameName entry.1 Credentials.fieldName :=
        List.filter_cons_of_pos hname
      rw [hfilter, List.foldl_cons, List.foldl_cons, ih]

/-- **Credentials come back into the URL** they were taken from. -/
theorem IsWritable.foldl_receiveField {r : Request} (h : r.IsWritable) {url : Url}
    (hurl : url.userinfo? = none) :
    r.authorize.message.writtenFields.foldl
      (fun url entry => receiveField url entry.1 entry.2) url =
        { url with userinfo? := r.url.userinfo? } := by
  rw [Request.foldl_receiveField, Message.filter_writtenFields _ (by decide)]
  cases hinfo : r.url.userinfo? with
  | none =>
    have hnone : r.authorize.message.headers.live.filter
        (fun entry => sameName entry.1 Credentials.fieldName) = [] := by
      rw [authorize_of_none hinfo, List.filter_eq_nil_iff]
      intro field hfield
      simp [h.unauthorized hinfo field hfield]
    rw [hnone, ← hurl]
    rfl
  | some userinfo =>
    obtain ⟨spelling, hname, hfilter⟩ := filter_live_authorize hinfo
    rw [hfilter, List.foldl_cons, List.foldl_nil, receiveField, if_pos hname,
      Credentials.decode?_encode]

/-! ## The round trip -/

/-- What is received of a message that was written. -/
theorem foldl_receive_messageEvents (r : Request) (method target : Bytes) (version : Nat)
    (entries : List (String × String)) (start : Start) (body : Bytes) :
    ∃ pendingName,
      (Reader.messageEvents ⟨.request method target version, entries.map Field.ofEntry⟩ start
        body).foldl receive r =
        { r with
          method? := start.method
          url := entries.foldl (fun url entry => receiveField url entry.1 entry.2)
            (receiveTarget r.url target)
          message :=
            { headers := entries.foldl (fun headers entry => headers.insert entry.1 entry.2) {}
              body := body.toArray
              phase := .complete
              pendingName } } := by
  obtain ⟨pieces, hpieces, rfl⟩ := Message.bodyEvents_eq body
  obtain ⟨pendingName, hwhole⟩ := r.foldl_receive_whole method target version
    (entries.map Field.ofEntry) start pieces
  refine ⟨pendingName, ?_⟩
  rw [Reader.messageEvents, hpieces, hwhole, Headers.insertFields, List.foldl_map, List.foldl_map]
  simp only [Field.toEntry_ofEntry]

/-- What reading back a written request reports. -/
theorem IsWritable.feed_bytes {r : Request} (h : r.IsWritable) {limits : Limits}
    (hlength : r.authorize.headBytes.length ≤ limits.maxHeadLength)
    (hroom : r.authorize.message.writtenFields.length ≤ limits.maxFields) :
    let start : Start := { method := some (r.method?.getD .get), version := 1 }
    ({ limits } : Reader .request).feed r.authorize.bytes =
      ⟨Reader.messageEvents r.writtenHead start r.message.body.toList, { limits, start },
        .ok r.authorize.bytes.length⟩ := by
  intro start
  have hconnect : start.method ≠ some .connect := by
    cases hm : r.method? with
    | none => simp [start, hm]
    | some m =>
      have hne := h.method
      rw [hm] at hne
      simpa [start, hm] using hne
  have hstart : r.writtenHead.start.start = .ok start := by
    simp [writtenHead, StartLine.start, ofBytes?_bytes, start]
  have hframing : Framing.ofHead .request start r.writtenHead.fields =
      .ok (.length r.message.body.toList.length) := by
    rw [Array.length_toList]
    exact h.framing hconnect
  rw [bytes_eq, (authorize_frame r).2.2]
  have hparse := h.parse_headBytes hroom []
  rw [List.append_nil] at hparse
  exact Reader.feed_message ⟨hparse, hlength, hstart, hframing⟩

theorem IsWritable.receiveTarget {r : Request} (h : r.IsWritable) :
    receiveTarget {} (Utf8.encode r.target) =
      { path? := some (r.url.path?.getD "/")
        fragment? := r.url.fragment?
        params := r.url.params } := by
  rw [Request.receiveTarget, Utf8.decode?_encode]
  dsimp only
  rw [Url.replaceBy, Url.parse_target h.target]

/-- The request that reading back gives, and the answer. -/
theorem IsWritable.parse_bytes {r : Request} (h : r.IsWritable) {limits : Limits}
    (hlength : r.authorize.headBytes.length ≤ limits.maxHeadLength)
    (hroom : r.authorize.message.writtenFields.length ≤ limits.maxFields) :
    let start : Start := { method := some (r.method?.getD .get), version := 1 }
    ∃ pendingName, (withLimits limits).parse r.authorize.bytes =
      ({ method? := start.method
         url :=
          { path? := some (r.url.path?.getD "/")
            fragment? := r.url.fragment?
            userinfo? := r.url.userinfo?
            params := r.url.params }
         message :=
          { headers := r.authorize.message.writtenFields.foldl
              (fun headers entry => headers.insert entry.1 entry.2) {}
            body := r.message.body
            phase := .complete
            pendingName }
         reader := { limits, start } }, .ok .complete) := by
  intro start
  obtain ⟨pendingName, hreceived⟩ := foldl_receive_messageEvents
    { withLimits limits with reader := { limits, start } } (r.method?.getD .get).bytes
    (Utf8.encode r.target) 1 r.authorize.message.writtenFields start r.message.body.toList
  have hurl : r.authorize.message.writtenFields.foldl
      (fun url entry => receiveField url entry.1 entry.2)
        (Request.receiveTarget {} (Utf8.encode r.target)) =
          { path? := some (r.url.path?.getD "/")
            fragment? := r.url.fragment?
            userinfo? := r.url.userinfo?
            params := r.url.params } := by
    rw [h.receiveTarget]
    exact h.foldl_receiveField rfl
  have hfeed := h.feed_bytes hlength hroom
  refine ⟨pendingName, ?_⟩
  rw [parse_eq]
  have hreader : (withLimits limits).reader = { limits } := rfl
  dsimp only
  rw [hreader, hfeed]
  dsimp only
  have hwritten : r.writtenHead = ⟨.request (r.method?.getD .get).bytes (Utf8.encode r.target) 1,
    r.authorize.message.writtenFields.map Field.ofEntry⟩ := rfl
  rw [hwritten, hreceived, Message.answer, Except.bind, if_neg (Nat.lt_irrefl _)]
  refine congrArg (·, _) ?_
  show Request.mk _ (r.authorize.message.writtenFields.foldl _ (Request.receiveTarget {} _)) _ _ = _
  rw [hurl]

/-- **The round trip of a request.** Reading what was written of a request in one call completes a
message with the method of the request, its path, parameters, fragment and user information, its
fields as writing left them with the length of the body after them, and its body. An unset method
comes back as GET and an unset path as a slash. -/
theorem parse_build {limits : Limits} {r : Request} (h : r.IsWritable)
    (hlength : r.build.1.headBytes.length ≤ limits.maxHeadLength)
    (hroom : r.build.1.message.writtenFields.length ≤ limits.maxFields) :
    ∃ received, (withLimits limits).parse r.build.2 = (received, .ok .complete) ∧
      received.method? = some (r.method?.getD .get) ∧
      received.url =
        { path? := some (r.url.path?.getD "/")
          fragment? := r.url.fragment?
          userinfo? := r.url.userinfo?
          params := r.url.params } ∧
      received.message.headers.entries =
        (r.build.1.message.headers.live ++
          [(Message.lengthName, Nat.repr r.message.body.size)]).map
            (fun field => (field.1, some field.2)) ∧
      (∀ name, sameName Credentials.fieldName name = false →
        sameName Message.lengthName name = false →
          received.message.headers.get? name = r.message.headers.get? name) ∧
      received.message.body = r.message.body := by
  obtain ⟨pendingName, hparse⟩ := h.parse_bytes hlength hroom
  have hentries := entries_foldl_insert r.authorize.message.distinct_writtenFields
  rw [h.writtenFields] at hentries
  refine ⟨_, hparse, rfl, rfl, ?_, fun name hcredentials hlengthName => ?_, rfl⟩
  · dsimp only
    rw [h.writtenFields, hentries]
    rfl
  · dsimp only
    have hlast : [(Message.lengthName, Nat.repr r.message.body.size)].filter
        (fun field => sameName field.1 name) = [] := List.filter_cons_of_neg (by simp [hlengthName])
    rw [Headers.get?_eq_liveUnder, Headers.get?_eq_liveUnder, h.writtenFields, hentries,
      ← h.writtenFields, Headers.liveUnder, Headers.liveOf_map_some,
      h.filter_writtenFields hcredentials, hlast, List.append_nil]
    rfl

/-- A request with reserved characters in a value, a cleared field and stale credentials. -/
def loginRequest : Request where
  method? := some .post
  url :=
    { path? := some "/log/in"
      fragment? := some "top"
      userinfo? := some "user:pass word"
      params := ⟨[("q", "a&b=c+d% é"), ("Page", "")], by decide⟩ }
  message :=
    { headers := ⟨⟨[("X-Trace", some "a\tb"), ("Accept", none), ("authorization", some "none")],
        by decide⟩⟩
      body := #[0x0D, 0x0A, 0x00] }

theorem loginRequest_round_trip :
    (loginRequest.IsWritable ∧
      loginRequest.build.1.headBytes.length ≤ (81920 : Nat) ∧
      loginRequest.build.1.message.writtenFields.length ≤ (64 : Nat)) ∧
    ∃ received, (withLimits {}).parse loginRequest.build.2 = (received, .ok .complete) ∧
      received.method? = some .post ∧
      received.url = loginRequest.url ∧
      received.message.headers.entries =
        [("X-Trace", some "a\tb"), ("authorization", some "Basic dXNlcjpwYXNzIHdvcmQ="),
          ("Content-Length", some "3")] ∧
      received.message.body = #[0x0D, 0x0A, 0x00] := by
  have hwritable : loginRequest.IsWritable := by decide +kernel
  have hlength : loginRequest.build.1.headBytes.length ≤ (81920 : Nat) := by decide +kernel
  have hroom : loginRequest.build.1.message.writtenFields.length ≤ (64 : Nat) := by decide +kernel
  obtain ⟨received, hparse, hmethod, hurl, hentries, -, hbody⟩ :=
    @parse_build {} loginRequest hwritable hlength hroom
  refine ⟨⟨hwritable, hlength, hroom⟩, received, hparse, hmethod, hurl, ?_, hbody⟩
  rw [hentries]
  decide +kernel

end HttpWire.Request
