import HttpWire.Request
import HttpWire.Proofs.Credentials
import HttpWire.Proofs.Message.Written
import HttpWire.Proofs.Url.RoundTrip
/-!
# What a request writes

The requests whose written form can be read back, and what the fields are that such a request
writes: its live ones with its credentials among them, and the length of its body.
-/

namespace HttpWire

namespace Request

/-! ## Requests that can be read back -/

/-- What has to hold of a request for its written form to read back as the same request. A
CONNECT request and a request for an upgrade are written just as well, but what follows their
head is read as another protocol. -/
structure IsWritable (r : Request) : Prop where
  method : r.method? ≠ some .connect
  target : r.url.HasTarget
  /-- Credentials are in the URL or nowhere. -/
  userinfo : ∀ userinfo ∈ r.url.userinfo?, userinfo ≠ ""
  unauthorized : r.url.userinfo? = none →
    ∀ field ∈ r.message.headers.live, sameName field.1 Credentials.fieldName = false
  plain : ∀ field ∈ r.message.headers.live, (Field.ofEntry field).IsPlain
  /-- The framing is left to writing. -/
  unframed : ∀ field ∈ r.message.headers.live,
    sameName field.1 Message.lengthName = false ∧ sameName field.1 "Transfer-Encoding" = false
  upgrade : Framing.asksForUpgrade (r.message.headers.live.map Field.ofEntry) = false
  /-- Any body that fits into a memory of 64-bit addresses does. -/
  size : r.message.body.size < UInt64.size

instance (r : Request) : Decidable r.IsWritable :=
  decidable_of_iff
    (r.method? ≠ some .connect ∧ r.url.HasTarget ∧ (∀ userinfo ∈ r.url.userinfo?, userinfo ≠ "") ∧
      (r.url.userinfo? = none →
        ∀ field ∈ r.message.headers.live, sameName field.1 Credentials.fieldName = false) ∧
      (∀ field ∈ r.message.headers.live, (Field.ofEntry field).IsPlain) ∧
      (∀ field ∈ r.message.headers.live,
        sameName field.1 Message.lengthName = false ∧
          sameName field.1 "Transfer-Encoding" = false) ∧
      Framing.asksForUpgrade (r.message.headers.live.map Field.ofEntry) = false ∧
      r.message.body.size < UInt64.size)
    ⟨fun ⟨a, b, c, d, e, f, g, h⟩ => ⟨a, b, c, d, e, f, g, h⟩,
      fun ⟨a, b, c, d, e, f, g, h⟩ => ⟨a, b, c, d, e, f, g, h⟩⟩

section
variable {r : Request}

/-! ## Credentials -/

/-- Credentials can be written, unless the user information is empty. -/
theorem isPlain_credentials {name userinfo : String}
    (hname : sameName name Credentials.fieldName = true) (hne : userinfo ≠ "") :
    (Field.ofEntry (name, Credentials.encode userinfo)).IsPlain := by
  have htoken : (Utf8.encode Credentials.fieldName).all Byte.isToken = true := by decide
  have hsome : Utf8.encode Credentials.fieldName ≠ [] := by decide
  exact isPlain_ofEntry (encode_ne_nil_of_sameName hname hsome) (isToken_of_sameName hname htoken)
    Credentials.isText_of_mem_encode (Credentials.head_encode userinfo)
    (Credentials.last_encode hne)

theorem authorize_of_none (h : r.url.userinfo? = none) : r.authorize = r := by
  rw [authorize, h]

theorem headers_authorize {userinfo : String} (h : r.url.userinfo? = some userinfo) :
    r.authorize.message.headers =
      r.message.headers.insert Credentials.fieldName (Credentials.encode userinfo) := by
  rw [authorize, h]

theorem authorize_frame (r : Request) : r.authorize.method? = r.method? ∧ r.authorize.url = r.url ∧
    r.authorize.message.body = r.message.body := by
  rw [authorize]
  split
  · exact ⟨rfl, rfl, rfl⟩
  · exact ⟨rfl, rfl, rfl⟩

/-- Credentials change no field of another name. -/
theorem liveUnder_authorize {name : String} (h : sameName Credentials.fieldName name = false) :
    Headers.liveUnder name r.authorize.message.headers.entries =
      Headers.liveUnder name r.message.headers.entries := by
  cases hinfo : r.url.userinfo? with
  | none => rw [authorize_of_none hinfo]
  | some userinfo =>
    rw [headers_authorize hinfo]
    exact Headers.liveUnder_putEntry_of_ne _ h _

/-- Of all the fields of that name only the one from the user information is left. -/
theorem filter_live_authorize {userinfo : String} (h : r.url.userinfo? = some userinfo) :
    ∃ spelling, sameName spelling Credentials.fieldName = true ∧
      r.authorize.message.headers.live.filter
        (fun field => sameName field.1 Credentials.fieldName) =
          [(spelling, Credentials.encode userinfo)] := by
  rw [headers_authorize h]
  exact Headers.liveUnder_putEntry Credentials.fieldName (Credentials.encode userinfo)
    r.message.headers.fields.distinct

theorem mem_live_authorize {field : String × String}
    (h : field ∈ r.authorize.message.headers.live) :
    field ∈ r.message.headers.live ∨ ∃ userinfo, r.url.userinfo? = some userinfo ∧
      field.2 = Credentials.encode userinfo ∧ sameName field.1 Credentials.fieldName = true := by
  cases hinfo : r.url.userinfo? with
  | none =>
    rw [authorize_of_none hinfo] at h
    exact .inl h
  | some userinfo =>
    rw [headers_authorize hinfo] at h
    exact (Headers.mem_live_insert h).imp_right fun hnew => ⟨userinfo, rfl, hnew⟩

/-! ## Written fields -/

namespace IsWritable

/-- With its credentials among its fields a request is as good as without. -/
theorem message (h : r.IsWritable) : r.authorize.message.IsWritable where
  plain field hfield := by
    rcases mem_live_authorize hfield with hold | ⟨userinfo, hinfo, hvalue, hname⟩
    · exact h.plain field hold
    · obtain ⟨name, value⟩ := field
      cases hvalue
      exact isPlain_credentials hname (h.userinfo userinfo hinfo)
  unframed field hfield := by
    rcases mem_live_authorize hfield with hold | ⟨userinfo, -, -, hname⟩
    · exact h.unframed field hold
    · rw [sameName_trans hname, sameName_trans hname]
      decide
  size := by
    rw [(authorize_frame r).2.2]
    exact h.size

theorem writtenFields (h : r.IsWritable) :
    r.authorize.message.writtenFields = r.authorize.message.headers.live ++
      [(Message.lengthName, Nat.repr r.message.body.size)] := by
  rw [h.message.writtenFields_eq, (authorize_frame r).2.2]

/-- What is written under a name that is not that of the credentials. -/
theorem filter_writtenFields (h : r.IsWritable) {name : String}
    (hname : sameName Credentials.fieldName name = false) :
    r.authorize.message.writtenFields.filter (fun field => sameName field.1 name) =
      (r.message.headers.live.filter fun field => sameName field.1 name) ++
        [(Message.lengthName, Nat.repr r.message.body.size)].filter
          fun field => sameName field.1 name := by
  rw [h.writtenFields, List.filter_append]
  exact congrArg (· ++ _) (liveUnder_authorize hname)

/-- Credentials ask for no other protocol. -/
theorem asksForUpgrade (h : r.IsWritable) :
    Framing.asksForUpgrade (r.authorize.message.headers.live.map Field.ofEntry) = false := by
  have hlive : ∀ {name : String}, sameName Credentials.fieldName name = false →
      Framing.valuesOf name (r.authorize.message.headers.live.map Field.ofEntry) =
        Framing.valuesOf name (r.message.headers.live.map Field.ofEntry) := by
    intro name hcredentials
    rw [Framing.valuesOf_ofEntry, Framing.valuesOf_ofEntry]
    exact congrArg _ (liveUnder_authorize hcredentials)
  rw [Framing.asksForUpgrade, hlive (by decide), hlive (by decide)]
  exact h.upgrade

/-- **The written head frames the written body.** -/
theorem framing (h : r.IsWritable) {start : Start} (hmethod : start.method ≠ some .connect) :
    Framing.ofHead .request start (r.authorize.message.writtenFields.map Field.ofEntry) =
      .ok (.length r.message.body.size) := by
  have hswitch : Framing.switchesProtocol .request start
      (r.authorize.message.writtenFields.map Field.ofEntry) = false := by
    simp [Framing.switchesProtocol, hmethod, h.message.asksForUpgrade_writtenFields,
      h.asksForUpgrade]
  rw [Framing.ofHead, h.message.ofFields_writtenFields, hswitch, (authorize_frame r).2.2]
  rfl

end IsWritable

/-! ## The written head -/

theorem ofBytes?_bytes (method : Method) : Method.ofBytes? method.bytes = some method := by
  cases method <;> decide

theorem isToken_bytes (method : Method) :
    method.bytes ≠ [] ∧ ∀ b ∈ method.bytes, Byte.isToken b = true := by
  have htoken : method.bytes.all Byte.isToken = true := by cases method <;> decide
  have hne : method.bytes ≠ [] := by cases method <;> decide
  exact ⟨hne, List.all_eq_true.mp htoken⟩

/-- The head of a request as it stands: its bytes up to the body. -/
def headBytes (r : Request) : Bytes :=
  r.requestLine ++ (r.message.writtenFields.map Field.ofEntry).flatMap Field.line ++
    Message.lineBreak

theorem bytes_eq (r : Request) : r.bytes = r.headBytes ++ r.message.body.toList := by
  rw [bytes, Message.bytes_eq, headBytes]
  simp

/-- What a reader makes of the head of a request that was written. -/
def writtenHead (r : Request) : Head where
  start := .request (r.method?.getD .get).bytes (Utf8.encode r.target) 1
  fields := r.authorize.message.writtenFields.map Field.ofEntry

theorem target_authorize (r : Request) : r.authorize.target = r.target := by
  rw [target, target, (authorize_frame r).2.1]

namespace IsWritable

/-- **The head reads back**, whatever follows it. -/
theorem parse_headBytes (h : r.IsWritable) {maxFields : Nat}
    (hroom : r.authorize.message.writtenFields.length ≤ maxFields) (rest : Bytes) :
    Head.parse .request maxFields (r.authorize.headBytes ++ rest) = .done r.writtenHead rest := by
  obtain ⟨hmethod, htoken⟩ := isToken_bytes (r.method?.getD .get)
  have htext : (Utf8.decode? (Utf8.encode r.target)).isSome = true := by
    rw [Utf8.decode?_encode]
    rfl
  have hline : r.authorize.headBytes ++ rest =
      (r.method?.getD .get).bytes ++ [Byte.space] ++ Utf8.encode r.target ++ [Byte.space] ++
        Message.version ++ Message.lineBreak ++
          ((r.authorize.message.writtenFields.map Field.ofEntry).flatMap Field.line ++
            Message.lineBreak ++ rest) := by
    rw [headBytes, requestLine, target_authorize, (authorize_frame r).1]
    simp
  have hstart := Head.requestLine_append hmethod htoken (Url.target_ne_nil h.target)
    (Url.isTarget_of_mem_target h.target) htext
  have hlines := Message.fieldLines_of_plain (fun _ => h.message.isPlain) hroom rest
  rw [Head.parse, hline, Head.startLine, hstart, Scan.bind_done, hlines, Scan.map_done]
  rfl

end IsWritable

end

end Request

end HttpWire
