import HttpWire.Proofs.Request.Written
/-!
# Writing a request again

Writing a request fills in its credentials, and doing so once is enough: written again, the request
is the same and so are its bytes. The lines that are written are the live fields and the length of
the body. No name comes twice among them, because it does not among the fields, whatever was done
to the request before.
-/

namespace HttpWire

/-- Credentials are the base64 of the user information behind a word. -/
theorem Credentials.encode_eq (userinfo : String) :
    Credentials.encode userinfo =
      "Basic " ++ String.ofList (Base64.encode (Utf8.encode userinfo)) := by
  rw [Credentials.encode, String.ofList_append, Credentials.scheme, String.ofList_toList]

namespace Request

variable {r : Request}

/-! ## Credentials -/

/-- Credentials that are filled in already are filled in for good. -/
theorem authorize_authorize (r : Request) : r.authorize.authorize = r.authorize := by
  cases hinfo : r.url.userinfo? with
  | none => rw [authorize_of_none hinfo, authorize_of_none hinfo]
  | some userinfo =>
    -- The URL still has its user information, so the same field is given the same value again.
    have hbuilt : r.authorize.url.userinfo? = some userinfo := by
      rw [(authorize_frame r).2.1, hinfo]
    rw [authorize, hbuilt]
    dsimp only
    rw [headers_authorize hinfo, Headers.insert_insert, authorize, hinfo]

/-- Credentials change nothing but the fields. -/
theorem authorize_eq (r : Request) :
    r.authorize =
      { r with message := { r.message with headers := r.authorize.message.headers } } := by
  cases hinfo : r.url.userinfo? with
  | none => rw [authorize_of_none hinfo]
  | some userinfo =>
    rw [headers_authorize hinfo, authorize, hinfo]

theorem given_authorize {userinfo : String} (h : r.url.userinfo? = some userinfo) :
    Headers.Given Credentials.fieldName (Credentials.encode userinfo) r.message.headers.entries
      r.authorize.message.headers.entries := by
  rw [headers_authorize h]
  exact Headers.given_insert _ _ _

/-! ## Lines -/

/-- **One line has the credentials**, and it is the field in which they were put. -/
theorem filter_writtenFields_authorize {userinfo : String} (h : r.url.userinfo? = some userinfo) :
    ∃ spelling, r.authorize.message.writtenFields.filter
      (fun line => sameName line.1 Credentials.fieldName) =
        [(spelling, Credentials.encode userinfo)] := by
  obtain ⟨spelling, -, hlive⟩ := filter_live_authorize h
  refine ⟨spelling, ?_⟩
  rw [Message.filter_writtenFields _ (by decide), hlive]

/-- The bytes that a request is written as, by lines. -/
theorem bytes_authorize (r : Request) :
    r.authorize.bytes =
      (r.method?.getD .get).bytes ++ [Byte.space] ++ Utf8.encode r.target ++ [Byte.space] ++
        Utf8.encode "HTTP/1.1" ++ [Byte.cr, Byte.lf] ++
        (r.authorize.message.writtenFields.flatMap fun line =>
          Utf8.encode line.1 ++ [Byte.colon] ++ Utf8.encode line.2 ++ [Byte.cr, Byte.lf]) ++
        [Byte.cr, Byte.lf] ++ r.message.body.toList := by
  have hline : Message.fieldLine = fun line =>
      Utf8.encode line.1 ++ [Byte.colon] ++ Utf8.encode line.2 ++ [Byte.cr, Byte.lf] := rfl
  obtain ⟨hmethod, -, hbody⟩ := authorize_frame r
  rw [bytes, requestLine, hmethod, target_authorize, Message.bytes, hbody, hline]
  simp [Message.version, Message.lineBreak]

/-- **What is written, and that it is written again.** Writing a request a second time gives the
same bytes and the same request. The first time changes nothing but one field, and that only if
there is user information: `Authorization` gets the word `Basic` and the base64 of the user
information, where it stands among the fields, live or cleared, or else at their end. The lines are
the live fields in order and then the length of the body, unless one of them gives a length. So no
two lines have the same name, one gives a length, and with user information one has credentials. -/
theorem build_writesLines (r : Request) :
    let built := r.build.1
    let live := built.message.headers.entries.filterMap fun entry =>
      entry.2.map fun value => (entry.1, value)
    let lines := live ++
      if live.any (fun field => sameName field.1 "Content-Length") then []
      else [("Content-Length", Nat.repr r.message.body.size)]
    built.build = r.build ∧
      built = { r with message := { r.message with headers := built.message.headers } } ∧
      (r.url.userinfo? = none → built = r) ∧
      r.build.2 =
        (r.method?.getD .get).bytes ++ [Byte.space] ++ Utf8.encode r.target ++ [Byte.space] ++
          Utf8.encode "HTTP/1.1" ++ [Byte.cr, Byte.lf] ++
          (lines.flatMap fun line =>
            Utf8.encode line.1 ++ [Byte.colon] ++ Utf8.encode line.2 ++ [Byte.cr, Byte.lf]) ++
          [Byte.cr, Byte.lf] ++ r.message.body.toList ∧
      (lines.Pairwise fun a b => sameName a.1 b.1 = false) ∧
      lines.countP (fun line => sameName line.1 "Content-Length") = 1 ∧
      ∀ userinfo ∈ r.url.userinfo?,
        let credentials := "Basic " ++ String.ofList (Base64.encode (Utf8.encode userinfo))
        Headers.Given "Authorization" credentials r.message.headers.entries
            built.message.headers.entries ∧
          ∃ spelling, lines.filter (fun line => sameName line.1 "Authorization") =
            [(spelling, credentials)] := by
  intro built live lines
  have hlines : r.authorize.message.writtenFields = lines := by
    rw [Message.writtenFields_eq_append, (authorize_frame r).2.2]
    rfl
  refine ⟨?_, authorize_eq r, authorize_of_none, ?_, ?_, ?_, ?_⟩
  · show (r.authorize.authorize, r.authorize.authorize.bytes) = (r.authorize, r.authorize.bytes)
    rw [authorize_authorize]
  · rw [← hlines]
    exact bytes_authorize r
  · rw [← hlines]
    exact r.authorize.message.distinct_writtenFields
  · rw [← hlines]
    exact r.authorize.message.countP_writtenFields
  · intro userinfo hinfo credentials
    obtain ⟨spelling, hline⟩ := filter_writtenFields_authorize hinfo
    rw [hlines, Credentials.encode_eq] at hline
    have hgiven := given_authorize hinfo
    rw [Credentials.encode_eq] at hgiven
    exact ⟨hgiven, spelling, hline⟩

/-- A request with user information whose credentials were cleared, under another spelling. -/
def clearedRequest : Request where
  method? := some .put
  url := { path? := some "/a", userinfo? := some "u:p" }
  message :=
    { headers := ⟨⟨[("authorization", none), ("A", some "1"), ("B", none)], by decide⟩⟩
      body := #[0x78, 0x79] }

theorem clearedRequest_writesLines :
    let built := clearedRequest.build.1
    let lines := [("authorization", "Basic dTpw"), ("A", "1"), ("Content-Length", "2")]
    built.build = clearedRequest.build ∧
      built.message.headers.entries =
        [("authorization", some "Basic dTpw"), ("A", some "1"), ("B", none)] ∧
      clearedRequest.build.2 = Utf8.encode
        "PUT /a HTTP/1.1\r\nauthorization:Basic dTpw\r\nA:1\r\nContent-Length:2\r\n\r\nxy" ∧
      (lines.Pairwise fun a b => sameName a.1 b.1 = false) ∧
      lines.countP (fun line => sameName line.1 "Content-Length") = 1 ∧
      ∃ spelling, lines.filter (fun line => sameName line.1 "Authorization") =
        [(spelling, "Basic dTpw")] := by
  intro built lines
  have hentries : built.message.headers.entries =
      [("authorization", some "Basic dTpw"), ("A", some "1"), ("B", none)] := by decide +kernel
  have hcredentials : "Basic " ++ String.ofList (Base64.encode (Utf8.encode "u:p")) =
      "Basic dTpw" := by decide +kernel
  obtain ⟨hagain, -, -, hbytes, hdistinct, hlength, hinfo⟩ := build_writesLines clearedRequest
  obtain ⟨-, spelling, hline⟩ := hinfo "u:p" rfl
  rw [hcredentials] at hline
  rw [hentries] at hbytes hdistinct hlength hline
  exact ⟨hagain, hentries, hbytes.trans (by decide +kernel), hdistinct, hlength, spelling, hline⟩

end Request

end HttpWire
