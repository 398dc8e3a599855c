import HttpWire.Proofs.Credentials
import HttpWire.Proofs.Message.Completed
import HttpWire.Proofs.Message.Stored
import HttpWire.Proofs.Request.Receive
import HttpWire.Proofs.Url.Target
/-!
# Credentials that were received

A request hears of credentials twice: the field is kept among the others, and whom it names goes
into the URL. Of several fields the last one is kept, while the URL keeps whom the last readable one
names. So the two agree exactly as long as the last one is readable, or none of them is.
-/

namespace HttpWire

/-! ## Many values -/

namespace Credentials

/-- Whether a user is the one whom the last of some values that name anybody names. -/
def NamesLast (values : List String) (userinfo : String) : Prop :=
  ∃ before value after, values = before ++ value :: after ∧ Names value userinfo ∧
    ∀ later ∈ after, ∀ other, ¬ Names later other

theorem decode?_eq_none_iff {value : String} :
    decode? value = none ↔ ∀ userinfo, ¬ Names value userinfo := by
  rw [Option.eq_none_iff_forall_ne_some]
  exact forall_congr' fun userinfo => not_congr decode?_eq_some_iff

theorem getLast?_filterMap_decode? {values : List String} {userinfo : String} :
    (values.filterMap decode?).getLast? = some userinfo ↔ NamesLast values userinfo := by
  rw [List.getLast?_filterMap, List.findSome?_eq_some_iff]
  constructor
  · rintro ⟨after, value, before, hreverse, hvalue, hnone⟩
    refine ⟨before.reverse, value, after.reverse, ?_, decode?_eq_some_iff.mp hvalue, ?_⟩
    · rw [← List.reverse_reverse values, hreverse]
      simp
    · intro later hlater
      exact decode?_eq_none_iff.mp (hnone later (List.mem_reverse.mp hlater))
  · rintro ⟨before, value, after, rfl, hvalue, hnone⟩
    refine ⟨after.reverse, value, before.reverse, by simp, decode?_eq_some_iff.mpr hvalue, ?_⟩
    intro later hlater
    exact decode?_eq_none_iff.mpr (hnone later (List.mem_reverse.mp hlater))

/-- If the last value names somebody, that is whom the values name last. -/
theorem namesLast_of_getLast? {values : List String} {value userinfo : String}
    (hlast : values.getLast? = some value) (h : Names value userinfo) :
    NamesLast values userinfo := by
  obtain ⟨before, rfl⟩ := List.getLast?_eq_some_iff.mp hlast
  exact ⟨before, value, [], rfl, h, by simp⟩

end Credentials

theorem getLast?_filterMap_cons {α β : Type} (f : α → Option β) (a : α) (as : List α) :
    ((a :: as).filterMap f).getLast? = Option.or (as.filterMap f).getLast? (f a) := by
  cases h : f a with
  | none => rw [List.filterMap_cons_none h, Option.or_none]
  | some b => simp [List.filterMap_cons_some h, List.getLast?_cons]

namespace Request

open Credentials (Names NamesLast)

/-- The values of the fields with credentials, as text. -/
def credentialValues (fields : List Field) : List String :=
  (Framing.valuesOf Credentials.fieldName fields).map Utf8.decodeLossy

/-- **The fields leave the URL with whom they name last.** -/
theorem foldl_receiveField_fields {fields : List Field} (hplain : ∀ field ∈ fields, field.IsPlain)
    (url : Url) :
    fields.foldl (fun url field => receiveField url field.toEntry.1 field.toEntry.2) url =
      { url with
        userinfo? := Option.or ((credentialValues fields).filterMap Credentials.decode?).getLast?
          url.userinfo? } := by
  induction fields generalizing url with
  | nil => rfl
  | cons field fields ih =>
    obtain ⟨hfield, hlater⟩ := List.forall_mem_cons.mp hplain
    have hname : sameName field.toEntry.1 Credentials.fieldName =
        field.name.sameLetters (Utf8.encode Credentials.fieldName) :=
      hfield.sameName (sameName_iff.mpr rfl) _
    rw [List.foldl_cons, ih hlater, receiveField_eq, hname, credentialValues, credentialValues,
      Framing.valuesOf_cons]
    dsimp only
    rw [← Option.or_assoc]
    split
    · rw [List.map_cons, getLast?_filterMap_cons]
      rfl
    · rw [Option.or_none]

/-- A target in origin form leaves a URL without user information. -/
theorem userinfo?_receiveTarget {limits : Limits} {block : Bytes} {head : Head} {start : Start}
    {framing : Framing} (h : Reader.Accepted .request limits block head start framing)
    {method target : Bytes} {version : Nat} (hstart : head.start = .request method target version)
    (hslash : target.head? = some 0x2F) (url : Url) :
    (receiveTarget url target).userinfo? = none := by
  obtain ⟨htarget, text, rfl⟩ := Head.target_of_parse_done h.parse hstart
  obtain ⟨parsed, hparsed, hnone⟩ := Url.parse_of_slash htarget hslash
  rw [receiveTarget, Utf8.decode?_encode]
  dsimp only
  rw [Url.replaceBy, hparsed]
  exact hnone

/-- What a request has of fields with these values: the last one among its fields, and whom they
name last in its URL. -/
structure HearsOf (r : Request) (values : List String) : Prop where
  kept : r.message.headers.get? Credentials.fieldName = values.getLast?
  named : ∀ userinfo, r.url.userinfo? = some userinfo ↔ NamesLast values userinfo

namespace HearsOf

variable {r : Request} {values : List String} (h : r.HearsOf values)
include h

/-- Whom the field names that is kept, the URL has. -/
theorem userinfo?_of_names {value userinfo : String}
    (hkept : r.message.headers.get? Credentials.fieldName = some value)
    (hnames : Names value userinfo) : r.url.userinfo? = some userinfo := by
  rw [h.kept] at hkept
  exact (h.named userinfo).mpr (Credentials.namesLast_of_getLast? hkept hnames)

/-- **Field and URL agree exactly if the last value is readable, or none is.** -/
theorem agree_iff :
    (∀ userinfo, r.url.userinfo? = some userinfo ↔
      ∃ value, r.message.headers.get? Credentials.fieldName = some value ∧ Names value userinfo) ↔
    (∃ value userinfo, values.getLast? = some value ∧ Names value userinfo) ∨
      ∀ value ∈ values, ∀ userinfo, ¬ Names value userinfo := by
  constructor
  · intro hagree
    cases hlast : (values.filterMap Credentials.decode?).getLast? with
    | none =>
      right
      intro value hvalue
      rw [List.getLast?_eq_none_iff, List.filterMap_eq_nil_iff] at hlast
      exact Credentials.decode?_eq_none_iff.mp (hlast value hvalue)
    | some userinfo =>
      left
      have hnamed := (h.named userinfo).mpr (Credentials.getLast?_filterMap_decode?.mp hlast)
      obtain ⟨value, hkept, hnames⟩ := (hagree userinfo).mp hnamed
      exact ⟨value, userinfo, h.kept ▸ hkept, hnames⟩
  · rintro (⟨value, named, hlast, hnames⟩ | hnone) userinfo
    · have hkept := h.kept.trans hlast
      have hurl := h.userinfo?_of_names hkept hnames
      constructor
      · intro hsome
        obtain rfl := Option.some.inj (hurl.symm.trans hsome)
        exact ⟨value, hkept, hnames⟩
      · rintro ⟨other, hother, hnamesOther⟩
        exact h.userinfo?_of_names hother hnamesOther
    · constructor
      · intro hsome
        obtain ⟨before, value, after, rfl, hnames, -⟩ := (h.named userinfo).mp hsome
        exact absurd hnames (hnone value (by simp) userinfo)
      · rintro ⟨value, hkept, hnames⟩
        rw [h.kept] at hkept
        exact absurd hnames (hnone value (List.mem_of_getLast? hkept) userinfo)

end HearsOf

/-- A request that has received a whole message last has heard of its credentials. -/
theorem hearsOf_of_completes {limits : Limits} {head : Head} {start : Start} {framing : Framing}
    {pieces : List Bytes} {events : List Event}
    (h : Reader.Completes .request limits head start framing pieces events) {method target : Bytes}
    {version : Nat} (hstart : head.start = .request method target version)
    (hslash : target.head? = some 0x2F) (r : Request) :
    (events.foldl receive r).HearsOf (credentialValues head.fields) := by
  obtain ⟨before, block, haccepted, -, rfl⟩ := h
  have hplain := Head.isPlain_of_parse_done haccepted.parse
  have hnone := userinfo?_receiveTarget haccepted hstart hslash (before.foldl receive r).url
  obtain ⟨line, fields⟩ := head
  dsimp only at hstart hplain ⊢
  subst hstart
  obtain ⟨pendingName, hwhole⟩ := (before.foldl receive r).foldl_receive_whole method target version
    fields start pieces
  rw [List.foldl_append, hwhole]
  constructor
  · show (Headers.insertFields {} fields).get? Credentials.fieldName = _
    rw [Headers.get?_insertFields hplain]
    exact Option.or_none
  · intro userinfo
    dsimp only
    rw [foldl_receiveField_fields hplain, hnone, Option.or_none]
    exact Credentials.getLast?_filterMap_decode?

/-- **Whom a received request names.** When a new request has parsed its input to a complete
message, one with a target in origin form, then the `Authorization` field that is kept is the last
one of the message, under whatever spelling, and the URL has whom the last readable one names, the
last whose value is `Basic ` and the base64 of a text. So whom the kept field names, the URL has.
The other way round that holds too exactly if the last field is readable, or none of them is. -/
theorem credentials_of_complete {limits : Limits} {w : Bytes}
    (h : ((withLimits limits).parse w).2 = .ok .complete) :
    let r := ((withLimits limits).parse w).1
    let events := (({ limits } : Reader .request).feed w).events
    (∃ head start framing pieces,
      Reader.Completes .request limits head start framing pieces events) ∧
    ∀ head start framing pieces method target version,
      Reader.Completes .request limits head start framing pieces events →
      head.start = .request method target version → target.head? = some 0x2F →
      let values := credentialValues head.fields
      r.HearsOf values ∧
        (∀ value userinfo, r.message.headers.get? Credentials.fieldName = some value →
          Names value userinfo → r.url.userinfo? = some userinfo) ∧
        ((∀ userinfo, r.url.userinfo? = some userinfo ↔
          ∃ value, r.message.headers.get? Credentials.fieldName = some value ∧
            Names value userinfo) ↔
          (∃ value userinfo, values.getLast? = some value ∧ Names value userinfo) ∨
            ∀ value ∈ values, ∀ userinfo, ¬ Names value userinfo) := by
  intro r events
  have hfeed : ({ limits } : Reader .request).feed w = ({ limits } : Reader .request).consume w :=
    Reader.feed_of_idle rfl w
  have hr : r = events.foldl receive
      { withLimits limits with reader := (({ limits } : Reader .request).feed w).reader } := by
    show ((withLimits limits).parse w).1 = _
    rw [parse_eq]
    rfl
  constructor
  · rw [parse_eq] at h
    dsimp only at h
    rw [message_foldl_receive] at h
    have hnew : (withLimits limits).reader = { limits } := rfl
    rw [hnew, hfeed] at h
    have hlast := Reader.completes_of_complete rfl rfl h
    rwa [← hfeed] at hlast
  · intro head start framing pieces method target version hlast hstart hslash values
    have hhears : r.HearsOf values := by
      rw [hr]
      exact hearsOf_of_completes hlast hstart hslash _
    exact ⟨hhears, fun value userinfo => hhears.userinfo?_of_names, hhears.agree_iff⟩

/-- A request whose credentials come three times, the second time unreadable. -/
def thriceAuthorized : Bytes :=
  Utf8.encode "GET /a HTTP/1.1\r\nauthorization: Basic dTpw\r\nAuthorization: Basic !\r\n" ++
    Utf8.encode "AUTHORIZATION: Basic  dTpx\r\n\r\n"

/-- Its head. -/
def thriceHead : Head where
  start := .request (Utf8.encode "GET") (Utf8.encode "/a") 1
  fields :=
    [("authorization", "Basic dTpw"), ("Authorization", "Basic !"),
      ("AUTHORIZATION", "Basic  dTpx")].map Field.ofEntry

theorem credentials_of_thriceAuthorized :
    ((withLimits {}).parse thriceAuthorized).2 = .ok .complete ∧
      ((withLimits {}).parse thriceAuthorized).1.HearsOf
        ["Basic dTpw", "Basic !", "Basic  dTpx"] ∧
      ((withLimits {}).parse thriceAuthorized).1.url.userinfo? = some "u:q" := by
  have hcomplete : ((withLimits {}).parse thriceAuthorized).2 = .ok .complete := by decide +kernel
  have haccepted : Reader.Accepted .request {} thriceAuthorized thriceHead
      { method := some .get, version := 1 } (.length 0) :=
    ⟨by decide +kernel, by decide +kernel, rfl, by decide +kernel⟩
  have hlast : Reader.Completes .request {} thriceHead { method := some .get, version := 1 }
      (.length 0) [] (({} : Reader .request).feed thriceAuthorized).events :=
    ⟨[], thriceAuthorized, haccepted, rfl, by decide +kernel⟩
  have hvalues : credentialValues thriceHead.fields =
      ["Basic dTpw", "Basic !", "Basic  dTpx"] := by
    decide +kernel
  obtain ⟨hhears, hfollows, -⟩ := (credentials_of_complete hcomplete).2 thriceHead _ _ [] _ _ _
    hlast rfl (by decide +kernel)
  rw [hvalues] at hhears
  refine ⟨hcomplete, hhears, hfollows "Basic  dTpx" "u:q" hhears.kept ?_⟩
  rw [← Credentials.decode?_eq_some_iff]
  decide +kernel

/-- A request with credentials behind which there are others that are not basic. -/
def bearerBehindBasic : Bytes :=
  Utf8.encode "GET / HTTP/1.1\r\nAuthorization: Basic dTpw\r\nAuthorization: Bearer x\r\n\r\n"

/-- The field that is kept and the user information may be at odds. -/
theorem credentials_at_odds :
    ((withLimits {}).parse bearerBehindBasic).2 = .ok .complete ∧
      ((withLimits {}).parse bearerBehindBasic).1.url.path? = some "/" ∧
      ¬ ∀ userinfo,
        ((withLimits {}).parse bearerBehindBasic).1.url.userinfo? = some userinfo ↔
          ∃ value, ((withLimits {}).parse bearerBehindBasic).1.message.headers.get?
            Credentials.fieldName = some value ∧ Names value userinfo := by
  refine ⟨by decide +kernel, by decide +kernel, fun hagree => ?_⟩
  have hurl : ((withLimits {}).parse bearerBehindBasic).1.url.userinfo? = some "u:p" := by
    decide +kernel
  have hbearer : ((withLimits {}).parse bearerBehindBasic).1.message.headers.get?
      Credentials.fieldName = some "Bearer x" := by
    decide +kernel
  obtain ⟨value, hkept, hnames⟩ := (hagree "u:p").mp hurl
  rw [hbearer, Option.some.injEq] at hkept
  rw [← hkept, ← Credentials.decode?_eq_some_iff] at hnames
  revert hnames
  decide +kernel

end Request

end HttpWire
