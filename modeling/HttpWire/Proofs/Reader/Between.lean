import HttpWire.Proofs.Reader.Balance
import HttpWire.Proofs.Reader.Consumption
import HttpWire.Proofs.Reader.Reuse
import HttpWire.Proofs.Reader.Whole
/-!
# Between messages

A reader that is between messages is as good as a new one, whatever it has been through. What tells
that it is between messages is its own report: it has not stopped, and every message that has begun
has been completed. So complete messages in a row are read one by one, and what is reported of all
of them is what is reported of each.

For messages in one stretch of input the report is the same piece by piece, since a step that ends
before its input does takes no notice of what follows (`step_append`).
-/

namespace HttpWire.Reader

open Event

variable {kind : Kind}

/-! ## Steps that end before their input -/

/-- Whether a step leaves some of its input, or leaves the reader between messages. -/
def Progress.Closes (p : Progress kind) (input : Bytes) : Prop :=
  ∃ n, p.result = .ok n ∧ (n < input.length ∨ p.reader.state = .idle)

section
variable {r : Reader kind} {events : List Event} {buffer : Array UInt8} {input : Bytes}

theorem awaitHead_not_closes {taken : Bytes} (hne : taken ≠ [])
    (htaken : input.take (r.limits.maxHeadLength - buffer.size) = taken) :
    ¬ (r.awaitHead events (buffer ++ taken) taken.length).Closes input := by
  have hsize : (buffer ++ taken).size = buffer.size + taken.length := by
    rw [← Array.length_toList, Array.toList_appendList, List.length_append, Array.length_toList]
  rintro ⟨n, hok, hends⟩
  rw [awaitHead] at hok hends
  by_cases hfull : r.limits.maxHeadLength ≤ (buffer ++ taken).size
  · rw [if_pos hfull] at hok
    cases hok
  · rw [if_neg hfull] at hok hends
    cases hok
    rcases hends with hless | hidle
    · -- Input is left only where the head has no room for it.
      have hlen := congrArg List.length htaken
      rw [List.length_take] at hlen
      omega
    · have hnil : (buffer ++ taken).size = 0 := by
        injection hidle with hnil
        rw [hnil]
        rfl
      have hpos := List.length_pos_iff.mpr hne
      omega

theorem readHead_append_of_closes (hnone : Head.hasEnding buffer.toList = false)
    (hcloses : (r.readHead events buffer input).Closes input) (more : Bytes) :
    r.readHead events buffer (input ++ more) = r.readHead events buffer input := by
  by_cases hfull : r.limits.maxHeadLength ≤ buffer.size
  · rw [readHead_full hfull, readHead_full hfull]
  generalize htaken : input.take (r.limits.maxHeadLength - buffer.size) = taken
  by_cases hne : taken = []
  · -- Without any input there is nothing to read.
    have hinput : input = [] := by
      rw [hne, List.take_eq_nil_iff] at htaken
      exact htaken.resolve_left (by omega)
    obtain ⟨n, hok, -⟩ := hcloses
    rw [hinput] at hok
    simp [readHead, fail] at hok
  obtain ⟨after, hlonger⟩ : ∃ after,
      (input ++ more).take (r.limits.maxHeadLength - buffer.size) = taken ++ after := by
    rw [List.take_append, htaken]
    exact ⟨_, rfl⟩
  cases hending : Head.hasEnding (buffer.toList ++ taken) with
  | false =>
    rw [readHead_of_not_ending hnone htaken hne hending] at hcloses
    exact absurd hcloses (awaitHead_not_closes hne htaken)
  | true =>
    cases hparse : Head.parse kind r.limits.maxFields (buffer.toList ++ taken) with
    | incomplete =>
      rw [Head.hasEnding_of_parse_incomplete hparse] at hending
      cases hending
    | failed error =>
      obtain ⟨n, hok, -⟩ := hcloses
      rw [readHead_of_ending hnone htaken hending, hparse] at hok
      cases hok
    | done head rest =>
      have hlong : Head.parse kind r.limits.maxFields (buffer.toList ++ (taken ++ after)) =
          .done head (rest ++ after) := by
        rw [← List.append_assoc, Head.parse_settled kind _ _ after (by simp [hparse]), hparse]
        rfl
      rw [readHead_of_done hnone hlonger hlong, readHead_of_done hnone htaken hparse]
      simp [Nat.add_sub_add_right]

theorem readLength_append_of_closes {remaining : Nat}
    (hcloses : (r.readLength remaining input).Closes input) (more : Bytes) :
    r.readLength remaining (input ++ more) = r.readLength remaining input := by
  have hle : remaining ≤ input.length := by
    obtain ⟨n, hok, hends⟩ := hcloses
    by_contra hgt
    have htake : input.take remaining = input := List.take_of_length_le (by omega)
    simp only [readLength, htake] at hok hends
    rw [if_neg hgt] at hok hends
    cases hok
    rcases hends with hless | hidle
    · omega
    · cases hidle
  rw [readLength, readLength, List.take_append_of_le_length hle]

theorem readChunks_append_of_closes {decoder : Chunked.Decoder}
    (hcloses : (r.readChunks decoder input).Closes input) (more : Bytes) :
    r.readChunks decoder (input ++ more) = r.readChunks decoder input := by
  obtain ⟨n, hok, hends⟩ := hcloses
  cases houtcome : (decoder.decode input).outcome with
  | more next =>
    simp only [readChunks, houtcome] at hok hends
    cases hok
    rcases hends with hless | hidle
    · exact absurd hless (Nat.lt_irrefl _)
    · cases hidle
  | broken =>
    simp only [readChunks, houtcome] at hok
    cases hok
  | finished rest =>
    have hlong := Chunked.Decoder.decode_append_of_finished houtcome more
    simp only [readChunks, hlong, houtcome, List.length_append, Nat.add_sub_add_right]

end

/-- **A step that ends before its input does** is the same whatever follows the input. Only line
breaks between messages are skipped together with those that follow. -/
theorem step_append {r : Reader kind} (hsound : r.state.Sound r.limits) {input : Bytes}
    (hbreak : r.state = .idle → input.head?.any Byte.isBreak = false)
    (hcloses : (r.step input).Closes input) (more : Bytes) :
    r.step (input ++ more) = r.step input := by
  obtain ⟨limits, state, start⟩ := r
  cases state with
  | switched => rfl
  | failed error => rfl
  | body body =>
    cases body with
    | length remaining => exact readLength_append_of_closes hcloses more
    | chunked decoder => exact readChunks_append_of_closes hcloses more
    | untilEnd =>
      obtain ⟨n, hok, hends⟩ := hcloses
      cases hok
      rcases hends with hless | hidle
      · exact absurd hless (Nat.lt_irrefl _)
      · cases hidle
  | head buffer =>
    cases hbuffer : buffer.isEmpty with
    | false =>
      rw [step_of_buffer _ hbuffer] at hcloses ⊢
      rw [step_of_buffer _ hbuffer]
      exact readHead_append_of_closes hsound.1 hcloses more
    | true =>
      obtain rfl : buffer = #[] := by simpa using hbuffer
      cases input with
      | nil =>
        -- Nothing can be left of no input, and a head that has begun is not over.
        obtain ⟨n, hok, -⟩ := hcloses
        simp [step, readStart, readHead, fail] at hok
      | cons b rest =>
        have hb : Byte.isBreak b = false := by simpa using hbreak rfl
        have hstep : ∀ tail, step (⟨limits, .head #[], start⟩ : Reader kind) (b :: tail) =
            readHead { limits, start } [.messageBegin] #[] (b :: tail) :=
          fun tail => step_idle_of_not_break hb
        rw [hstep] at hcloses ⊢
        rw [List.cons_append, hstep]
        exact readHead_append_of_closes rfl hcloses more

/-! ## Runs that end between messages -/

/-- One step of a run, with more input behind what the run takes. -/
theorem consume_append_of_step {r : Reader kind} (hsound : r.state.Sound r.limits) {b : UInt8}
    {rest : Bytes} {n : Nat} (hn : (r.step (b :: rest)).result = .ok (n + 1))
    (hlast : rest.drop n = [] → (r.step (b :: rest)).reader.state = .idle) (more : Bytes) :
    r.consume (b :: rest ++ more) =
      (r.step (b :: rest)).andThen (·.consume (rest.drop n ++ more)) := by
  by_cases hbreak : r.state = .idle ∧ Byte.isBreak b = true
  · -- The line breaks that are skipped may be followed by others.
    obtain ⟨hstate, hb⟩ := hbreak
    obtain ⟨breaks, tail, rfl, hbreaks, htail⟩ := exists_run Byte.isBreak rest
    obtain ⟨limits, state, start⟩ := r
    subst hstate
    have hall : ∀ c ∈ b :: breaks, Byte.isBreak c = true := by
      rintro c (_ | ⟨_, hc⟩)
      · exact hb
      · exact hbreaks c hc
    have hcut : b :: (breaks ++ tail) ++ more = b :: breaks ++ (tail ++ more) := by simp
    rw [step_idle_of_break hb, takeWhile_run hbreaks htail] at hn ⊢
    obtain rfl : breaks.length = n := by
      cases hn
      rfl
    rw [hcut, consume_breaks rfl hall, List.drop_left]
    rfl
  · have hgoing : r.state ≠ .switched := by
      obtain ⟨limits, state, start⟩ := r
      rintro rfl
      cases hn
    have hle := ((step_stepTo r _).count hsound hgoing (List.cons_ne_nil b rest) hn).2
    have hcloses : (r.step (b :: rest)).Closes (b :: rest) := by
      refine ⟨n + 1, hn, ?_⟩
      by_cases hleft : rest.drop n = []
      · exact .inr (hlast hleft)
      · have hpos := List.length_pos_iff.mpr hleft
        simp only [List.length_drop, List.length_cons] at hpos ⊢
        omega
    have hnobreak : r.state = .idle → (b :: rest).head?.any Byte.isBreak = false := by
      intro hstate
      rw [List.head?_cons, Option.any_some, Bool.eq_false_iff]
      exact fun hb => hbreak ⟨hstate, hb⟩
    have hstep := step_append hsound hnobreak hcloses more
    rw [List.length_cons, Nat.add_le_add_iff_right] at hle
    rw [List.cons_append] at hstep ⊢
    rw [consume_of_ok (hstep ▸ hn), hstep, List.drop_append_of_le_length hle]

/-- **A run that ends between messages** goes on as if what follows were read by itself. -/
theorem consume_append_of_idle {r : Reader kind} (hsound : r.state.Sound r.limits) {input : Bytes}
    {n : Nat} (hok : (r.consume input).result = .ok n)
    (hidle : (r.consume input).reader.state = .idle) (more : Bytes) :
    r.consume (input ++ more) = (r.consume input).andThen (·.consume more) := by
  induction r, input using consume_induction generalizing n with
  | nil r =>
    rw [consume_nil, Progress.none_andThen, List.nil_append]
  | last r b rest hlast =>
    rw [consume_of_last hlast] at hok hidle
    have hgoing : r.state ≠ .switched := by
      obtain ⟨limits, state, start⟩ := r
      rintro rfl
      cases hidle
    have hpos := ((step_stepTo r _).count hsound hgoing (List.cons_ne_nil b rest) hok).1
    obtain ⟨m, rfl⟩ : ∃ m, n = m + 1 := ⟨n - 1, by omega⟩
    exact absurd hok (hlast m)
  | more r b rest m hm ih =>
    rw [consume_of_ok hm, Progress.andThen_of_ok hm] at hok hidle
    dsimp only at hok hidle
    have hlast : rest.drop m = [] → (r.step (b :: rest)).reader.state = .idle := by
      intro hnil
      rwa [hnil, consume_nil] at hidle
    rw [consume_append_of_step hsound hm hlast more, consume_of_ok hm, Progress.andThen_assoc]
    refine Progress.andThen_congr fun k _ => ?_
    cases hlater : ((r.step (b :: rest)).reader.consume (rest.drop m)).result with
    | error error =>
      rw [hlater] at hok
      cases hok
    | ok k => exact ih ((step_stepTo r _).sound hsound) hlater hidle

/-! ## Readers that have been used -/

/-- The readers that calls and resets lead to, with what they have reported since they were new or
were last reset. A reset gives up the message at hand, so that is never completed. -/
inductive Used : Reader kind → List Event → Prop where
  | new (limits : Limits) : Used { limits } []
  | feed {r : Reader kind} {events : List Event} (h : Used r events) (input : Bytes) :
      Used (r.feed input).reader (events ++ (r.feed input).events)
  | reset {r : Reader kind} {events : List Event} (h : Used r events) : Used r.reset []

section
variable {r s : Reader kind} {events : List Event}

theorem Used.sound_follows (h : Used r events) : r.state.Sound r.limits ∧ r.Follows events := by
  induction h with
  | new limits => exact ⟨State.sound_idle limits, follows_of_reported rfl⟩
  | feed h input ih => exact ⟨feed_sound ih.1 input, feed_follows ih.1 ih.2 input⟩
  | reset h ih => exact ⟨State.sound_idle _, follows_of_reported rfl⟩

/-- Whether a reader tells by its own report that it is between messages: it goes on, and every
message that has begun has been completed. -/
structure Balanced (r : Reader kind) (events : List Event) : Prop where
  going : ∀ error, r.state ≠ .failed error
  stays : r.isSwitched = false
  balance : completed events = begun events

/-- **The report tells the state.** -/
theorem Follows.idle (h : r.Follows events) (hbalanced : r.Balanced events) : r.state = .idle := by
  rcases (h.balanced_iff hbalanced.going).mp hbalanced.balance with hidle | hswitched
  · exact hidle
  · have hstays := hbalanced.stays
    rw [isSwitched, hswitched] at hstays
    cases hstays

/-- Readers that are alike stay alike over all calls. -/
theorem Alike.feedAll (h : r.Alike s) (inputs : List Bytes) :
    (r.feedAll inputs).events = (s.feedAll inputs).events ∧
      (r.feedAll inputs).results = (s.feedAll inputs).results := by
  induction inputs generalizing r s with
  | nil => exact ⟨rfl, rfl⟩
  | cons input inputs ih =>
    have hfirst := h.feed input
    obtain ⟨hevents, hresults⟩ := ih hfirst.reader
    rw [Reader.feedAll, Reader.feedAll]
    exact ⟨by rw [hfirst.events, hevents], by rw [hfirst.result, hresults]⟩

end

/-! ## Messages in a row -/

/-- Whether a new reader reads some input as complete messages: it succeeds, and is between messages
in the end. -/
structure ReadsWhole (kind : Kind) (limits : Limits) (input : Bytes) : Prop where
  ok : ∃ n, (({ limits } : Reader kind).feed input).result = .ok n
  stays : (({ limits } : Reader kind).feed input).reader.isSwitched = false
  balance : completed (({ limits } : Reader kind).feed input).events =
    begun (({ limits } : Reader kind).feed input).events

section
variable {limits : Limits}

/-- It is between messages then, and has consumed all of the input. -/
theorem ReadsWhole.consume {input : Bytes} (h : ReadsWhole kind limits input) :
    (({ limits } : Reader kind).consume input).result = .ok input.length ∧
      (({ limits } : Reader kind).consume input).reader.state = .idle := by
  obtain ⟨⟨n, hok⟩, hstays, hbalance⟩ := h
  have hnew : ({ limits } : Reader kind).Follows [] := follows_of_reported rfl
  have hfollows := feed_follows (State.sound_idle limits) hnew input
  have hidle := hfollows.idle ⟨feed_ne_failed (by simp [State.idle]) hok, hstays, hbalance⟩
  have hfeed : ({ limits } : Reader kind).feed input = ({ limits } : Reader kind).consume input :=
    feed_of_idle rfl input
  refine ⟨?_, hfeed ▸ hidle⟩
  rw [← hfeed, hok]
  by_cases hempty : input = []
  · subst hempty
    cases hok
    rfl
  · obtain ⟨hle, hleft⟩ := (feedsExactly (State.sound_idle limits) hempty).count n hok
    have hall : ¬ n < input.length := fun hless => by simp [hstays] at hleft; omega
    rw [Nat.le_antisymm hle (Nat.le_of_not_lt hall)]

/-- **Messages in a row are read one by one.** -/
theorem consume_flatten {messages : List Bytes}
    (h : ∀ message ∈ messages, ReadsWhole kind limits message) :
    (({ limits } : Reader kind).consume messages.flatten).events =
        messages.flatMap (fun message => (({ limits } : Reader kind).feed message).events) ∧
      (({ limits } : Reader kind).consume messages.flatten).result =
        .ok messages.flatten.length := by
  induction messages with
  | nil =>
    rw [List.flatten_nil, consume_nil]
    exact ⟨rfl, rfl⟩
  | cons message messages ih =>
    obtain ⟨hevents, hresult⟩ := ih fun later hmem => h later (List.mem_cons_of_mem _ hmem)
    obtain ⟨hok, hidle⟩ := (h message List.mem_cons_self).consume
    -- Behind the first message the reader is like a new one.
    have hlimits : (({ limits } : Reader kind).consume message).reader.limits = limits :=
      limits_consume _ _
    have halike := (alike_of_idle hidle).consume messages.flatten
    rw [hlimits] at halike
    rw [List.flatten_cons, consume_append_of_idle (State.sound_idle limits) hok hidle,
      Progress.andThen_of_ok hok, List.flatMap_cons, feed_of_idle rfl]
    dsimp only
    rw [halike.events, halike.result, hevents, hresult]
    refine ⟨rfl, ?_⟩
    rw [List.length_append]
    rfl

end

/-- **Between messages a reader is as good as new.** Whatever calls and resets it has been through,
a reader that has just been reset, or that goes on and has completed every message that has begun,
returns and reports in every sequence of calls what a new reader with its limits does. So what is
reported of messages in a row, each of which a new reader reads as a whole, is what is reported of
each of them in turn; if the stream comes in other pieces it is that up to how bodies are cut. -/
theorem reads_as_new (kind : Kind) :
    (∀ (r : Reader kind) (events : List Event), Used r events →
      ((∃ s : Reader kind, r = s.reset) ∨ r.Balanced events) → ∀ inputs,
        (r.feedAll inputs).events = (({ limits := r.limits } : Reader kind).feedAll inputs).events ∧
        (r.feedAll inputs).results =
          (({ limits := r.limits } : Reader kind).feedAll inputs).results) ∧
    (∀ (limits : Limits) (messages : List Bytes),
      (∀ message ∈ messages, ReadsWhole kind limits message) →
        let whole := ({ limits } : Reader kind).feed messages.flatten
        let alone := messages.flatMap fun message => (({ limits } : Reader kind).feed message).events
        whole.events = alone ∧ whole.result = .ok messages.flatten.length ∧
          ∀ pieces : List Bytes, (∀ piece ∈ pieces, piece ≠ []) →
            pieces.flatten = messages.flatten →
              joinBodies (({ limits } : Reader kind).feedAll pieces).events = joinBodies alone) := by
  refine ⟨fun r events hused hbetween inputs => ?_, fun limits messages hmessages => ?_⟩
  · have hidle : r.state = .idle := by
      rcases hbetween with ⟨s, rfl⟩ | hbalanced
      · rfl
      · exact hused.sound_follows.2.idle hbalanced
    exact (alike_of_idle hidle).feedAll inputs
  · intro whole alone
    have hwhole : whole = ({ limits } : Reader kind).consume messages.flatten := feed_of_idle rfl _
    obtain ⟨hevents, hresult⟩ := consume_flatten hmessages
    rw [← hwhole] at hevents hresult
    refine ⟨hevents, hresult, fun pieces hne hpieces => ?_⟩
    have hcome := feedAll_flatten (r := ({ limits } : Reader kind)) (State.sound_idle limits) hne
    rw [hpieces, ← hwhole] at hcome
    rw [hcome.events, hevents]

/-- A request without a body, and a line break behind it. -/
def plainRequest : Bytes := Utf8.encode "GET /a HTTP/1.1\r\n\r\n\r\n"

/-- A request with chunks. -/
def chunkedRequest : Bytes :=
  Utf8.encode "POST /b HTTP/1.1\r\nTransfer-Encoding: chunked\r\n\r\n1\r\nx\r\n0\r\n\r\n"

theorem plainRequest_reads_as_new :
    let used := ({} : Reader .request).feed plainRequest
    let requests := [plainRequest, chunkedRequest]
    (Used used.reader used.events ∧ used.reader.Balanced used.events ∧
        ∀ request ∈ requests, ReadsWhole .request {} request) ∧
      (used.reader.feedAll [chunkedRequest, []]).results =
        (({} : Reader .request).feedAll [chunkedRequest, []]).results ∧
      (({} : Reader .request).feed requests.flatten).events =
        requests.flatMap fun request => (({} : Reader .request).feed request).events := by
  intro used requests
  have hused : Used used.reader used.events := .feed (.new {}) plainRequest
  have hidle : used.reader.state = .idle := by decide +kernel
  have hlimits : used.reader.limits = {} := by decide +kernel
  have hbalanced : used.reader.Balanced used.events := by
    constructor
    · intro error herror
      rw [hidle] at herror
      cases herror
    · decide +kernel
    · decide +kernel
  have hplain : ReadsWhole .request {} plainRequest :=
    ⟨⟨plainRequest.length, by decide +kernel⟩, by decide +kernel, by decide +kernel⟩
  have hchunked : ReadsWhole .request {} chunkedRequest :=
    ⟨⟨chunkedRequest.length, by decide +kernel⟩, by decide +kernel, by decide +kernel⟩
  have hwhole : ∀ request ∈ requests, ReadsWhole .request {} request := by
    simp [requests, hplain, hchunked]
  obtain ⟨hnew, hrow⟩ := reads_as_new .request
  obtain ⟨-, hresults⟩ := hnew used.reader used.events hused (.inr hbalanced) [chunkedRequest, []]
  rw [hlimits] at hresults
  exact ⟨⟨hused, hbalanced, hwhole⟩, hresults, (hrow {} requests hwhole).1⟩

end HttpWire.Reader
