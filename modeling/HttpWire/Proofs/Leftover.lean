import HttpWire.Proofs.Reader.Room
import HttpWire.Proofs.Request.Receive
import HttpWire.Proofs.Response.Receive
/-!
# Bytes that are left over

A request or a response that is fed a stretch of input answers that some of it was left over exactly
when its reader has come to a switch of protocols in front of the end of the stretch. Together with
what a reader consumes, step by step and over a whole stream, that accounts for every byte of every
call that comes back.
-/

namespace HttpWire

/-- An answer is that bytes were left over if the call says so or there are some. -/
theorem Message.answer_unconsumed_iff {m : Message} {result : Except Error Nat}
    {supplied c s : Nat} :
    m.answer result supplied = .error (.unconsumed c s) ↔
      result = .error (.unconsumed c s) ∨ result = .ok c ∧ s = supplied ∧ c < supplied := by
  cases result with
  | error error => simp [answer, Except.bind]
  | ok n =>
    unfold answer Except.bind
    dsimp only
    by_cases hless : n < supplied
    · rw [if_pos hless]
      constructor
      · intro h
        injection h with h
        injection h with hc hs
        subst hc hs
        exact .inr ⟨rfl, rfl, hless⟩
      · rintro (h | ⟨h, rfl, -⟩)
        · cases h
        · cases h
          rfl
    · rw [if_neg hless]
      constructor
      · rintro ⟨⟩
      · rintro (h | ⟨h, -, hc⟩)
        · cases h
        · cases h
          exact absurd hc hless

namespace Reader

variable {kind : Kind}

/-- **Bytes are left over exactly at a switch of protocols.** -/
theorem answer_unconsumed_iff {r : Reader kind} (h : r.Reachable) (m : Message) (input : Bytes)
    (c s : Nat) :
    m.answer (r.feed input).result input.length = .error (.unconsumed c s) ↔
      (r.feed input).reader.isSwitched = true ∧ (r.feed input).result = .ok c ∧
        s = input.length ∧ c < s := by
  rw [Message.answer_unconsumed_iff]
  constructor
  · rintro (herror | ⟨hok, rfl, hless⟩)
    · -- A reader never fails for bytes that it has left over.
      have hfailed := feed_failsForGood r input _ herror
      exact ((h.feed input).findsError _ hfailed).elim
    · have hinput : input ≠ [] := by
        rintro rfl
        exact absurd hless (Nat.not_lt_zero c)
      exact ⟨((feedsExactly h.sound hinput).count c hok).2 hless, hok, rfl, hless⟩
  · rintro ⟨-, hok, rfl, hless⟩
    exact .inr ⟨hok, rfl, hless⟩

end Reader

/-- What parsing some input answers, for anything that is filled by a reader. -/
theorem Receiver.parse_unconsumed_iff {kind : Kind} {σ : Type} (R : Receiver kind σ) {r : σ}
    (h : (R.reader r).Reachable) (input : Bytes) (c s : Nat) :
    (R.parse r input).2 = .error (.unconsumed c s) ↔
      (R.reader (R.parse r input).1).isSwitched = true ∧
        ((R.reader r).feed input).result = .ok c ∧ s = input.length ∧ c < s := by
  rw [R.snd_parse, R.reader_parse]
  exact Reader.answer_unconsumed_iff h _ input c s

/-- Parsing comes back when the call to the reader does. Then it answers that bytes were left over
exactly if the reader has stopped at a switch of protocols and has not consumed all that it was
given. -/
theorem Receiver.parse?_accounts {kind : Kind} {σ : Type} (R : Receiver kind σ) {r : σ}
    (h : (R.reader r).Reachable) (input : Bytes) :
    (R.parse? r input = none ↔ (R.reader r).call? input = none) ∧
      ∀ progress received answer, (R.reader r).call? input = some progress →
        R.parse? r input = some (received, answer) →
          ∀ c s, answer = .error (.unconsumed c s) ↔
            (R.reader received).isSwitched = true ∧ progress.result = .ok c ∧
              s = input.length ∧ c < s := by
  constructor
  · rw [parse?, Reader.call?]
    split <;> simp
  · intro progress received answer hprogress hparsed c s
    rw [Reader.eq_feed_of_call? hprogress]
    rw [parse?] at hparsed
    split at hparsed
    · cases hparsed
    · have hparse : R.parse r input = (received, answer) := Option.some.inj hparsed
      have hiff := R.parse_unconsumed_iff h input c s
      rwa [hparse] at hiff

/-- **Every byte is accounted for.** With given limits, a call to a reader, whatever calls and
resets came before, comes back unless it comes to a complete head and there can be no table of as
many fields as the limits put up with. A call that comes back takes its input in steps that each
consume some of it and never more than there is; the length of a head is never short of what was
buffered of it. A row of calls that succeed consumes the whole stream, or all of it up to the end of
the first head that switches protocols. A request and a response answer that bytes were left over
exactly when their reader has stopped at a switch of protocols and has not consumed all that it was
given. -/
theorem consumption_exact (limits : Limits) :
    (∀ (kind : Kind) (r : Reader kind) (input : Bytes), r.Reachable → r.limits = limits →
      (r.call? input = none ↔ 2 ^ 58 ≤ limits.maxFields ∧ r.ComesToHead input) ∧
        ∀ progress, r.call? input = some progress → input ≠ [] →
          r.FeedsExactly input progress) ∧
    (∀ (kind : Kind) (r : Reader kind) (pieces : List Bytes), r.limits = limits →
      (∀ piece ∈ pieces, piece ≠ []) →
      (r.reset.callAll? pieces = none ↔ 2 ^ 58 ≤ limits.maxFields ∧
        ∃ before piece after, pieces = before ++ piece :: after ∧
          (r.reset.feedAll before).reader.ComesToHead piece) ∧
        ∀ calls counts, r.reset.callAll? pieces = some calls → calls.results = counts.map .ok →
          r.reset.Accounts pieces calls counts) ∧
    (∀ (r : Request) (input : Bytes), r.reader.Reachable → r.reader.limits = limits →
      (r.parse? input = none ↔ r.reader.call? input = none) ∧
        ∀ progress received answer, r.reader.call? input = some progress →
          r.parse? input = some (received, answer) →
            ∀ c s, answer = .error (.unconsumed c s) ↔
              received.reader.isSwitched = true ∧ progress.result = .ok c ∧
                s = input.length ∧ c < s) ∧
    (∀ (r : Response) (input : Bytes), r.reader.Reachable → r.reader.limits = limits →
      (r.parse? input = none ↔ r.reader.call? input = none) ∧
        ∀ progress received answer, r.reader.call? input = some progress →
          r.parse? input = some (received, answer) →
            ∀ c s, answer = .error (.unconsumed c s) ↔
              received.reader.isSwitched = true ∧ progress.result = .ok c ∧
                s = input.length ∧ c < s) := by
  refine ⟨?_, ?_, fun r input h _ => Request.receiver.parse?_accounts h input,
    fun r input h _ => Response.receiver.parse?_accounts h input⟩
  · rintro kind r input h rfl
    refine ⟨Reader.call?_eq_none_iff h.sound, fun progress hcall hinput => ?_⟩
    rw [Reader.eq_feed_of_call? hcall]
    exact Reader.feedsExactly h.sound hinput
  · rintro kind r pieces rfl hne
    refine ⟨Reader.callAll?_eq_none_iff (Reader.State.sound_idle _), ?_⟩
    intro calls counts hcalls hresults
    rw [Reader.eq_feedAll_of_callAll? hcalls] at hresults ⊢
    exact Reader.accounts rfl hne hresults

/-- A CONNECT request, cut inside its empty line, and a byte behind it. -/
def tunnelHead : Bytes := Utf8.encode "CONNECT a:1 HTTP/1.1\r\n\r"

/-- The rest of that. -/
def tunnelRest : Bytes := Utf8.encode "\nx"

theorem consumption_of_tunnel :
    let r : Request := { reader := (({} : Reader .request).feed tunnelHead).reader }
    (r.reader.Reachable ∧ tunnelRest ≠ []) ∧
      (∃ progress, r.reader.call? tunnelRest = some progress ∧
        r.reader.FeedsExactly tunnelRest progress) ∧
      (∃ calls, ({} : Reader .request).reset.callAll? [tunnelHead, tunnelRest] = some calls ∧
        ({} : Reader .request).reset.Accounts [tunnelHead, tunnelRest] calls [23, 1]) ∧
      ∃ received, r.parse? tunnelRest = some (received, .error (.unconsumed 1 2)) := by
  intro r
  have hreach : r.reader.Reachable := .feed (.new {}) tunnelHead
  have hne : tunnelRest ≠ [] := by decide
  have hpieces : ∀ piece ∈ [tunnelHead, tunnelRest], piece ≠ [] := by decide
  have hroom : r.reader.lacksRoom tunnelRest = false := by decide +kernel
  have hcall : r.reader.call? tunnelRest = some (r.reader.feed tunnelRest) := by
    rw [Reader.call?, hroom]
    rfl
  have hparse : r.parse? tunnelRest = some (r.parse tunnelRest) := by
    rw [Request.parse?, hroom]
    rfl
  obtain ⟨hone, hall, hrequest, -⟩ := consumption_exact {}
  obtain ⟨hnone, hcounts⟩ := hall .request {} [tunnelHead, tunnelRest] rfl hpieces
  have hlimits : r.reader.limits = {} := Reader.limits_feed _ _
  refine ⟨⟨hreach, hne⟩, ⟨_, hcall, (hone .request _ _ hreach hlimits).2 _ hcall hne⟩, ?_, ?_⟩
  · cases hcalls : ({} : Reader .request).reset.callAll? [tunnelHead, tunnelRest] with
    | none =>
      have hlimit := (hnone.mp hcalls).1
      exact absurd hlimit (by decide)
    | some calls =>
      have hresults : (({} : Reader .request).reset.feedAll [tunnelHead, tunnelRest]).results =
          [23, 1].map .ok := by decide +kernel
      rw [← Reader.eq_feedAll_of_callAll? hcalls] at hresults
      exact ⟨calls, rfl, hcounts calls [23, 1] hcalls hresults⟩
  · have hleft : (r.parse tunnelRest).1.reader.isSwitched = true ∧
        (r.reader.feed tunnelRest).result = .ok 1 ∧ 2 = tunnelRest.length ∧ 1 < 2 := by
      decide +kernel
    obtain ⟨received, answer, heq⟩ : ∃ received answer, r.parse tunnelRest = (received, answer) :=
      ⟨_, _, rfl⟩
    rw [heq] at hparse hleft
    have hanswer := ((hrequest r tunnelRest hreach hlimits).2 _ _ _ hcall hparse 1 2).mpr hleft
    exact ⟨received, hanswer ▸ hparse⟩

/-- A reader that puts up with more field lines than there can be a table for. -/
def roomlessReader : Reader .request := { limits := { maxFields := 2 ^ 60 } }

/-- A complete head without any field lines. -/
def plainHead : Bytes := Utf8.encode "GET / HTTP/1.1\r\n\r\n"

/-- Between two messages a call with a complete head does not come back. -/
theorem roomlessReader_stops :
    roomlessReader.Reachable ∧ roomlessReader.state = .idle ∧ plainHead ≠ [] ∧
      roomlessReader.call? plainHead = none := by
  refine ⟨.new _, rfl, by decide, ?_⟩
  have hlacks : roomlessReader.lacksRoom plainHead = true := by decide +kernel
  rw [Reader.call?, if_pos hlacks]

end HttpWire
