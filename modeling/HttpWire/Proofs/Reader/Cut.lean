import HttpWire.Proofs.Chunked.Cut
import HttpWire.Proofs.Head.Cut
import HttpWire.Proofs.Reader.Run
/-!
# Reading cut input

Where its input is cut makes no difference to a reader. The statement about one byte carries the
rest: what a run does with `b :: rest` is what the step on `b` alone and a run over `rest` do
(`consume_cons`). So every run agrees with the one that takes its input byte by byte, and those
compose.

A step on all of the input either does no more than the step on its first byte, or what follows
that byte falls to the step after it (`consume_cons_of_same`, `consume_cons_of_next`). Which of
the two it is depends on the state alone, except in a head, where it depends on whether the byte
completes the empty line.
-/

namespace HttpWire.Reader

variable {kind : Kind}

/-! ## Heads -/

/-- A call behind `events` and `consumed` bytes. -/
def Progress.behind (events : List Event) (consumed : Nat) (p : Progress kind) : Progress kind :=
  ⟨events ++ p.events, p.reader, p.result.map (consumed + ·)⟩

theorem behind_behind (events events' : List Event) (n m : Nat) (p : Progress kind) :
    .behind events n (.behind events' m p) = Progress.behind (events ++ events') (n + m) p := by
  cases hresult : p.result <;>
    simp [Progress.behind, Except.map, hresult, Nat.add_assoc]

theorem moveTo_andThen (r : Reader kind) (events : List Event) (state : State) (n : Nat)
    (next : Reader kind → Progress kind) :
    (r.moveTo events state n).andThen next = .behind events n (next { r with state }) := rfl

/-- A step that moves on, and a run over the rest. -/
theorem consume_of_moveTo {r s : Reader kind} {input : Bytes} {events : List Event} {state : State}
    {n : Nat} (hstep : r.step input = s.moveTo events state n) (hn : 0 < n) (hinput : input ≠ []) :
    r.consume input = .behind events n (consume { s with state } (input.drop n)) := by
  obtain ⟨b, rest, rfl⟩ := List.exists_cons_of_ne_nil hinput
  obtain ⟨m, rfl⟩ : ∃ m, n = m + 1 := ⟨n - 1, by omega⟩
  have hcount : (r.step (b :: rest)).result = .ok (m + 1) := by
    rw [hstep]
    rfl
  rw [consume_of_ok hcount, hstep, moveTo_andThen, List.drop_succ_cons]

theorem fail_behind (r : Reader kind) (events : List Event) (error : Error) (n : Nat) :
    r.fail events error = .behind events n (r.fail [] error) := by
  simp [fail, Progress.behind, Except.map]

theorem openMessage_behind (r : Reader kind) (events : List Event) (head : Head) (n m : Nat) :
    r.openMessage events head (n + m) = .behind events n (r.openMessage [] head m) := by
  rw [openMessage, openMessage]
  cases head.start.start with
  | error error => simp [fail, Progress.behind, Except.map]
  | ok start =>
    dsimp only
    cases Framing.ofHead kind start head.fields with
    | error error => simp [fail, Progress.behind, Except.map]
    | ok framing => simp [moveTo, Progress.behind, Except.map]

theorem awaitHead_behind (r : Reader kind) (events : List Event) (buffer : Array UInt8)
    (n m : Nat) :
    r.awaitHead events buffer (n + m) = .behind events n (r.awaitHead [] buffer m) := by
  rw [awaitHead, awaitHead]
  split <;> simp [fail, moveTo, Progress.behind, Except.map]

section
variable {r : Reader kind} {events : List Event} {buffer : Array UInt8} {input taken : Bytes}

/-- A head for which there is no room left fails, whatever comes. -/
theorem readHead_full (h : r.limits.maxHeadLength ≤ buffer.size) :
    r.readHead events buffer input = r.fail events .headTooLarge := by
  simp [readHead, Nat.sub_eq_zero_of_le h]

theorem readHead_of_not_ending (hnone : Head.hasEnding buffer.toList = false)
    (htaken : input.take (r.limits.maxHeadLength - buffer.size) = taken) (hne : taken ≠ [])
    (hending : Head.hasEnding (buffer.toList ++ taken) = false) :
    r.readHead events buffer input = r.awaitHead events (buffer ++ taken) taken.length := by
  simp [readHead, htaken, hne, Head.completesEnding_eq hnone, hending]

/-- With the empty line in, the grammar decides. -/
theorem readHead_of_ending (hnone : Head.hasEnding buffer.toList = false)
    (htaken : input.take (r.limits.maxHeadLength - buffer.size) = taken)
    (hending : Head.hasEnding (buffer.toList ++ taken) = true) :
    r.readHead events buffer input =
      match Head.parse kind r.limits.maxFields (buffer.toList ++ taken) with
      | .done head rest => r.openMessage events head (taken.length - rest.length)
      | .incomplete => r.awaitHead events (buffer ++ taken) taken.length
      | .failed error => r.fail events error := by
  have hne : taken ≠ [] := by
    intro heq
    subst heq
    rw [List.append_nil, hnone] at hending
    cases hending
  have hcount : ∀ n, buffer.size + taken.length - n - buffer.size = taken.length - n := by omega
  simp only [readHead, htaken, List.isEmpty_eq_false_iff.mpr hne, Head.completesEnding_eq hnone,
    hending, hcount]
  rfl

end

/-- A head that is complete is taken up to its end. -/
theorem readHead_of_done {r : Reader kind} {events : List Event} {buffer : Array UInt8}
    {input taken rest : Bytes} {head : Head} (hnone : Head.hasEnding buffer.toList = false)
    (htaken : input.take (r.limits.maxHeadLength - buffer.size) = taken)
    (hdone : Head.parse kind r.limits.maxFields (buffer.toList ++ taken) = .done head rest) :
    r.readHead events buffer input = r.openMessage events head (taken.length - rest.length) := by
  have hending : Head.hasEnding (buffer.toList ++ taken) = true := by
    obtain ⟨block, heq, hend⟩ := Head.hasEnding_of_parse_done hdone
    rw [heq]
    exact Head.hasEnding_append_left hend rest
  rw [readHead_of_ending hnone htaken hending, hdone]

/-- **The byte that completes the empty line** is the last one that the head takes, whatever
stands behind it. -/
theorem readHead_at_ending {r : Reader kind} (events : List Event) {buffer : Array UInt8}
    {b : UInt8} (hnone : Head.hasEnding buffer.toList = false)
    (hroom : buffer.size < r.limits.maxHeadLength)
    (hending : Head.hasEnding (buffer.toList ++ [b]) = true) :
    (∃ head, Head.parse kind r.limits.maxFields (buffer.toList ++ [b]) = .done head [] ∧
      ∀ rest, r.readHead events buffer (b :: rest) = r.openMessage events head 1) ∨
    (∃ error, Head.parse kind r.limits.maxFields (buffer.toList ++ [b]) = .failed error ∧
      ∀ rest, r.readHead events buffer (b :: rest) = r.fail events error) := by
  obtain ⟨room, hroom⟩ : ∃ room, r.limits.maxHeadLength - buffer.size = room + 1 :=
    ⟨r.limits.maxHeadLength - buffer.size - 1, by omega⟩
  have hread : ∀ rest, r.readHead events buffer (b :: rest) =
      match (Head.parse kind r.limits.maxFields (buffer.toList ++ [b])).extend (rest.take room) with
      | .done head after =>
        r.openMessage events head ((b :: rest.take room).length - after.length)
      | .incomplete =>
        r.awaitHead events (buffer ++ b :: rest.take room) (b :: rest.take room).length
      | .failed error => r.fail events error := by
    intro rest
    have htaken : (b :: rest).take (r.limits.maxHeadLength - buffer.size) =
        b :: rest.take room := by
      rw [hroom, List.take_succ_cons]
    have happend : buffer.toList ++ b :: rest.take room =
        buffer.toList ++ [b] ++ rest.take room := by
      simp
    have hmore := Head.hasEnding_append_left hending (rest.take room)
    have hwait : Head.parse kind r.limits.maxFields (buffer.toList ++ [b]) ≠ .incomplete := by
      intro hinc
      rw [Head.hasEnding_of_parse_incomplete hinc] at hending
      cases hending
    rw [readHead_of_ending hnone htaken (happend ▸ hmore), happend,
      Head.parse_settled kind _ _ _ hwait]
  -- The grammar has made up its mind with `b`, so what follows is only left over.
  obtain ⟨head, hdone⟩ | ⟨error, hfailed⟩ := Head.parse_of_ending hnone hending
  · refine .inl ⟨head, hdone, fun rest => ?_⟩
    rw [hread, hdone]
    simp [Scan.extend]
  · exact .inr ⟨error, hfailed, fun rest => by rw [hread, hfailed]; rfl⟩

/-- A byte that completes no empty line is buffered, and the head goes on behind it. -/
theorem readHead_before_ending {r : Reader kind} {events : List Event} {buffer : Array UInt8}
    {b : UInt8} {rest : Bytes} (hnone : Head.hasEnding buffer.toList = false)
    (hroom : buffer.size + 1 < r.limits.maxHeadLength)
    (hending : Head.hasEnding (buffer.push b).toList = false) (hrest : rest ≠ []) :
    r.readHead events buffer (b :: rest) =
      .behind events 1 (r.readHead [] (buffer.push b) rest) := by
  have hsize : r.limits.maxHeadLength - buffer.size =
      r.limits.maxHeadLength - (buffer.push b).size + 1 := by
    rw [Array.size_push]
    omega
  generalize htaken : rest.take (r.limits.maxHeadLength - (buffer.push b).size) = taken
  have htaken' : (b :: rest).take (r.limits.maxHeadLength - buffer.size) = b :: taken := by
    rw [hsize, List.take_succ_cons, htaken]
  have hne : taken ≠ [] := by
    intro heq
    subst heq
    rw [List.take_eq_nil_iff, Array.size_push] at htaken
    rcases htaken with hzero | hnil
    · omega
    · exact hrest hnil
  -- Both calls put the same bytes before the grammar, with `b` in the buffer or in the input.
  have hlist : buffer.toList ++ b :: taken = (buffer.push b).toList ++ taken := by simp
  have hbuffer : buffer ++ (b :: taken) = buffer.push b ++ taken := by
    apply Array.ext'
    simp
  have hlen : (b :: taken).length = 1 + taken.length := by
    rw [List.length_cons, Nat.add_comm]
  cases hend : Head.hasEnding ((buffer.push b).toList ++ taken) with
  | false =>
    rw [readHead_of_not_ending hnone htaken' (List.cons_ne_nil _ _) (hlist ▸ hend),
      readHead_of_not_ending hending htaken hne hend, hbuffer, hlen, awaitHead_behind]
  | true =>
    rw [readHead_of_ending hnone htaken' (hlist ▸ hend), readHead_of_ending hending htaken hend,
      hlist]
    cases hscan : Head.parse kind r.limits.maxFields ((buffer.push b).toList ++ taken) with
    | incomplete =>
      rw [Head.hasEnding_of_parse_incomplete hscan] at hend
      cases hend
    | failed error => exact fail_behind r events error 1
    | done head rest' =>
      have hrest' := Head.length_of_parse_done hending hscan
      have hcount : (b :: taken).length - rest'.length = 1 + (taken.length - rest'.length) := by
        rw [hlen]
        omega
      dsimp only
      rw [hcount, openMessage_behind]

/-! ## Every step consumes something -/

theorem ok_of_openMessage {r : Reader kind} {events : List Event} {head : Head} {n m : Nat}
    (h : (r.openMessage events head n).result = .ok m) : m = n := by
  rw [openMessage] at h
  split at h
  · cases h
  · dsimp only at h
    split at h
    · cases h
    · cases h
      rfl

theorem ok_of_awaitHead {r : Reader kind} {events : List Event} {buffer : Array UInt8} {n m : Nat}
    (h : (r.awaitHead events buffer n).result = .ok m) : m = n := by
  rw [awaitHead] at h
  split at h
  · cases h
  · cases h
    rfl

/-- **Only a reader that has stopped leaves its input alone.** -/
theorem step_ne_zero {r : Reader kind} {input : Bytes} (hsound : r.state.Sound r.limits)
    (hgoing : r.state ≠ .switched) (hinput : input ≠ []) : (r.step input).result ≠ .ok 0 := by
  intro hzero
  have hpos := ((step_stepTo r input).count hsound hgoing hinput hzero).1
  omega

/-! ## One byte at a time -/

section
variable {r : Reader kind} {b : UInt8} {rest : Bytes}

/-- The step does no more than the step on its first byte. -/
theorem consume_cons_of_same (h : (r.step (b :: rest)).Agree (r.step [b]))
    (hone : ∀ n, (r.step [b]).result = .ok n → n = 1) :
    (r.consume (b :: rest)).Agree ((r.step [b]).andThen (·.consume rest)) := by
  cases hresult : (r.step [b]).result with
  | error error =>
    rw [consume_of_error (h.result.trans hresult), Progress.andThen_of_error hresult]
    exact h
  | ok n =>
    obtain rfl := hone n hresult
    rw [consume_of_ok (h.result.trans hresult)]
    exact h.andThen fun _ _ => .refl _

/-- The step looks at its first byte only. -/
theorem consume_cons_of_first {p : Progress kind} (h : ∀ tail, r.step (b :: tail) = p)
    (hcount : ∀ n, p.result = .ok n → n = 1) :
    (r.consume (b :: rest)).Agree ((r.step [b]).andThen (·.consume rest)) := by
  have hone := h []
  apply consume_cons_of_same
  · rw [h rest, hone]
    exact .refl _
  · rwa [hone]

/-- What the step does behind its first byte, the next step does. -/
theorem consume_cons_of_next (hone : (r.step [b]).result = .ok 1)
    (h : rest ≠ [] → (r.step (b :: rest)).Agree ((r.step [b]).andThen (·.step rest)))
    (hpos : rest ≠ [] → ((r.step [b]).reader.step rest).result ≠ .ok 0) :
    (r.consume (b :: rest)).Agree ((r.step [b]).andThen (·.consume rest)) := by
  cases rest with
  | nil =>
    refine consume_cons_of_same (.refl _) fun n hn => ?_
    rw [hone] at hn
    cases hn
    rfl
  | cons c tail =>
    have hagree := h (List.cons_ne_nil c tail)
    have hresult := hagree.result
    rw [Progress.andThen_of_ok hone] at hresult
    cases hnext : ((r.step [b]).reader.step (c :: tail)).result with
    | error error =>
      rw [hnext] at hresult
      rw [consume_of_error hresult]
      refine hagree.trans (Progress.Agree.andThen (.refl _) fun n _ => ?_)
      rw [consume_of_error hnext]
      exact .refl _
    | ok n =>
      cases n with
      | zero => exact absurd hnext (hpos (List.cons_ne_nil c tail))
      | succ n =>
        -- Both steps together are one step, so the runs behind them start at the same byte.
        have hcount : (r.step (b :: c :: tail)).result = .ok (n + 1 + 1) := by
          rw [hresult, hnext]
          simp only [Except.map, Except.ok.injEq]
          omega
        have hdrop : (c :: tail).drop (n + 1) = tail.drop n := rfl
        rw [consume_of_ok hcount, hdrop]
        refine (hagree.andThen fun _ _ => .refl _).trans ?_
        rw [Progress.andThen_assoc]
        refine Progress.Agree.andThen (.refl _) fun m _ => ?_
        rw [consume_of_ok hnext]
        exact .refl _

/-- The step on the first byte moves on, and the rest of the step starts where it led. -/
theorem consume_cons_of_move {events : List Event} {state : State}
    (hmove : r.step [b] = r.base.moveTo events state 1) (hsound : state.Sound r.limits)
    (hgoing : state ≠ .switched)
    (h : rest ≠ [] →
      (r.step (b :: rest)).Agree (.behind events 1 (step { r.base with state } rest))) :
    (r.consume (b :: rest)).Agree ((r.step [b]).andThen (·.consume rest)) := by
  refine consume_cons_of_next ?_ (fun hrest => ?_) fun hrest => ?_
  · rw [hmove]
    rfl
  · rw [hmove, moveTo_andThen]
    exact h hrest
  · rw [hmove]
    exact step_ne_zero hsound hgoing hrest

end

/-! ### Heads -/

theorem step_of_buffer {limits : Limits} {start : Start} {buffer : Array UInt8} (input : Bytes)
    (h : buffer.isEmpty = false) :
    step (⟨limits, .head buffer, start⟩ : Reader kind) input =
      readHead { limits, start } [] buffer input := by
  rw [step, if_neg (by simp [h])]

theorem consume_cons_of_readHead {r : Reader kind} {events : List Event} {buffer : Array UInt8}
    {b : UInt8} {rest : Bytes}
    (hstep : ∀ tail, r.step (b :: tail) = r.base.readHead events buffer (b :: tail))
    (hnone : Head.hasEnding buffer.toList = false) :
    (r.consume (b :: rest)).Agree ((r.step [b]).andThen (·.consume rest)) := by
  by_cases hfull : r.base.limits.maxHeadLength ≤ buffer.size
  · have hfail : ∀ tail, r.step (b :: tail) = r.base.fail events .headTooLarge :=
      fun tail => (hstep tail).trans (readHead_full hfull)
    refine consume_cons_of_first hfail fun n hn => ?_
    cases hn
  have hroom : buffer.size < r.base.limits.maxHeadLength := by omega
  cases hending : Head.hasEnding (buffer.toList ++ [b]) with
  | true =>
    obtain ⟨head, -, hread⟩ | ⟨error, -, hread⟩ :=
      readHead_at_ending events hnone hroom hending
    · exact consume_cons_of_first (fun tail => (hstep tail).trans (hread tail))
        fun n hn => ok_of_openMessage hn
    · refine consume_cons_of_first (fun tail => (hstep tail).trans (hread tail)) fun n hn => ?_
      cases hn
  | false =>
    obtain ⟨room, hroom'⟩ : ∃ room, r.base.limits.maxHeadLength - buffer.size = room + 1 :=
      ⟨r.base.limits.maxHeadLength - buffer.size - 1, by omega⟩
    have htaken : [b].take (r.base.limits.maxHeadLength - buffer.size) = [b] := by
      rw [hroom', List.take_succ_cons, List.take_nil]
    have hawait : ∀ {tail}, (b :: tail).take (r.base.limits.maxHeadLength - buffer.size) = [b] →
        r.base.readHead events buffer (b :: tail) =
          r.base.awaitHead events (buffer.push b) 1 := by
      intro tail htail
      have hpush : buffer ++ [b] = buffer.push b := by simp
      rw [readHead_of_not_ending hnone htail (List.cons_ne_nil b []) hending, hpush]
      rfl
    have hone := hawait htaken
    by_cases hlast : r.base.limits.maxHeadLength ≤ (buffer.push b).size
    · -- There is room for this byte only, so the step takes no other.
      have hroom'' : room = 0 := by
        rw [Array.size_push] at hlast
        omega
      have htaken' : (b :: rest).take (r.base.limits.maxHeadLength - buffer.size) = [b] := by
        rw [hroom', hroom'', List.take_succ_cons, List.take_zero]
      refine consume_cons_of_same ?_ ?_ <;> rw [hstep [], hone]
      · rw [hstep rest, hawait htaken']
        exact .refl _
      · exact fun n hn => ok_of_awaitHead hn
    · have hpushed : Head.hasEnding (buffer.push b).toList = false := by simpa using hending
      have hmove : r.step [b] = r.base.moveTo events (.head (buffer.push b)) 1 := by
        rw [hstep [], hone, awaitHead, if_neg hlast]
      have hnext : ({ r.base with state := .head (buffer.push b) } : Reader kind).step rest =
          r.base.readHead [] (buffer.push b) rest := step_of_buffer rest (by simp)
      have hroom'' : buffer.size + 1 < r.base.limits.maxHeadLength := by
        rw [Array.size_push] at hlast
        omega
      refine consume_cons_of_move hmove ⟨hpushed, Nat.le_of_not_le hlast⟩ (by simp) fun hrest => ?_
      rw [hnext, hstep rest, readHead_before_ending hnone hroom'' hpushed hrest]
      exact .refl _

/-! ### Bodies -/

theorem readLength_cons (r : Reader kind) (remaining : Nat) (b : UInt8) (rest : Bytes) :
    (r.readLength (remaining + 1) (b :: rest)).Agree
      (.behind [.body [b]] 1 (r.readLength remaining rest)) := by
  have hpiece : (b :: rest).take (remaining + 1) = b :: rest.take remaining := List.take_succ_cons
  simp only [readLength, hpiece, List.length_cons, Nat.add_le_add_iff_right, Nat.add_sub_add_right]
  generalize rest.take remaining = piece
  split
  · refine ⟨rfl, rfl, ?_⟩
    simp [complete, moveTo, Progress.behind, Except.map, Nat.add_comm]
  · refine ⟨rfl, rfl, ?_⟩
    simp [moveTo, Progress.behind, Except.map, Nat.add_comm]

theorem consume_cons_of_length {limits : Limits} {start : Start} {remaining : Nat} {b : UInt8}
    {rest : Bytes} (hsound : 0 < remaining) :
    let r : Reader kind := ⟨limits, .body (.length remaining), start⟩
    (r.consume (b :: rest)).Agree ((r.step [b]).andThen (·.consume rest)) := by
  intro r
  obtain ⟨n, rfl⟩ : ∃ n, remaining = n + 1 := ⟨remaining - 1, by omega⟩
  have hstep : ∀ input, r.step input = r.base.readLength (n + 1) input := fun _ => rfl
  cases n with
  | zero =>
    -- The byte is the last of the body.
    have hlast : ∀ tail, r.step (b :: tail) = r.base.complete [.body [b]] 1 := by
      intro tail
      simp [hstep, readLength]
    refine consume_cons_of_first hlast fun n hn => ?_
    cases hn
    rfl
  | succ n =>
    have hmove : r.step [b] = r.base.moveTo [.body [b]] (.body (.length (n + 1))) 1 := by
      simp [hstep, readLength]
    refine consume_cons_of_move hmove (Nat.succ_pos n) (by simp) fun _ => ?_
    rw [hstep]
    exact readLength_cons r.base (n + 1) b rest

theorem consume_cons_of_untilEnd {limits : Limits} {start : Start} {b : UInt8} {rest : Bytes} :
    let r : Reader kind := ⟨limits, .body .untilEnd, start⟩
    (r.consume (b :: rest)).Agree ((r.step [b]).andThen (·.consume rest)) := by
  intro r
  have hmove : r.step [b] = r.base.moveTo [.body [b]] (.body .untilEnd) 1 := rfl
  refine consume_cons_of_move hmove trivial (by simp) fun _ => ⟨rfl, rfl, ?_⟩
  simp [r, step, moveTo, Progress.behind, Except.map, Nat.add_comm]

/-- What a reader does about some decoded input. -/
def closeChunks (r : Reader kind) (decoded : Chunked.Decoded) (length : Nat) : Progress kind :=
  match decoded.outcome with
  | .more decoder => r.moveTo (decoded.pieces.map .body) (.body (.chunked decoder)) length
  | .finished rest => r.complete (decoded.pieces.map .body) (length - rest.length)
  | .broken => r.fail (decoded.pieces.map .body) .invalidChunkSize

theorem closeChunks_agree {r : Reader kind} {p q : Chunked.Decoded} {length : Nat}
    (h : p.Same q) (hp : ∀ piece ∈ p.pieces, piece ≠ []) (hq : ∀ piece ∈ q.pieces, piece ≠ []) :
    (closeChunks r p length).Agree (closeChunks r q length) := by
  have hevents := Event.joinBodies_map_body_congr hp hq h.payload
  rw [closeChunks, closeChunks, h.outcome]
  cases q.outcome with
  | more decoder => exact ⟨hevents, rfl, rfl⟩
  | finished rest => exact ⟨Event.joinBodies_append_congr hevents rfl, rfl, rfl⟩
  | broken => exact ⟨hevents, rfl, rfl⟩

theorem closeChunks_behind (r : Reader kind) (decoded : Chunked.Decoded) (front : List Bytes)
    {n length : Nat} (hlen : ∀ rest, decoded.outcome = .finished rest → rest.length ≤ length) :
    closeChunks r ⟨front ++ decoded.pieces, decoded.outcome⟩ (n + length) =
      .behind (front.map .body) n (closeChunks r decoded length) := by
  rw [closeChunks, closeChunks]
  cases houtcome : decoded.outcome with
  | more decoder => simp [moveTo, Progress.behind, Except.map]
  | broken => simp [fail, Progress.behind, Except.map]
  | finished rest =>
    have hcount : n + length - rest.length = n + (length - rest.length) := by
      have := hlen rest houtcome
      omega
    simp [complete, moveTo, Progress.behind, Except.map, hcount]

theorem consume_cons_of_chunked {limits : Limits} {start : Start} {decoder : Chunked.Decoder}
    {b : UInt8} {rest : Bytes} :
    let r : Reader kind := ⟨limits, .body (.chunked decoder), start⟩
    (r.consume (b :: rest)).Agree ((r.step [b]).andThen (·.consume rest)) := by
  intro r
  have hstep : ∀ input, r.step input = closeChunks r.base (decoder.decode input) input.length :=
    fun _ => rfl
  have hpieces : ∀ {d : Chunked.Decoder} {input : Bytes}, ∀ piece ∈ (d.decode input).pieces,
      piece ≠ [] := fun _ => Chunked.Decoder.pieces_ne_nil
  have hcut := Chunked.Decoder.decode_append decoder [b] rest
  rw [List.singleton_append] at hcut
  cases houtcome : (decoder.decode [b]).outcome with
  | more next =>
    have hmove : r.step [b] =
        r.base.moveTo ((decoder.decode [b]).pieces.map .body) (.body (.chunked next)) 1 := by
      rw [hstep, closeChunks, houtcome]
      rfl
    have hnext : ({ r.base with state := .body (.chunked next) } : Reader kind).step rest =
        closeChunks r.base (next.decode rest) rest.length := rfl
    rw [Chunked.Decoded.feed, houtcome] at hcut
    refine consume_cons_of_move hmove trivial (by simp) fun _ => ?_
    rw [hnext, hstep, List.length_cons, Nat.add_comm,
      ← closeChunks_behind r.base (next.decode rest) _
        fun after hfinished => Nat.le_of_lt (Chunked.Decoder.length_of_decode_finished hfinished)]
    refine closeChunks_agree hcut hpieces fun piece hpiece => ?_
    rcases List.mem_append.mp hpiece with hfirst | hlater
    · exact hpieces piece hfirst
    · exact hpieces piece hlater
  | finished after =>
    have hafter := Chunked.Decoder.length_of_decode_finished houtcome
    rw [List.length_singleton, Nat.lt_one_iff, List.length_eq_zero_iff] at hafter
    subst hafter
    have hdone : r.step [b] = r.base.complete ((decoder.decode [b]).pieces.map .body) 1 := by
      rw [hstep, closeChunks, houtcome]
      rfl
    rw [Chunked.Decoded.feed, houtcome] at hcut
    refine consume_cons_of_same ?_ ?_ <;> rw [hdone]
    · rw [hstep]
      refine (closeChunks_agree hcut hpieces hpieces).trans ?_
      simp only [closeChunks, List.nil_append, List.length_cons, Nat.add_sub_cancel_left]
      exact .refl _
    · intro n hn
      cases hn
      rfl
  | broken =>
    have hfail : r.step [b] = r.base.fail ((decoder.decode [b]).pieces.map .body)
        .invalidChunkSize := by
      rw [hstep, closeChunks, houtcome]
    rw [Chunked.Decoded.feed, houtcome] at hcut
    refine consume_cons_of_same ?_ ?_ <;> rw [hfail]
    · rw [hstep]
      refine (closeChunks_agree hcut hpieces hpieces).trans ?_
      rw [closeChunks, houtcome]
      exact .refl _
    · intro n hn
      cases hn

/-! ### Between messages -/

theorem step_idle_of_break {limits : Limits} {start : Start} {b : UInt8} {rest : Bytes}
    (h : Byte.isBreak b = true) :
    step (⟨limits, .idle, start⟩ : Reader kind) (b :: rest) =
      moveTo { limits, start } [] .idle ((rest.takeWhile Byte.isBreak).length + 1) := by
  simp [step, State.idle, readStart, h]

theorem step_idle_of_not_break {limits : Limits} {start : Start} {b : UInt8} {rest : Bytes}
    (h : Byte.isBreak b = false) :
    step (⟨limits, .idle, start⟩ : Reader kind) (b :: rest) =
      readHead { limits, start } [.messageBegin] #[] (b :: rest) := by
  simp [step, State.idle, readStart, h]

/-- Line breaks between messages are skipped one by one as well as all at once. -/
theorem consume_cons_of_break {limits : Limits} {start : Start} {b : UInt8} {rest : Bytes}
    (hb : Byte.isBreak b = true) :
    let r : Reader kind := ⟨limits, .idle, start⟩
    (r.consume (b :: rest)).Agree ((r.step [b]).andThen (·.consume rest)) := by
  intro r
  have hone : r.step [b] = r.base.moveTo [] .idle 1 := step_idle_of_break hb
  have hsame : rest.takeWhile Byte.isBreak = [] →
      (r.consume (b :: rest)).Agree ((r.step [b]).andThen (·.consume rest)) := by
    intro hrest
    refine consume_cons_of_same ?_ ?_ <;> rw [hone]
    · rw [step_idle_of_break hb, hrest]
      exact .refl _
    · intro n hn
      cases hn
      rfl
  cases rest with
  | nil => exact hsame rfl
  | cons c tail =>
    cases hc : Byte.isBreak c with
    | false => exact hsame (by simp [hc])
    | true =>
      have hnext : ({ r.base with state := .idle } : Reader kind).step (c :: tail) =
          moveTo { limits, start } [] .idle ((tail.takeWhile Byte.isBreak).length + 1) :=
        step_idle_of_break hc
      refine consume_cons_of_move hone (State.sound_idle _) (by simp [State.idle]) fun _ => ?_
      rw [hnext, step_idle_of_break hb, List.takeWhile_cons_of_pos hc]
      refine ⟨rfl, rfl, ?_⟩
      simp [moveTo, Progress.behind, Except.map, Nat.add_comm]

/-! ### The law of one byte -/

/-- Behind a switch of protocols nothing is read. -/
theorem consume_of_switched {r : Reader kind} (h : r.state = .switched) (input : Bytes) :
    r.consume input = .none r := by
  obtain ⟨limits, state, start⟩ := r
  subst h
  cases input with
  | nil => exact consume_nil _
  | cons b rest => exact consume_of_ok_zero rfl

/-- **One byte, then the rest.** -/
theorem consume_cons {r : Reader kind} (hsound : r.state.Sound r.limits) (b : UInt8)
    (rest : Bytes) : (r.consume (b :: rest)).Agree ((r.step [b]).andThen (·.consume rest)) := by
  obtain ⟨limits, state, start⟩ := r
  cases state with
  | failed error =>
    refine consume_cons_of_first (fun _ => rfl) fun n hn => ?_
    cases hn
  | switched =>
    have hstep : step (⟨limits, .switched, start⟩ : Reader kind) [b] =
        .none ⟨limits, .switched, start⟩ := rfl
    rw [hstep, Progress.none_andThen, consume_of_switched rfl, consume_of_switched rfl]
    exact .refl _
  | body body =>
    cases body with
    | length remaining => exact consume_cons_of_length hsound
    | chunked decoder => exact consume_cons_of_chunked
    | untilEnd => exact consume_cons_of_untilEnd
  | head buffer =>
    cases hbuffer : buffer.isEmpty with
    | false =>
      exact consume_cons_of_readHead (fun tail => step_of_buffer _ hbuffer) hsound.1
    | true =>
      obtain rfl : buffer = #[] := by simpa using hbuffer
      cases hb : Byte.isBreak b with
      | true => exact consume_cons_of_break hb
      | false => exact consume_cons_of_readHead (fun tail => step_idle_of_not_break hb) rfl

/-! ## Runs -/

/-- Takes the input byte by byte. -/
def byBytes (r : Reader kind) : Bytes → Progress kind
  | [] => .none r
  | b :: rest => (r.step [b]).andThen fun r => byBytes r rest

theorem byBytes_append (r : Reader kind) (a b : Bytes) :
    byBytes r (a ++ b) = (byBytes r a).andThen fun r => byBytes r b := by
  induction a generalizing r with
  | nil => exact (Progress.none_andThen r fun r => byBytes r b).symm
  | cons x a ih =>
    rw [List.cons_append, byBytes, byBytes, Progress.andThen_assoc]
    exact congrArg _ (funext ih)

/-- **A run is its bytes.** -/
theorem consume_agree_byBytes {r : Reader kind} (hsound : r.state.Sound r.limits)
    (input : Bytes) : (r.consume input).Agree (byBytes r input) := by
  induction input generalizing r with
  | nil =>
    rw [consume_nil]
    exact .refl _
  | cons b rest ih =>
    refine (consume_cons hsound b rest).trans (Progress.Agree.andThen (.refl _) fun _ _ => ?_)
    exact ih ((step_stepTo r [b]).sound hsound)

/-- **A run over cut input** is a run up to the cut and a run from there. -/
theorem consume_append {r : Reader kind} (hsound : r.state.Sound r.limits) (a b : Bytes) :
    (r.consume (a ++ b)).Agree ((r.consume a).andThen (·.consume b)) := by
  have ha := consume_agree_byBytes hsound a
  refine (consume_agree_byBytes hsound (a ++ b)).trans ?_
  rw [byBytes_append]
  refine ha.symm.andThen fun _ _ => ?_
  exact (consume_agree_byBytes (consume_sound hsound a) b).symm

end HttpWire.Reader
