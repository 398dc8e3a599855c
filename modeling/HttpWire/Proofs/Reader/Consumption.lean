import HttpWire.Proofs.Reader.Calls
import Mathlib.Algebra.GroupWithZero.Nat
/-!
# What is consumed

A call consumes its input step by step, and each step consumes some of what the step before has
left. So it takes no more steps than there are bytes, and leaves bytes over only at a switch of
protocols. Over a whole stream the bytes that are left over are those behind the first head that
switches protocols.
-/

namespace HttpWire.Reader

variable {kind : Kind}

/-! ## Reachable readers -/

/-- The readers that calls and resets lead to. -/
inductive Reachable : Reader kind → Prop where
  | new (limits : Limits) : Reachable { limits }
  | feed {r : Reader kind} (h : Reachable r) (input : Bytes) : Reachable (r.feed input).reader
  | reset {r : Reader kind} (h : Reachable r) : Reachable r.reset

theorem Reachable.sound {r : Reader kind} (h : r.Reachable) : r.state.Sound r.limits := by
  induction h with
  | new limits => exact State.sound_idle limits
  | feed h input ih => exact feed_sound ih input
  | reset h ih => exact State.sound_idle _

theorem Reachable.feedAll {r : Reader kind} (h : r.Reachable) (inputs : List Bytes) :
    (r.feedAll inputs).reader.Reachable := by
  induction inputs generalizing r with
  | nil => exact h
  | cons input inputs ih => exact ih (h.feed input)

theorem StepTo.findsError {r : Reader kind} {input : Bytes} {p : Progress kind}
    (h : r.StepTo input p) (hr : ∀ error, r.state = .failed error → FindsError error)
    {error : Error} (hfailed : p.reader.state = .failed error) : FindsError error := by
  cases hresult : p.result with
  | ok n => exact absurd hfailed (h.ne_failed hresult error)
  | error error' =>
    cases h with
    | failed error hevents herror =>
      cases hfailed
      exact herror.elim (hr error) id
    | _ => cases hresult

theorem FinishTo.findsError {r : Reader kind} {p : Progress kind} (h : r.FinishTo p)
    (hr : ∀ error, r.state = .failed error → FindsError error) {error : Error}
    (hfailed : p.reader.state = .failed error) : FindsError error := by
  cases h with
  | cutOff hinside =>
    cases hfailed
    trivial
  | failed error' hstate =>
    cases hfailed
    exact hr error hstate
  | _ => cases hfailed

/-- **A reader fails for what it finds in its stream**, not for what it has left over. -/
theorem Reachable.findsError {r : Reader kind} (h : r.Reachable) :
    ∀ error, r.state = .failed error → FindsError error := by
  induction h with
  | new limits =>
    intro error hfailed
    cases hfailed
  | reset h ih =>
    intro error hfailed
    cases hfailed
  | feed h input ih =>
    refine feed_keeps (fun r _ => ∀ error, r.state = .failed error → FindsError error)
      (fun r _ input _ hr error hfailed => ?_) (fun r _ hr error hfailed => ?_) [] ih input
    · exact (step_stepTo r input).findsError hr hfailed
    · exact (finish_finishTo r).findsError hr hfailed

/-- So a run never fails for that either. -/
theorem Reachable.findsError_of_consume {r : Reader kind} (h : r.Reachable) {input : Bytes}
    {error : Error} (herror : (r.consume input).result = .error error) : FindsError error := by
  have hinput : input ≠ [] := by
    rintro rfl
    rw [consume_nil] at herror
    cases herror
  rw [← feed_of_ne_nil hinput] at herror
  exact (h.feed input).findsError error (feed_failsForGood r input error herror)

/-! ## Step by step -/

/-- `Steps k r input s rest`: after `k` steps over its input a reader is `s`, and `rest` is left.
Nothing in it lets a step go that consumes nothing. -/
inductive Steps : Nat → Reader kind → Bytes → Reader kind → Bytes → Prop where
  | none (r : Reader kind) (input : Bytes) : Steps 0 r input r input
  | more {k n : Nat} {r s : Reader kind} {input rest : Bytes} (hinput : input ≠ [])
      (hgoing : r.state ≠ .switched) (hok : (r.step input).result = .ok n)
      (hlater : Steps k (r.step input).reader (input.drop n) s rest) : Steps (k + 1) r input s rest

theorem Steps.sound {k : Nat} {r s : Reader kind} {input rest : Bytes}
    (h : Steps k r input s rest) (hsound : r.state.Sound r.limits) : s.state.Sound s.limits := by
  induction h with
  | none r input => exact hsound
  | more hinput hgoing hok hlater ih => exact ih ((step_stepTo _ _).sound hsound)

/-- How the steps of a call end: at the end of the input or at a switch of protocols, and then the
call has consumed what they have, or with the failure of the call. -/
inductive Ends (p : Progress kind) (input : Bytes) (s : Reader kind) (rest : Bytes) : Prop where
  | stopped (n : Nat) (hend : rest = [] ∨ s.state = .switched) (hreader : p.reader = s)
      (hok : p.result = .ok n) (hcount : n + rest.length = input.length)
  | failed (error : Error) (hrest : rest ≠ []) (hstep : (s.step rest).result = .error error)
      (herror : p.result = .error error)

/-- The steps behind a first one end the run as they end the call over what the first one left. -/
theorem Ends.andThen {s : Reader kind} {first : Progress kind} {next : Reader kind → Progress kind}
    {input rest : Bytes} {n : Nat} (hfirst : first.result = .ok n) (hn : n ≤ input.length)
    (h : Ends (next first.reader) (input.drop n) s rest) : Ends (first.andThen next) input s rest := by
  rw [Progress.andThen_of_ok hfirst]
  cases h with
  | stopped m hend hreader hok hcount =>
    rw [List.length_drop] at hcount
    refine .stopped (n + m) hend hreader ?_ (by omega)
    dsimp only
    rw [hok]
    rfl
  | failed error hrest hstep herror =>
    refine .failed error hrest hstep ?_
    dsimp only
    rw [herror]
    rfl

/-- **A run is made of steps that all consume something**, so there are no more of them than there
are bytes. -/
theorem consume_steps {r : Reader kind} (hsound : r.state.Sound r.limits) (input : Bytes) :
    ∃ k s rest, k + rest.length ≤ input.length ∧ Steps k r input s rest ∧
      Ends (r.consume input) input s rest := by
  induction r, input using consume_induction with
  | nil r =>
    rw [consume_nil]
    exact ⟨0, r, [], Nat.le_refl _, .none r [], .stopped 0 (.inl rfl) rfl rfl rfl⟩
  | last r b rest hlast =>
    have hne : b :: rest ≠ [] := List.cons_ne_nil b rest
    refine ⟨0, r, b :: rest, Nat.le_of_eq (Nat.zero_add _), .none r _, ?_⟩
    by_cases hswitched : r.state = .switched
    · rw [consume_of_switched hswitched]
      exact .stopped 0 (.inr hswitched) rfl rfl (Nat.zero_add _)
    · rw [consume_of_last hlast]
      cases hresult : (r.step (b :: rest)).result with
      | error error => exact .failed error hne hresult hresult
      | ok n =>
        -- A step that is not the last one consumes something.
        have hpos := ((step_stepTo r _).count hsound hswitched hne hresult).1
        obtain ⟨m, rfl⟩ : ∃ m, n = m + 1 := ⟨n - 1, by omega⟩
        exact absurd hresult (hlast m)
  | more r b rest n hn ih =>
    have hne : b :: rest ≠ [] := List.cons_ne_nil b rest
    have hgoing : r.state ≠ .switched := by
      obtain ⟨limits, state, start⟩ := r
      rintro rfl
      cases hn
    have hcount := ((step_stepTo r _).count hsound hgoing hne hn).2
    obtain ⟨k, s, left, hlen, hsteps, hends⟩ := ih ((step_stepTo r (b :: rest)).sound hsound)
    refine ⟨k + 1, s, left, ?_, .more hne hgoing hn hsteps, ?_⟩
    · rw [List.length_drop] at hlen
      rw [List.length_cons] at hcount ⊢
      omega
    · rw [consume_of_ok hn]
      exact hends.andThen hn hcount

/-- No run consumes more than there is. -/
theorem le_of_consume_ok {r : Reader kind} (hsound : r.state.Sound r.limits) {input : Bytes}
    {n : Nat} (hok : (r.consume input).result = .ok n) : n ≤ input.length := by
  obtain ⟨k, s, rest, -, -, hends⟩ := consume_steps hsound input
  cases hends with
  | failed error hrest hstep herror =>
    rw [herror] at hok
    cases hok
  | stopped m hend hreader hok' hcount =>
    rw [hok'] at hok
    cases hok
    omega

/-- **What a call does with its input**, if this is what comes of it. -/
structure FeedsExactly (r : Reader kind) (input : Bytes) (p : Progress kind) : Prop where
  /-- Every step on the way that succeeds consumes something, and no more than it was given. -/
  step_count : ∀ k s rest, Steps k r input s rest → rest ≠ [] → s.state ≠ .switched →
    ∀ n, (s.step rest).result = .ok n → 0 < n ∧ n ≤ rest.length
  /-- A head that is complete in what is buffered and what a step takes is a block at the front of
  it, which ends behind what was buffered and within what is taken. -/
  head_count : ∀ k s rest buffer taken, Steps k r input s rest → s.state = .head buffer →
    taken = rest.take (s.limits.maxHeadLength - buffer.size) →
    ∀ head left, Head.parse kind s.limits.maxFields (buffer.toList ++ taken) = .done head left →
      ∃ block, buffer.toList ++ taken = block ++ left ∧ buffer.size < block.length ∧
        block.length ≤ buffer.size + taken.length
  /-- The call ends after no more steps than there are bytes. -/
  ends : ∃ k s rest, k + rest.length ≤ input.length ∧ Steps k r input s rest ∧
    Ends p input s rest
  /-- It consumes no more than there is, and all of it unless it has come to a switch of
  protocols. -/
  count : ∀ n, p.result = .ok n →
    n ≤ input.length ∧ (n < input.length → p.reader.isSwitched = true)

theorem feedsExactly {r : Reader kind} (hsound : r.state.Sound r.limits) {input : Bytes}
    (hinput : input ≠ []) : r.FeedsExactly input (r.feed input) where
  step_count k s rest hsteps hrest hgoing n hn :=
    (step_stepTo s rest).count (hsteps.sound hsound) hgoing hrest hn
  head_count k s rest buffer taken hsteps hstate htaken head left hparse := by
    have hs := hsteps.sound hsound
    rw [hstate] at hs
    have hlen := Head.length_of_parse_done hs.1 hparse
    obtain ⟨block, heq, -, -⟩ := Head.parse_block hparse
    have hboth := congrArg List.length heq
    simp only [List.length_append, Array.length_toList] at hboth
    exact ⟨block, heq, by omega, by omega⟩
  ends := by
    rw [feed_of_ne_nil hinput]
    exact consume_steps hsound input
  count n hn := by
    rw [feed_of_ne_nil hinput] at hn ⊢
    obtain ⟨k, s, rest, -, -, hends⟩ := consume_steps hsound input
    cases hends with
    | failed error hrest hstep herror =>
      rw [herror] at hn
      cases hn
    | stopped m hend hreader hok hcount =>
      rw [hok] at hn
      cases hn
      refine ⟨by omega, fun hless => ?_⟩
      rcases hend with rfl | hswitched
      · rw [List.length_nil] at hcount
        omega
      · rw [hreader, isSwitched, hswitched]
        rfl

/-! ## Whole streams -/

/-- Where the first head that switches protocols is in a stream: behind `before`, which leaves the
reader between messages, and `block` is all of it. -/
structure SwitchesAt (r : Reader kind) (before block : Bytes) : Prop where
  between : (r.feed before).reader.state = .idle
  consumed : (r.feed before).result = .ok before.length
  head : ∃ head start, Head.parse kind r.limits.maxFields block = .done head [] ∧
    head.start.start = .ok start ∧ Framing.LeavesProtocol kind start head.fields

/-- Whether these are the last bytes of a stream, and a reader that has consumed all before them is
between messages. -/
def HoldsLast (r : Reader kind) (stream last : Bytes) : Prop :=
  ∃ before, stream = before ++ last ∧ (r.consume before).reader.state = .idle ∧
    (r.consume before).result = .ok before.length

theorem HoldsLast.snoc {r : Reader kind} {stream last : Bytes} (h : r.HoldsLast stream last)
    (b : UInt8) : r.HoldsLast (stream ++ [b]) (last ++ [b]) := by
  obtain ⟨before, rfl, hbefore⟩ := h
  exact ⟨before, List.append_assoc .., hbefore⟩

/-- What a reader has consumed of a stream. Inside a head it holds what has come of the head. -/
inductive Consumed (r : Reader kind) (stream : Bytes) : Prop where
  /-- It has failed. -/
  | failed (error : Error) (herror : (r.consume stream).result = .error error)
  /-- It has consumed all of it and goes on. -/
  | whole (hgoing : (r.consume stream).reader.state ≠ .switched)
      (hok : (r.consume stream).result = .ok stream.length)
      (hhead : ∀ buffer, (r.consume stream).reader.state = .head buffer →
        r.HoldsLast stream buffer.toList)
  /-- It has stopped behind a head that switches protocols. -/
  | upToSwitch (before block behind : Bytes)
      (hswitched : (r.consume stream).reader.state = .switched)
      (hstream : stream = before ++ block ++ behind) (hswitch : r.SwitchesAt before block)
      (hok : (r.consume stream).result = .ok (before ++ block).length)

theorem consume_singleton {r : Reader kind} (hsound : r.state.Sound r.limits) (b : UInt8) :
    (r.consume [b]).Agree (r.step [b]) := by
  have hcons := consume_cons hsound b []
  cases hresult : (r.step [b]).result with
  | error error => rwa [Progress.andThen_of_error hresult] at hcons
  | ok n =>
    rw [Progress.andThen_of_ok hresult, consume_nil] at hcons
    obtain ⟨hevents, hreader, hcount⟩ := hcons
    refine ⟨?_, hreader, hcount.trans hresult.symm⟩
    rwa [Progress.none, List.append_nil] at hevents

/-- A run over one byte more takes one step more. -/
theorem consume_snoc {r : Reader kind} (hsound : r.state.Sound r.limits) (stream : Bytes)
    (b : UInt8) :
    (r.consume (stream ++ [b])).Agree ((r.consume stream).andThen (·.step [b])) := by
  refine (consume_append hsound stream [b]).trans (Progress.Agree.andThen (.refl _) fun _ _ => ?_)
  exact consume_singleton (consume_sound hsound stream) b

section
variable {r : Reader kind} {stream : Bytes}

theorem consumed_of_idle (hidle : (r.consume stream).reader.state = .idle)
    (hok : (r.consume stream).result = .ok stream.length) : r.Consumed stream := by
  refine .whole (by rw [hidle]; rintro ⟨⟩) hok fun buffer hbuffer => ⟨stream, ?_, hidle, hok⟩
  rw [hidle] at hbuffer
  cases hbuffer
  exact (List.append_nil stream).symm

theorem consumed_of_body {body : Body} (hbody : (r.consume stream).reader.state = .body body)
    (hok : (r.consume stream).result = .ok stream.length) : r.Consumed stream := by
  refine .whole (by rw [hbody]; rintro ⟨⟩) hok fun buffer hbuffer => ?_
  rw [hbody] at hbuffer
  cases hbuffer

/-- To a reader between messages the end of the input is no input. -/
theorem feed_of_idle (hidle : r.state = .idle) (input : Bytes) : r.feed input = r.consume input := by
  by_cases hempty : input = []
  · obtain ⟨limits, state, start⟩ := r
    subst hidle hempty
    rw [consume_nil]
    rfl
  · exact feed_of_ne_nil hempty

/-- One byte more, to a reader that goes on. -/
theorem consumed_snoc (hnew : r.state = .idle) (hsound : r.state.Sound r.limits) {b : UInt8}
    (hgoing : (r.consume stream).reader.state ≠ .switched)
    (hok : (r.consume stream).result = .ok stream.length)
    (hhead : ∀ buffer, (r.consume stream).reader.state = .head buffer →
      r.HoldsLast stream buffer.toList) : r.Consumed (stream ++ [b]) := by
  have hlimits := limits_consume r stream
  have hs := consume_sound hsound stream
  obtain ⟨-, hreader, hresult⟩ := consume_snoc hsound stream b
  rw [Progress.andThen_of_ok hok] at hreader hresult
  dsimp only at hreader hresult
  have hstep := step_stepTo (r.consume stream).reader [b]
  have hone : ∀ n, ((r.consume stream).reader.step [b]).result = .ok n →
      n = 1 ∧ (r.consume (stream ++ [b])).result = .ok (stream ++ [b]).length := by
    intro n hn
    have hcount := hstep.count hs hgoing (List.cons_ne_nil b []) hn
    rw [List.length_singleton] at hcount
    obtain rfl : n = 1 := by omega
    rw [hresult, hn]
    exact ⟨rfl, by simp [Except.map]⟩
  generalize (r.consume stream).reader = s at *
  generalize s.step [b] = p at *
  cases hstep with
  | failed error hevents => exact .failed error hresult
  | skipped n hstate => exact consumed_of_idle (congrArg _ hreader) (hone n rfl).2
  | read pieces body n hstate => exact consumed_of_body (congrArg _ hreader) (hone n rfl).2
  | completed pieces n hstate => exact consumed_of_idle (congrArg _ hreader) (hone n rfl).2
  | stopped hstate => exact absurd hstate hgoing
  | @waited old buffer n hstate hbuffer hkeeps htaken =>
    obtain ⟨rfl, hall⟩ := hone n rfl
    refine .whole (by rw [hreader]; rintro ⟨⟩) hall fun buffer' hbuffer' => ?_
    rw [hreader] at hbuffer'
    cases hbuffer'
    rw [htaken]
    exact (hhead old hstate).snoc b
  | @opened old head start framing n hstate hkind hstart hframing hparse =>
    obtain ⟨rfl, hall⟩ := hone n rfl
    cases framing with
    | chunked => exact consumed_of_body (congrArg _ hreader) hall
    | untilEnd => exact consumed_of_body (congrArg _ hreader) hall
    | length n =>
      cases n with
      | zero => exact consumed_of_idle (congrArg _ hreader) hall
      | succ n => exact consumed_of_body (congrArg _ hreader) hall
    | protocolSwitch =>
      obtain ⟨before, hstream, hidle, hbefore⟩ := (hhead old hstate).snoc b
      have hblock := hparse hs
      rw [hlimits] at hblock
      rw [← feed_of_idle hnew] at hidle hbefore
      refine .upToSwitch before (old.toList ++ [b]) [] (congrArg _ hreader) ?_
        ⟨hidle, hbefore, head, start, hblock, hstart, Framing.leaves_of_protocolSwitch hframing⟩ ?_
      · rw [List.append_nil, hstream]
      · rw [hall, hstream]

/-- **Of a stream all is consumed, or all up to the end of the first head that switches
protocols.** -/
theorem consumed (hidle : r.state = .idle) (stream : Bytes) : r.Consumed stream := by
  have hsound := sound_of_idle hidle
  induction stream using List.reverseRecOn with
  | nil => exact consumed_of_idle (by rw [consume_nil]; exact hidle) (by rw [consume_nil]; rfl)
  | append_singleton stream b ih =>
    obtain ⟨-, hreader, hresult⟩ := consume_append hsound stream [b]
    cases ih with
    | whole hgoing hok hhead => exact consumed_snoc hidle hsound hgoing hok hhead
    | failed error herror =>
      rw [Progress.andThen_of_error herror] at hresult
      exact .failed error (hresult.trans herror)
    | upToSwitch before block behind hswitched hstream hswitch hok =>
      rw [Progress.andThen_of_ok hok, consume_of_switched hswitched] at hreader hresult
      refine .upToSwitch before block (behind ++ [b]) ?_ ?_ hswitch (hresult.trans rfl)
      · rw [hreader]
        exact hswitched
      · rw [hstream, List.append_assoc]

end

/-- What several successful calls consume in all. -/
theorem sum_of_addUp {counts : List Nat} {result : Except Error Nat}
    (h : AddUp (counts.map .ok) result) : result = .ok counts.sum := by
  induction counts generalizing result with
  | nil =>
    cases h
    rfl
  | cons n counts ih =>
    cases h with
    | count n later =>
      rw [ih later, List.sum_cons]
      rfl

/-- **What a row of successful calls consumes of a stream**, if this is what comes of them. -/
inductive Accounts (r : Reader kind) (pieces : List Bytes) (calls : Calls kind)
    (counts : List Nat) : Prop where
  /-- All of it. -/
  | whole (hgoing : calls.reader.isSwitched = false) (hcount : counts.sum = pieces.flatten.length)
  /-- All up to the end of the first head that switches protocols. -/
  | upToSwitch (before block behind : Bytes) (hswitched : calls.reader.isSwitched = true)
      (hstream : pieces.flatten = before ++ block ++ behind) (hswitch : r.SwitchesAt before block)
      (hcount : counts.sum = (before ++ block).length)

theorem accounts {r : Reader kind} (hidle : r.state = .idle) {pieces : List Bytes}
    (hne : ∀ piece ∈ pieces, piece ≠ []) {counts : List Nat}
    (hresults : (r.feedAll pieces).results = counts.map .ok) :
    r.Accounts pieces (r.feedAll pieces) counts := by
  have hsound := sound_of_idle hidle
  obtain ⟨-, hreader, hadd⟩ := feedAll_flatten hsound hne
  rw [hresults] at hadd
  have hsum := sum_of_addUp hadd
  cases consumed hidle pieces.flatten with
  | failed error herror =>
    rw [herror] at hsum
    cases hsum
  | whole hgoing hok hhead =>
    rw [hok] at hsum
    refine .whole ?_ (Except.ok.inj hsum).symm
    rw [hreader]
    simpa [isSwitched] using hgoing
  | upToSwitch before block behind hswitched hstream hswitch hok =>
    rw [hok] at hsum
    refine .upToSwitch before block behind ?_ hstream hswitch (Except.ok.inj hsum).symm
    rw [hreader, isSwitched, hswitched]
    rfl

/-- When a run consumes a whole stream, each call consumes its piece of it. -/
theorem results_of_whole {r : Reader kind} (hsound : r.state.Sound r.limits) {pieces : List Bytes}
    (hne : ∀ piece ∈ pieces, piece ≠ [])
    (hwhole : (r.consume pieces.flatten).result = .ok pieces.flatten.length) :
    (r.feedAll pieces).results = pieces.map fun piece => .ok piece.length := by
  induction pieces generalizing r with
  | nil => rfl
  | cons piece pieces ih =>
    have hfeed : r.feed piece = r.consume piece := feed_of_ne_nil (hne piece (by simp))
    have hlater := consume_sound hsound piece
    rw [List.flatten_cons, (consume_append hsound piece pieces.flatten).result] at hwhole
    cases hfirst : (r.consume piece).result with
    | error error =>
      rw [Progress.andThen_of_error hfirst, hfirst] at hwhole
      cases hwhole
    | ok n =>
      rw [Progress.andThen_of_ok hfirst] at hwhole
      dsimp only at hwhole
      cases hrest : ((r.consume piece).reader.consume pieces.flatten).result with
      | error error =>
        rw [hrest] at hwhole
        cases hwhole
      | ok m =>
        -- Neither call consumes too much, so neither consumes too little.
        have hn := le_of_consume_ok hsound hfirst
        have hm := le_of_consume_ok hlater hrest
        rw [hrest, List.length_append] at hwhole
        have hsum : n + m = piece.length + pieces.flatten.length := Except.ok.inj hwhole
        have hpiece : n = piece.length := by omega
        have hpieces : m = pieces.flatten.length := by omega
        have hresults := ih hlater (fun piece hmem => hne piece (by simp [hmem]))
          (by rw [hrest, hpieces])
        rw [feedAll, hfeed]
        dsimp only
        rw [hresults, hfirst, hpiece, List.map_cons]

end HttpWire.Reader
