import HttpWire.Proofs.Reader.Pieces
/-!
# Calls in a row

What holds over every sequence of calls, the calls that tell the end of the input among them. What
a step keeps and the end of the input keeps, all calls keep (`feedAll_keeps`), and a reader that has
failed or has stopped at a switch of protocols is past all calls.
-/

namespace HttpWire.Reader

variable {kind : Kind}

/-! ## One call -/

theorem feed_failsForGood (r : Reader kind) (input : Bytes) : (r.feed input).FailsForGood := by
  by_cases hempty : input = []
  · rw [hempty, feed_nil]
    exact (finish_finishTo r).failsForGood
  · rw [feed_of_ne_nil hempty]
    exact consume_failsForGood r input

/-- **Every call keeps a reader sound.** -/
theorem feed_sound {r : Reader kind} (hsound : r.state.Sound r.limits) (input : Bytes) :
    (r.feed input).reader.state.Sound (r.feed input).reader.limits := by
  by_cases hempty : input = []
  · rw [hempty, feed_nil]
    exact (finish_finishTo r).sound
  · rw [feed_of_ne_nil hempty]
    exact consume_sound hsound input

/-- A reader that has stopped at a switch of protocols consumes nothing. -/
theorem feed_of_switched {r : Reader kind} (h : r.state = .switched) (input : Bytes) :
    r.feed input = .none r := by
  by_cases hempty : input = []
  · obtain ⟨limits, state, start⟩ := r
    subst h hempty
    rfl
  · rw [feed_of_ne_nil hempty, consume_of_switched h]

section
variable (Keeps : Reader kind → List Event → Prop)
  (hstep : ∀ r events input, input ≠ [] → Keeps r events →
    Keeps (r.step input).reader (events ++ (r.step input).events))
  (hfinish : ∀ r events, Keeps r events → Keeps r.finish.reader (events ++ r.finish.events))
include hstep hfinish

/-- What steps keep and the end of the input keeps, a call keeps, of the reader and of what it has
reported so far. -/
theorem feed_keeps {r : Reader kind} (events : List Event) (hr : Keeps r events) (input : Bytes) :
    Keeps (r.feed input).reader (events ++ (r.feed input).events) := by
  by_cases hempty : input = []
  · rw [hempty, feed_nil]
    exact hfinish r events hr
  · rw [feed_of_ne_nil hempty]
    exact consume_keeps_reported Keeps hstep events hr input

/-- **So do all calls in a row.** -/
theorem feedAll_keeps {r : Reader kind} (events : List Event) (hr : Keeps r events)
    (inputs : List Bytes) : Keeps (r.feedAll inputs).reader (events ++ (r.feedAll inputs).events) := by
  induction inputs generalizing r events with
  | nil =>
    show Keeps r (events ++ [])
    rwa [List.append_nil]
  | cons input inputs ih =>
    have hlater := ih _ (feed_keeps Keeps hstep hfinish events hr input)
    rwa [List.append_assoc] at hlater

end

theorem feedAll_sound {r : Reader kind} (hsound : r.state.Sound r.limits) (inputs : List Bytes) :
    (r.feedAll inputs).reader.state.Sound (r.feedAll inputs).reader.limits := by
  refine feedAll_keeps (fun r _ => r.state.Sound r.limits) (fun r _ input _ hr => ?_)
    (fun r _ _ => ?_) [] hsound inputs
  · exact (step_stepTo r input).sound hr
  · exact (finish_finishTo r).sound

theorem limits_feedAll (r : Reader kind) (inputs : List Bytes) :
    (r.feedAll inputs).reader.limits = r.limits := by
  refine feedAll_keeps (fun s _ => s.limits = r.limits) (fun s _ input _ hs => ?_)
    (fun s _ hs => ?_) [] rfl inputs
  · exact (step_stepTo s input).limits.trans hs
  · exact (finish_finishTo s).limits.trans hs

theorem limits_feed (r : Reader kind) (input : Bytes) : (r.feed input).reader.limits = r.limits :=
  limits_feedAll r [input]

/-! ## Many calls -/

theorem feedAll_append (r : Reader kind) (before after : List Bytes) :
    r.feedAll (before ++ after) =
      let calls := r.feedAll before
      let later := calls.reader.feedAll after
      ⟨calls.events ++ later.events, later.reader, calls.results ++ later.results⟩ := by
  induction before generalizing r with
  | nil => rfl
  | cons input before ih => simp only [List.cons_append, feedAll, ih, List.append_assoc]

/-- Calls of which one has failed leave a reader that has failed. -/
theorem feedAll_failsForGood {r : Reader kind} {inputs : List Bytes} {error : Error}
    (h : .error error ∈ (r.feedAll inputs).results) :
    (r.feedAll inputs).reader.state = .failed error := by
  induction inputs generalizing r with
  | nil => cases h
  | cons input inputs ih =>
    rcases List.mem_cons.mp h with hfirst | hlater
    · have hfailed := feed_failsForGood r input error hfirst.symm
      rw [feedAll]
      dsimp only
      rwa [feedAll_of_stopped (feed_of_failed hfailed)]
    · exact ih hlater

end HttpWire.Reader
