import HttpWire.Proofs.Reader.Progress
import HttpWire.Proofs.Reader.Step
/-!
# Runs

A run over input that is not empty as a composition of steps: the first step, and a run over what
it left. The bookkeeping with which a run carries its counts and events along is taken apart
here, once (`run_eq`).
-/

namespace HttpWire.Reader

variable {kind : Kind}

/-- A run over some input, from its beginning. -/
def consume (r : Reader kind) (input : Bytes) : Progress kind := r.run input 0 []

theorem consume_nil (r : Reader kind) : r.consume [] = .none r := by
  rw [consume, run]
  rfl

/-- What was consumed and reported before a run only adds to its own. -/
theorem run_eq (r : Reader kind) (input : Bytes) (consumed : Nat) (reported : List Event) :
    r.run input consumed reported =
      ⟨reported.reverse ++ (r.consume input).events, (r.consume input).reader,
        (r.consume input).result.map (consumed + ·)⟩ := by
  induction h : input.length using Nat.strongRecOn generalizing r input consumed reported with
  | ind n ih =>
    subst h
    cases input with
    | nil => simp [consume, run, Except.map]
    | cons b rest =>
      rw [consume, run, run]
      generalize r.step (b :: rest) = first
      obtain ⟨events, r', result⟩ := first
      cases result with
      | error error => simp [Except.map]
      | ok m =>
        cases m with
        | zero => simp [Except.map]
        | succ m =>
          have hlen : (rest.drop m).length < (b :: rest).length := by
            rw [List.length_drop, List.length_cons]
            omega
          simp only [ih _ hlen _ _ _ _ rfl]
          cases (r'.consume (rest.drop m)).result <;> simp [Except.map, Nat.add_assoc]

/-- A step that consumes something, and a run over the rest. -/
theorem consume_of_ok {r : Reader kind} {b : UInt8} {rest : Bytes} {n : Nat}
    (h : (r.step (b :: rest)).result = .ok (n + 1)) :
    r.consume (b :: rest) = (r.step (b :: rest)).andThen (·.consume (rest.drop n)) := by
  rw [consume, run]
  generalize r.step (b :: rest) = first at h ⊢
  obtain ⟨events, r', result⟩ := first
  cases h
  dsimp only
  rw [run_eq, Progress.andThen_of_ok rfl]
  simp

/-- A step that consumes nothing or fails is the last one. -/
theorem consume_of_last {r : Reader kind} {b : UInt8} {rest : Bytes}
    (h : ∀ n, (r.step (b :: rest)).result ≠ .ok (n + 1)) :
    r.consume (b :: rest) = r.step (b :: rest) := by
  rw [consume, run]
  generalize r.step (b :: rest) = first at h ⊢
  obtain ⟨events, r', result⟩ := first
  cases result with
  | error error => rfl
  | ok m =>
    cases m with
    | zero => rfl
    | succ m => exact absurd rfl (h m)

theorem consume_of_ok_zero {r : Reader kind} {b : UInt8} {rest : Bytes}
    (h : (r.step (b :: rest)).result = .ok 0) : r.consume (b :: rest) = r.step (b :: rest) := by
  refine consume_of_last fun n hn => ?_
  rw [h] at hn
  cases hn

theorem consume_of_error {r : Reader kind} {b : UInt8} {rest : Bytes} {error : Error}
    (h : (r.step (b :: rest)).result = .error error) :
    r.consume (b :: rest) = r.step (b :: rest) := by
  refine consume_of_last fun n hn => ?_
  rw [h] at hn
  cases hn

/-- Induction along a run: a step that is the last one, or a step and the run over what it
left. -/
theorem consume_induction {motive : Reader kind → Bytes → Prop} (nil : ∀ r, motive r [])
    (last : ∀ r b rest, (∀ n, (r.step (b :: rest)).result ≠ .ok (n + 1)) → motive r (b :: rest))
    (more : ∀ r b rest n, (r.step (b :: rest)).result = .ok (n + 1) →
      motive (r.step (b :: rest)).reader (rest.drop n) → motive r (b :: rest))
    (r : Reader kind) (input : Bytes) : motive r input := by
  induction h : input.length using Nat.strongRecOn generalizing r input with
  | ind length ih =>
    subst h
    cases input with
    | nil => exact nil r
    | cons b rest =>
      by_cases hlast : ∀ n, (r.step (b :: rest)).result ≠ .ok (n + 1)
      · exact last r b rest hlast
      · -- The step consumed `n + 1` bytes, so less input is left.
        obtain ⟨n, hn⟩ := Classical.not_forall_not.mp hlast
        have hlen : (rest.drop n).length < (b :: rest).length := by
          rw [List.length_drop, List.length_cons]
          omega
        exact more r b rest n hn (ih _ hlen _ _ rfl)

theorem feed_nil (r : Reader kind) : r.feed [] = r.finish := rfl

theorem feed_of_ne_nil {r : Reader kind} {input : Bytes} (h : input ≠ []) :
    r.feed input = r.consume input := by
  rw [feed, if_neg (by simpa using h), consume]

/-! ## Where runs lead -/

theorem andThen_failsForGood {p : Progress kind} {next : Reader kind → Progress kind}
    (hp : p.FailsForGood) (hnext : (next p.reader).FailsForGood) :
    (p.andThen next).FailsForGood := by
  cases h : p.result with
  | error error => rwa [Progress.andThen_of_error h]
  | ok n =>
    rw [Progress.andThen_of_ok h]
    intro error herror
    refine hnext error ?_
    cases hresult : (next p.reader).result with
    | error _ => rw [hresult] at herror; cases herror; rfl
    | ok m => rw [hresult] at herror; cases herror

theorem consume_failsForGood (r : Reader kind) (input : Bytes) :
    (r.consume input).FailsForGood := by
  induction r, input using consume_induction with
  | nil r =>
    rw [consume_nil]
    intro _ h
    cases h
  | last r b rest hlast =>
    rw [consume_of_last hlast]
    exact (step_stepTo r (b :: rest)).failsForGood
  | more r b rest n hn ih =>
    rw [consume_of_ok hn]
    exact andThen_failsForGood (step_stepTo r (b :: rest)).failsForGood ih

/-- **What every successful step keeps, a successful run keeps.** -/
theorem consume_keeps (Keeps : Reader kind → Prop)
    (hstep : ∀ r input n, Keeps r → (r.step input).result = .ok n → Keeps (r.step input).reader)
    {r : Reader kind} {input : Bytes} {n : Nat} (hr : Keeps r)
    (hok : (r.consume input).result = .ok n) : Keeps (r.consume input).reader := by
  induction r, input using consume_induction generalizing n with
  | nil r =>
    rw [consume_nil]
    exact hr
  | last r b rest hlast =>
    rw [consume_of_last hlast] at hok ⊢
    exact hstep r (b :: rest) n hr hok
  | more r b rest m hm ih =>
    rw [consume_of_ok hm, Progress.andThen_of_ok hm] at hok ⊢
    cases hresult : ((r.step (b :: rest)).reader.consume (rest.drop m)).result with
    | error error =>
      rw [hresult] at hok
      cases hok
    | ok k => exact ih (hstep r (b :: rest) (m + 1) hr hm) hresult

/-- **What every step keeps, a run keeps**, of the reader and what it has reported so far. -/
theorem consume_keeps_reported (Keeps : Reader kind → List Event → Prop)
    (hstep : ∀ r events input, input ≠ [] → Keeps r events →
      Keeps (r.step input).reader (events ++ (r.step input).events))
    {r : Reader kind} (events : List Event) (hr : Keeps r events) (input : Bytes) :
    Keeps (r.consume input).reader (events ++ (r.consume input).events) := by
  induction r, input using consume_induction generalizing events with
  | nil r =>
    rw [consume_nil]
    show Keeps r (events ++ [])
    rwa [List.append_nil]
  | last r b rest hlast =>
    rw [consume_of_last hlast]
    exact hstep r events (b :: rest) (List.cons_ne_nil b rest) hr
  | more r b rest n hn ih =>
    rw [consume_of_ok hn, Progress.andThen_of_ok hn, ← List.append_assoc]
    exact ih _ (hstep r events (b :: rest) (List.cons_ne_nil b rest) hr)

theorem consume_ne_failed {r : Reader kind} (hr : ∀ error, r.state ≠ .failed error) {input : Bytes}
    {n : Nat} (hok : (r.consume input).result = .ok n) :
    ∀ error, (r.consume input).reader.state ≠ .failed error := by
  refine consume_keeps (fun r => ∀ error, r.state ≠ .failed error) (fun r input m _ hm => ?_) hr hok
  exact (step_stepTo r input).ne_failed hm

theorem consume_sound {r : Reader kind} (hsound : r.state.Sound r.limits) (input : Bytes) :
    (r.consume input).reader.state.Sound (r.consume input).reader.limits := by
  refine consume_keeps_reported (fun r _ => r.state.Sound r.limits) (fun r _ input _ hr => ?_) []
    hsound input
  exact (step_stepTo r input).sound hr

theorem limits_consume (r : Reader kind) (input : Bytes) :
    (r.consume input).reader.limits = r.limits := by
  refine consume_keeps_reported (fun s _ => s.limits = r.limits) (fun s _ input _ hs => ?_) [] rfl
    input
  exact (step_stepTo s input).limits.trans hs

/-- A reader that has failed answers every stretch of input with its error. -/
theorem feed_of_failed {r : Reader kind} {error : Error} (h : r.state = .failed error)
    (input : Bytes) : r.feed input = ⟨[], r, .error error⟩ := by
  obtain ⟨limits, state, start⟩ := r
  subst h
  cases input with
  | nil => rfl
  | cons b rest =>
    have hstep : (step (⟨limits, .failed error, start⟩ : Reader kind) (b :: rest)).result =
        .error error := rfl
    rw [feed_of_ne_nil (List.cons_ne_nil b rest), consume_of_error hstep]
    rfl

end HttpWire.Reader
