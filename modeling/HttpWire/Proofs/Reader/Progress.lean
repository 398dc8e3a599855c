import HttpWire.Reader.Feed
/-!
# Progress

The algebra in which calls of a reader are compared. Calls follow each other (`andThen`), and two
runs agree when they leave the same reader, give the same result and report the same events, up
to how the body was cut into pieces (`Agree`). Agreement passes through composition, so a run can
be compared with another one step at a time.
-/

namespace HttpWire

/-! ## Events with their bodies joined -/

namespace Event

/-- Puts an event in front of joined ones. A piece of a body joins the piece after it. -/
def push : Event → List Event → List Event
  | .body a, .body b :: joined => .body (a ++ b) :: joined
  | event, joined => event :: joined

/-- Events with the pieces of a body that follow each other joined into one. -/
def joinBodies (events : List Event) : List Event := events.foldr push []

theorem push_body_push_body (a b : Bytes) (joined : List Event) :
    push (.body a) (push (.body b) joined) = push (.body (a ++ b)) joined := by
  cases joined with
  | nil => rfl
  | cons event joined => cases event <;> simp [push]

/-- Pushing onto events that are joined already is joining them all. -/
theorem foldr_push_push (event : Event) (joined behind : List Event) :
    (push event joined).foldr push behind = push event (joined.foldr push behind) := by
  cases event with
  | body a =>
    cases joined with
    | nil => rfl
    | cons next joined =>
      cases next with
      | body b => exact (push_body_push_body a b (joined.foldr push behind)).symm
      | _ => rfl
  | _ => rfl

theorem foldr_push_joinBodies (events behind : List Event) :
    (joinBodies events).foldr push behind = events.foldr push behind := by
  induction events with
  | nil => rfl
  | cons event events ih =>
    rw [joinBodies, List.foldr_cons, foldr_push_push, List.foldr_cons]
    exact congrArg (push event) ih

/-- What the joined parts are decides what the joined whole is. -/
theorem joinBodies_append_congr {a a' b b' : List Event} (ha : joinBodies a = joinBodies a')
    (hb : joinBodies b = joinBodies b') : joinBodies (a ++ b) = joinBodies (a' ++ b') := by
  calc joinBodies (a ++ b) = a.foldr push (joinBodies b) := List.foldr_append
    _ = (joinBodies a).foldr push (joinBodies b) := (foldr_push_joinBodies ..).symm
    _ = (joinBodies a').foldr push (joinBodies b') := by rw [ha, hb]
    _ = a'.foldr push (joinBodies b') := foldr_push_joinBodies ..
    _ = joinBodies (a' ++ b') := List.foldr_append.symm

/-- What takes in two pieces of a body as it takes in both at once, takes in joined events as it
takes in the events. -/
theorem foldl_joinBodies {σ : Type} {f : σ → Event → σ}
    (hf : ∀ s a b, f (f s (.body a)) (.body b) = f s (.body (a ++ b))) (s : σ)
    (events : List Event) : (joinBodies events).foldl f s = events.foldl f s := by
  have hpush : ∀ (s : σ) (event : Event) (joined : List Event),
      (push event joined).foldl f s = joined.foldl f (f s event) := by
    intro s event joined
    cases event with
    | body a =>
      cases joined with
      | nil => rfl
      | cons next joined =>
        cases next with
        | body b => exact congrArg (joined.foldl f) (hf s a b).symm
        | _ => rfl
    | _ => rfl
  induction events generalizing s with
  | nil => rfl
  | cons event events ih =>
    rw [joinBodies, List.foldr_cons, hpush]
    exact ih (f s event)

/-- So it takes in alike what joins to the same events. -/
theorem foldl_congr_of_joinBodies {σ : Type} {f : σ → Event → σ}
    (hf : ∀ s a b, f (f s (.body a)) (.body b) = f s (.body (a ++ b))) {events events' : List Event}
    (h : joinBodies events = joinBodies events') (s : σ) :
    events.foldl f s = events'.foldl f s := by
  rw [← foldl_joinBodies hf, h, foldl_joinBodies hf]

theorem foldr_push_map_body (piece : Bytes) (pieces : List Bytes) (behind : List Event) :
    ((piece :: pieces).map body).foldr push behind =
      push (.body (piece :: pieces).flatten) behind := by
  induction pieces generalizing piece with
  | nil => simp
  | cons next pieces ih =>
    have hrest := ih next
    rw [List.map_cons, List.foldr_cons] at hrest
    rw [List.map_cons, List.foldr_cons, List.map_cons, List.foldr_cons, hrest,
      push_body_push_body]
    rfl

/-- Pieces that are not empty join to the same events when they hold the same bytes. -/
theorem joinBodies_map_body_congr {pieces pieces' : List Bytes} (h : ∀ p ∈ pieces, p ≠ [])
    (h' : ∀ p ∈ pieces', p ≠ []) (heq : pieces.flatten = pieces'.flatten) :
    joinBodies (pieces.map body) = joinBodies (pieces'.map body) := by
  cases pieces with
  | nil =>
    cases pieces' with
    | nil => rfl
    | cons piece' pieces' =>
      rw [List.flatten_nil, List.flatten_cons] at heq
      exact absurd (List.append_eq_nil_iff.mp heq.symm).1 (h' piece' (by simp))
  | cons piece pieces =>
    cases pieces' with
    | nil =>
      rw [List.flatten_nil, List.flatten_cons] at heq
      exact absurd (List.append_eq_nil_iff.mp heq).1 (h piece (by simp))
    | cons piece' pieces' =>
      rw [joinBodies, joinBodies, foldr_push_map_body, foldr_push_map_body, heq]

end Event

/-! ## One call after another -/

namespace Reader

variable {kind : Kind}

/-- No input at all. -/
def Progress.none (r : Reader kind) : Progress kind := ⟨[], r, .ok 0⟩

/-- Goes on with the reader that a call left, unless it failed. What the two consumed
adds up. -/
def Progress.andThen (first : Progress kind) (next : Reader kind → Progress kind) :
    Progress kind :=
  match first.result with
  | .error _ => first
  | .ok n =>
    ⟨first.events ++ (next first.reader).events, (next first.reader).reader,
      (next first.reader).result.map (n + ·)⟩

/-- Runs that do the same, up to how bodies are cut into pieces. -/
structure Progress.Agree (p q : Progress kind) : Prop where
  events : Event.joinBodies p.events = Event.joinBodies q.events
  reader : p.reader = q.reader
  result : p.result = q.result

namespace Progress

theorem andThen_of_ok {first : Progress kind} {next : Reader kind → Progress kind} {n : Nat}
    (h : first.result = .ok n) :
    first.andThen next =
      ⟨first.events ++ (next first.reader).events, (next first.reader).reader,
        (next first.reader).result.map (n + ·)⟩ := by
  rw [andThen, h]

theorem andThen_of_error {first : Progress kind} {next : Reader kind → Progress kind}
    {error : Error} (h : first.result = .error error) : first.andThen next = first := by
  rw [andThen, h]

theorem none_andThen (r : Reader kind) (next : Reader kind → Progress kind) :
    (none r).andThen next = next r := by
  cases h : (next r).result <;>
    simp only [andThen, none, h, Except.map, Nat.zero_add, List.nil_append] <;> rw [← h]

theorem andThen_assoc (p : Progress kind) (f g : Reader kind → Progress kind) :
    (p.andThen f).andThen g = p.andThen fun r => (f r).andThen g := by
  obtain ⟨events, r, result⟩ := p
  cases result with
  | error error => rfl
  | ok n =>
    cases hf : (f r).result with
    | error error => simp only [andThen, hf, Except.map]
    | ok m =>
      simp only [andThen, hf, Except.map, List.append_assoc]
      cases (g (f r).reader).result <;> simp [Nat.add_assoc]

/-- Only what a call that succeeded goes on with has to be the same. -/
theorem andThen_congr {first : Progress kind} {f g : Reader kind → Progress kind}
    (h : ∀ n, first.result = .ok n → f first.reader = g first.reader) :
    first.andThen f = first.andThen g := by
  cases hfirst : first.result with
  | error error => rw [andThen_of_error hfirst, andThen_of_error hfirst]
  | ok n => rw [andThen_of_ok hfirst, andThen_of_ok hfirst, h n hfirst]

theorem Agree.refl (p : Progress kind) : p.Agree p := ⟨rfl, rfl, rfl⟩

theorem Agree.symm {p q : Progress kind} (h : p.Agree q) : q.Agree p :=
  ⟨h.events.symm, h.reader.symm, h.result.symm⟩

theorem Agree.trans {p q s : Progress kind} (h : p.Agree q) (h' : q.Agree s) : p.Agree s :=
  ⟨h.events.trans h'.events, h.reader.trans h'.reader, h.result.trans h'.result⟩

/-- **Agreement passes through composition.** Behind a call that failed nothing has to agree. -/
theorem Agree.andThen {p q : Progress kind} {f g : Reader kind → Progress kind} (h : p.Agree q)
    (hnext : ∀ n, q.result = .ok n → (f q.reader).Agree (g q.reader)) :
    (p.andThen f).Agree (q.andThen g) := by
  cases hq : q.result with
  | error error => rwa [andThen_of_error (h.result.trans hq), andThen_of_error hq]
  | ok n =>
    obtain ⟨hevents, hreader, hresult⟩ := hnext n hq
    rw [andThen_of_ok (h.result.trans hq), andThen_of_ok hq, h.reader]
    exact ⟨Event.joinBodies_append_congr h.events hevents, hreader, by rw [hresult]⟩

end Progress

end Reader

end HttpWire
