import HttpWire.Proofs.Head.EmptyLine
import HttpWire.Proofs.Reader.Consumption
import HttpWire.Reader.Room
/-!
# Calls that come back

A call comes back with what the reader does with its input, unless it comes to a head that is
complete and there can be no table for as many field lines as the reader puts up with. That is a
matter of the limit alone: the head may have no field lines at all.
-/

namespace HttpWire.Reader

variable {kind : Kind}

/-- Whether a call comes to a complete head: after some of its steps the reader is at the beginning
of a head or inside one, whose empty line is in what has come of it and what the next step takes. -/
def ComesToHead (r : Reader kind) (input : Bytes) : Prop :=
  ∃ k s rest buffer, Steps k r input s rest ∧ s.state = .head buffer ∧
    (buffer = #[] → ∀ b ∈ rest.head?, Byte.isBreak b = false) ∧
    Head.HasEmptyLine (buffer.toList ++ rest.take (s.limits.maxHeadLength - buffer.size))

theorem hasRoom_eq_false {limits : Limits} :
    limits.hasRoom = false ↔ 2 ^ 58 ≤ limits.maxFields := by
  rw [Limits.hasRoom, decide_eq_false_iff_not, UInt64.size]
  omega

/-! ## Coming to a head -/

/-- A step parses a head when its empty line is in. -/
theorem parsesHead_iff {r : Reader kind} (hsound : r.state.Sound r.limits) {input : Bytes} :
    r.parsesHead input = true ↔
      ∃ buffer, r.state = .head buffer ∧
        (buffer = #[] → ∀ b ∈ input.head?, Byte.isBreak b = false) ∧
        Head.HasEmptyLine (buffer.toList ++ input.take (r.limits.maxHeadLength - buffer.size)) := by
  cases hstate : r.state with
  | head old =>
    rw [hstate] at hsound
    have hnone : ¬ Head.HasEmptyLine old.toList := by
      rw [Head.HasEmptyLine, ← Head.hasEnding_iff, hsound.1]
      exact Bool.false_ne_true
    -- Without any input there is only what was buffered, and no empty line is in that.
    have htaken : Head.HasEmptyLine (old.toList ++ input.take (r.limits.maxHeadLength - old.size)) →
        (input.take (r.limits.maxHeadLength - old.size)).isEmpty = false := by
      intro hempty
      cases htaken : input.take (r.limits.maxHeadLength - old.size) with
      | nil =>
        rw [htaken, List.append_nil] at hempty
        exact absurd hempty hnone
      | cons b rest => rfl
    have hskips : (old.isEmpty && input.head?.any Byte.isBreak) = false ↔
        (old = #[] → ∀ b ∈ input.head?, Byte.isBreak b = false) := by
      cases input.head? <;> by_cases hold : old = #[] <;> simp [hold]
    have hsearch : Head.completesEnding old (input.take (r.limits.maxHeadLength - old.size)) = true ↔
        Head.HasEmptyLine (old.toList ++ input.take (r.limits.maxHeadLength - old.size)) := by
      rw [Head.completesEnding_eq hsound.1, Head.hasEnding_iff, Head.HasEmptyLine]
    rw [parsesHead, hstate]
    simp only [Bool.and_eq_true, Bool.not_eq_true', hskips, hsearch]
    constructor
    · rintro ⟨⟨hstart, -⟩, hempty⟩
      exact ⟨old, rfl, hstart, hempty⟩
    · rintro ⟨buffer, heq, hstart, hempty⟩
      cases heq
      exact ⟨⟨hstart, htaken hempty⟩, hempty⟩
  | body body => simp [parsesHead, hstate]
  | switched => simp [parsesHead, hstate]
  | failed error => simp [parsesHead, hstate]

theorem steps_of_comesToHead {r : Reader kind} {input : Bytes} (h : r.comesToHead input = true) :
    ∃ k s rest, Steps k r input s rest ∧ s.parsesHead rest = true := by
  induction r, input using comesToHead.induct with
  | case1 r => simp [comesToHead] at h
  | case2 r b rest hparses => exact ⟨0, r, b :: rest, .none r _, hparses⟩
  | case3 r b rest hparses events next n hstep ih =>
    rw [comesToHead, if_neg hparses, hstep] at h
    obtain ⟨k, s, left, hsteps, hhead⟩ := ih h
    have hgoing : r.state ≠ .switched := by
      obtain ⟨limits, state, start⟩ := r
      rintro rfl
      cases hstep
    have hok : (r.step (b :: rest)).result = .ok (n + 1) := by rw [hstep]
    refine ⟨k + 1, s, left, .more (List.cons_ne_nil b rest) hgoing hok ?_, hhead⟩
    rwa [hstep]
  | case4 r b rest hparses hlast =>
    rw [comesToHead, if_neg hparses] at h
    split at h
    · next hstep => exact absurd hstep (hlast _ _ _)
    · cases h

/-- **A run comes to a head** exactly if one of its steps parses one. -/
theorem comesToHead_of_steps {k : Nat} {r s : Reader kind} {input rest : Bytes}
    (h : Steps k r input s rest) (hsound : r.state.Sound r.limits)
    (hhead : s.parsesHead rest = true) : r.comesToHead input = true := by
  induction h with
  | none r input =>
    cases input with
    | nil =>
      rw [parsesHead] at hhead
      split at hhead <;> simp at hhead
    | cons b rest => rw [comesToHead, if_pos hhead]
  | @more k n r s input rest hinput hgoing hok hlater ih =>
    have hstep := step_stepTo r input
    have hpos := (hstep.count hsound hgoing hinput hok).1
    obtain ⟨m, rfl⟩ : ∃ m, n = m + 1 := ⟨n - 1, by omega⟩
    obtain ⟨b, rest', rfl⟩ := List.exists_cons_of_ne_nil hinput
    have hrest := ih (hstep.sound hsound) hhead
    rw [comesToHead]
    split
    · rfl
    · cases hprogress : r.step (b :: rest') with
      | mk events next result =>
        rw [hprogress] at hok hrest
        subst hok
        exact hrest

theorem comesToHead_iff {r : Reader kind} (hsound : r.state.Sound r.limits) {input : Bytes} :
    r.comesToHead input = true ↔ r.ComesToHead input := by
  constructor
  · intro h
    obtain ⟨k, s, rest, hsteps, hhead⟩ := steps_of_comesToHead h
    obtain ⟨buffer, hbuffer⟩ := (parsesHead_iff (hsteps.sound hsound)).mp hhead
    exact ⟨k, s, rest, buffer, hsteps, hbuffer⟩
  · rintro ⟨k, s, rest, buffer, hsteps, hbuffer⟩
    exact comesToHead_of_steps hsteps hsound
      ((parsesHead_iff (hsteps.sound hsound)).mpr ⟨buffer, hbuffer⟩)

/-! ## Calls -/

theorem lacksRoom_iff {r : Reader kind} (hsound : r.state.Sound r.limits) {input : Bytes} :
    r.lacksRoom input = true ↔ 2 ^ 58 ≤ r.limits.maxFields ∧ r.ComesToHead input := by
  rw [lacksRoom, Bool.and_eq_true, Bool.not_eq_true', hasRoom_eq_false, comesToHead_iff hsound]

/-- **When a call does not come back.** -/
theorem call?_eq_none_iff {r : Reader kind} (hsound : r.state.Sound r.limits) {input : Bytes} :
    r.call? input = none ↔ 2 ^ 58 ≤ r.limits.maxFields ∧ r.ComesToHead input := by
  rw [← lacksRoom_iff hsound, call?]
  split <;> simp_all

/-- A call that comes back has done what the reader does. -/
theorem eq_feed_of_call? {r : Reader kind} {input : Bytes} {p : Progress kind}
    (h : r.call? input = some p) : p = r.feed input := by
  rw [call?] at h
  split at h
  · cases h
  · exact (Option.some.inj h).symm

/-- Feeds the pieces of a stream in turn, if all the calls come back. -/
def callAll? (r : Reader kind) : List Bytes → Option (Calls kind)
  | [] => some ⟨[], r, []⟩
  | piece :: pieces =>
    match r.call? piece with
    | none => none
    | some first =>
      (first.reader.callAll? pieces).map fun later =>
        ⟨first.events ++ later.events, later.reader, first.result :: later.results⟩

theorem eq_feedAll_of_callAll? {r : Reader kind} {pieces : List Bytes} {calls : Calls kind}
    (h : r.callAll? pieces = some calls) : calls = r.feedAll pieces := by
  induction pieces generalizing r calls with
  | nil => exact (Option.some.inj h).symm
  | cons piece pieces ih =>
    rw [callAll?] at h
    split at h
    · cases h
    · next first hfirst =>
      obtain ⟨later, hlater, rfl⟩ := Option.map_eq_some_iff.mp h
      rw [feedAll, ← eq_feed_of_call? hfirst, ih hlater]

/-- **When one of the calls in a row does not come back.** -/
theorem callAll?_eq_none_iff {r : Reader kind} (hsound : r.state.Sound r.limits)
    {pieces : List Bytes} :
    r.callAll? pieces = none ↔ 2 ^ 58 ≤ r.limits.maxFields ∧
      ∃ before piece after, pieces = before ++ piece :: after ∧
        (r.feedAll before).reader.ComesToHead piece := by
  induction pieces generalizing r with
  | nil => simp [callAll?]
  | cons piece pieces ih =>
    have hlater := ih (feed_sound hsound piece)
    rw [limits_feed] at hlater
    have hsplit : (∃ before next after, piece :: pieces = before ++ next :: after ∧
          (r.feedAll before).reader.ComesToHead next) ↔
        r.ComesToHead piece ∨ ∃ before next after, pieces = before ++ next :: after ∧
          ((r.feed piece).reader.feedAll before).reader.ComesToHead next := by
      constructor
      · rintro ⟨before, next, after, heq, hnext⟩
        cases before with
        | nil =>
          obtain ⟨rfl, rfl⟩ := List.cons.inj heq
          exact .inl hnext
        | cons first before =>
          obtain ⟨rfl, rfl⟩ := List.cons.inj heq
          exact .inr ⟨before, next, after, rfl, hnext⟩
      · rintro (hpiece | ⟨before, next, after, rfl, hnext⟩)
        · exact ⟨[], piece, pieces, rfl, hpiece⟩
        · exact ⟨piece :: before, next, after, rfl, hnext⟩
    rw [callAll?, hsplit, and_or_left, ← hlater, ← call?_eq_none_iff hsound]
    cases hcall : r.call? piece with
    | none => simp
    | some first => simp [eq_feed_of_call? hcall]

end HttpWire.Reader
