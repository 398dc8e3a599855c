import HttpWire.Chunked.Decoder
import Mathlib.Data.List.Induction
import Mathlib.Data.List.TakeWhile
/-!
# Chunked bodies in cut input

How the decoder's reading depends on where its input is cut: not at all, apart from the pieces
in which the payload comes out. A line that the input ends in is kept and read on with, a chunk
that the input ends in is counted down, and whatever stops the decoder stops it again when more
input stands behind.

The statement about one cut is `decode_append`. Feeding any number of stretches one after the
other is a fold of `Decoded.feed`, and `feedAll_flatten` makes that a reading of all of them at
once.
-/

namespace HttpWire.Chunked

/-! ## Lines -/

theorem readLine_of_not_mem {line input : Bytes} (h : Byte.lf ∉ input) :
    readLine line input =
      if line.length + input.length ≤ maxLineLength then .part (line ++ input) else .tooLong := by
  have hdrop : input.dropWhile (· != Byte.lf) = [] :=
    List.dropWhile_eq_nil_iff.mpr fun b hb => by
      simp only [bne_iff_ne, ne_eq]
      intro heq
      subst heq
      exact h hb
  rw [readLine, hdrop]

theorem readLine_of_lf {line text rest : Bytes} (h : Byte.lf ∉ text) :
    readLine line (text ++ Byte.lf :: rest) =
      if line.length + text.length + 1 ≤ maxLineLength then
        .whole (line ++ text ++ [Byte.lf]) rest
      else .tooLong := by
  have hall : ∀ b ∈ text, (b != Byte.lf) = true := by
    intro b hb
    simp only [bne_iff_ne, ne_eq]
    intro heq
    subst heq
    exact h hb
  have hdrop : (text ++ Byte.lf :: rest).dropWhile (· != Byte.lf) = Byte.lf :: rest := by
    rw [List.dropWhile_append_of_pos hall, List.dropWhile_cons_of_neg (by simp)]
  have htake : (text ++ Byte.lf :: rest).takeWhile (· != Byte.lf) = text := by
    rw [List.takeWhile_append_of_pos hall, List.takeWhile_cons_of_neg (by simp), List.append_nil]
  rw [readLine, hdrop]
  simp only [htake, List.length_append, List.length_singleton, Nat.add_assoc, List.append_assoc]

/-- Input either stays in its line or ends it somewhere. -/
theorem lf_cases (input : Bytes) :
    Byte.lf ∉ input ∨ ∃ text rest, Byte.lf ∉ text ∧ input = text ++ Byte.lf :: rest := by
  by_cases h : Byte.lf ∈ input
  · obtain ⟨text, rest, heq, hnot⟩ := List.eq_append_cons_of_mem h
    exact .inr ⟨text, rest, hnot, heq⟩
  · exact .inl h

/-- What a whole line is, and that it is not too long. -/
theorem readLine_whole {line input whole rest : Bytes}
    (h : readLine line input = .whole whole rest) :
    ∃ text, Byte.lf ∉ text ∧ input = text ++ Byte.lf :: rest ∧
      whole = line ++ text ++ [Byte.lf] ∧ whole.length ≤ maxLineLength := by
  obtain hnot | ⟨text, tail, hnot, rfl⟩ := lf_cases input
  · rw [readLine_of_not_mem hnot] at h
    split at h <;> cases h
  · rw [readLine_of_lf hnot] at h
    split at h
    · next hlen =>
      cases h
      exact ⟨text, hnot, rfl, rfl, by simp only [List.length_append, List.length_singleton]; omega⟩
    · cases h

/-- **A line in cut input.** Reading a line in `a` and then on in `b` is reading it in both. -/
theorem readLine_append (line a b : Bytes) :
    readLine line (a ++ b) =
      match readLine line a with
      | .whole whole rest => .whole whole (rest ++ b)
      | .part part => readLine part b
      | .tooLong => .tooLong := by
  obtain ha | ⟨text, rest, htext, rfl⟩ := lf_cases a
  · -- The line goes on behind `a`, and the first line feed of `b` ends it, if there is one.
    rw [readLine_of_not_mem ha]
    obtain hb | ⟨text, rest, htext, rfl⟩ := lf_cases b
    · have hab : Byte.lf ∉ a ++ b := by simp [ha, hb]
      rw [readLine_of_not_mem hab]
      by_cases hlen : line.length + a.length ≤ maxLineLength
      · simp only [if_pos hlen, readLine_of_not_mem hb, List.length_append, List.append_assoc,
          Nat.add_assoc]
      · have hmore : ¬ line.length + (a ++ b).length ≤ maxLineLength := by
          rw [List.length_append]
          omega
        simp only [if_neg hlen, if_neg hmore]
    · have hab : Byte.lf ∉ a ++ text := by simp [ha, htext]
      rw [← List.append_assoc, readLine_of_lf hab]
      by_cases hlen : line.length + a.length ≤ maxLineLength
      · simp only [if_pos hlen, readLine_of_lf htext, List.length_append, List.append_assoc,
          Nat.add_assoc]
      · have hmore : ¬ line.length + (a ++ text).length + 1 ≤ maxLineLength := by
          rw [List.length_append]
          omega
        simp only [if_neg hlen, if_neg hmore]
  · rw [readLine_of_lf htext, List.append_assoc, List.cons_append, readLine_of_lf htext]
    split <;> rfl

/-! ## Decoding by steps -/

namespace Decoder

/-- The pieces seen before a run only stand in front of its own. -/
theorem run_append_seen (decoder : Decoder) (input : Bytes) (front seen : List Bytes) :
    run decoder input (front ++ seen) =
      ⟨seen.reverse ++ (run decoder input front).pieces, (run decoder input front).outcome⟩ := by
  fun_induction run decoder input front with
  | case1 decoder front => simp [run]
  | case2 front decoder b rest next piece after hstep ih =>
    rw [run]
    split
    · next hnext =>
      rw [hstep] at hnext
      cases hnext
      rw [← List.append_assoc, ih]
    · next hstop =>
      rw [hstep] at hstop
      cases hstop
  | case3 front decoder b rest outcome hstep =>
    rw [run]
    split
    · next hnext =>
      rw [hstep] at hnext
      cases hnext
    · next hstop =>
      rw [hstep] at hstop
      cases hstop
      simp

@[simp] theorem decode_nil (decoder : Decoder) : decoder.decode [] = ⟨[], .more decoder⟩ := by
  simp [decode, run]

theorem decode_of_step_next {decoder next : Decoder} {b : UInt8} {input rest : Bytes}
    {piece : Option Bytes} (h : step decoder b input = .next next piece rest) :
    decoder.decode (b :: input) =
      ⟨piece.toList ++ (next.decode rest).pieces, (next.decode rest).outcome⟩ := by
  rw [decode, run]
  split
  · next hnext =>
    rw [h] at hnext
    cases hnext
    rw [← List.nil_append (piece.toList ++ []), run_append_seen next rest []]
    cases piece <;> rfl
  · next hstop =>
    rw [h] at hstop
    cases hstop

theorem decode_of_step_stop {decoder : Decoder} {b : UInt8} {input : Bytes} {outcome : Outcome}
    (h : step decoder b input = .stop outcome) :
    decoder.decode (b :: input) = ⟨[], outcome⟩ := by
  rw [decode, run]
  split
  · next hnext =>
    rw [h] at hnext
    cases hnext
  · next hstop =>
    rw [h] at hstop
    cases hstop
    rfl

/-- `Moves b input d next piece rest`: on the byte `b` and `input` behind it, the decoder moves
from `d` to `next`, hands out `piece` and leaves `rest`. -/
inductive Moves : UInt8 → Bytes → Decoder → Decoder → Option Bytes → Bytes → Prop
  | lastSize {b : UInt8} {input line whole rest : Bytes}
      (hread : readLine line (b :: input) = .whole whole rest)
      (hsize : sizeOfLine? whole = some 0) :
      Moves b input (.size line) (.trailer []) none rest
  | size {b : UInt8} {input line whole rest : Bytes} {n : Nat}
      (hread : readLine line (b :: input) = .whole whole rest)
      (hsize : sizeOfLine? whole = some (n + 1)) :
      Moves b input (.size line) (.payload (n + 1)) none rest
  | payload (b : UInt8) (input : Bytes) (n : Nat) :
      Moves b input (.payload (n + 1)) (.payload (n - (input.take n).length))
        (some (b :: input.take n)) (input.drop n)
  | carriageReturn (input : Bytes) : Moves Byte.cr input (.payload 0) .afterReturn none input
  | lineFeed (input : Bytes) : Moves Byte.lf input (.payload 0) initial none input
  | lineFeedAfterReturn (input : Bytes) : Moves Byte.lf input .afterReturn initial none input
  | trailer {b : UInt8} {input line whole rest : Bytes}
      (hread : readLine line (b :: input) = .whole whole rest)
      (hnot : ¬ isEmptyLine whole = true) :
      Moves b input (.trailer line) (.trailer []) none rest

/-- **What a step can do** when decoding goes on behind it. -/
theorem moves_of_step_next {d next : Decoder} {b : UInt8} {input rest : Bytes}
    {piece : Option Bytes} (h : step d b input = .next next piece rest) :
    Moves b input d next piece rest := by
  cases d with
  | size line =>
    simp only [step, stepSize] at h
    split at h
    · cases h
    · cases h
    · next hread =>
      split at h
      · cases h
      · next hsize => cases h; exact .lastSize hread hsize
      · next hsize => cases h; exact .size hread hsize
  | trailer line =>
    simp only [step, stepTrailer] at h
    split at h
    · cases h
    · cases h
    · next hread =>
      split at h
      · cases h
      · next hnot => cases h; exact .trailer hread hnot
  | afterReturn =>
    simp only [step, stepBreak] at h
    split at h
    · next hlf => cases h; subst hlf; exact .lineFeedAfterReturn input
    · simp at h
  | payload n =>
    cases n with
    | zero =>
      simp only [step, stepBreak] at h
      split at h
      · next hlf => cases h; subst hlf; exact .lineFeed input
      · split at h
        · next hcr =>
          cases h
          simp only [Bool.not_false, Bool.and_true, decide_eq_true_eq] at hcr
          subst hcr
          exact .carriageReturn input
        · cases h
    | succ n => cases h; exact .payload b input n

/-- Only the empty line behind the trailers ends a body. -/
theorem emptyLine_of_step_finished {d : Decoder} {b : UInt8} {input rest : Bytes}
    (h : step d b input = .stop (.finished rest)) :
    ∃ line whole, d = .trailer line ∧ readLine line (b :: input) = .whole whole rest ∧
      isEmptyLine whole = true := by
  cases d with
  | size line =>
    simp only [step, stepSize] at h
    split at h
    · cases h
    · cases h
    · split at h <;> cases h
  | trailer line =>
    simp only [step, stepTrailer] at h
    split at h
    · cases h
    · cases h
    · next hread =>
      split at h
      · next hempty => cases h; exact ⟨line, _, rfl, hread, hempty⟩
      · cases h
  | afterReturn =>
    simp only [step, stepBreak] at h
    split at h
    · cases h
    · split at h <;> cases h
  | payload n =>
    cases n with
    | zero =>
      simp only [step, stepBreak] at h
      split at h
      · cases h
      · split at h <;> cases h
    | succ n => cases h

/-- Induction along decoding: a step that stops it, or a step and what follows. Every step that
goes on leaves less input. -/
theorem decode_induction {motive : Decoder → Bytes → Prop} (nil : ∀ d, motive d [])
    (stop : ∀ d b input outcome, step d b input = .stop outcome → motive d (b :: input))
    (next : ∀ d b input after piece rest, step d b input = .next after piece rest →
      motive after rest → motive d (b :: input))
    (d : Decoder) (input : Bytes) : motive d input := by
  induction h : input.length using Nat.strongRecOn generalizing d input with
  | ind length ih =>
    subst h
    cases input with
    | nil => exact nil d
    | cons b input =>
      cases hstep : step d b input with
      | stop outcome => exact stop d b input outcome hstep
      | next after piece rest =>
        have hlen : rest.length < (b :: input).length := by
          have := length_of_step_next hstep
          rw [List.length_cons]
          omega
        exact next d b input after piece rest hstep (ih _ hlen _ _ rfl)

/-- Every piece that is handed out holds something. -/
theorem pieces_ne_nil {decoder : Decoder} {input piece : Bytes}
    (h : piece ∈ (decoder.decode input).pieces) : piece ≠ [] := by
  induction decoder, input using decode_induction with
  | nil d => simp at h
  | stop d b input outcome hstep =>
    rw [decode_of_step_stop hstep] at h
    cases h
  | next d b input after first rest hstep ih =>
    rw [decode_of_step_next hstep] at h
    rcases List.mem_append.mp h with hfirst | hlater
    · -- Only a step inside the payload hands a piece out.
      cases moves_of_step_next hstep with
      | payload =>
        rw [Option.toList_some, List.mem_singleton] at hfirst
        rw [hfirst]
        exact List.cons_ne_nil _ _
      | _ => cases hfirst
    · exact ih hlater

/-- The end of a body is behind at least one byte. -/
theorem length_of_decode_finished {decoder : Decoder} {input rest : Bytes}
    (h : (decoder.decode input).outcome = .finished rest) : rest.length < input.length := by
  induction decoder, input using decode_induction with
  | nil d =>
    rw [decode_nil] at h
    cases h
  | stop d b input outcome hstep =>
    rw [decode_of_step_stop hstep] at h
    cases h
    obtain ⟨line, whole, -, hread, -⟩ := emptyLine_of_step_finished hstep
    exact length_of_readLine_whole hread
  | next d b input after piece tail hstep ih =>
    rw [decode_of_step_next hstep] at h
    have hlen := length_of_step_next hstep
    have hlater := ih h
    rw [List.length_cons]
    omega

/-- Steps that do the same lead to the same decoding. -/
theorem decode_congr {d d' : Decoder} {b b' : UInt8} {input input' : Bytes}
    (h : step d b input = step d' b' input') :
    d.decode (b :: input) = d'.decode (b' :: input') := by
  cases hstep : step d' b' input' with
  | next next piece rest =>
    rw [decode_of_step_next (h.trans hstep), decode_of_step_next hstep]
  | stop outcome => rw [decode_of_step_stop (h.trans hstep), decode_of_step_stop hstep]

end Decoder

/-! ## Payload -/

/-- The payload that was handed out, pieces joined. -/
def Decoded.payload (decoded : Decoded) : Bytes := decoded.pieces.flatten

namespace Decoder

/-- What a step hands out is part of what it reads. -/
theorem Moves.length_piece {d next : Decoder} {b : UInt8} {input rest : Bytes}
    {piece : Option Bytes} (h : Moves b input d next piece rest) (hrest : rest.length ≤ input.length) :
    piece.toList.flatten.length + rest.length ≤ (b :: input).length := by
  cases h with
  | payload =>
    simp only [Option.toList_some, List.flatten_cons, List.flatten_nil, List.append_nil,
      List.length_cons, List.length_take, List.length_drop]
    omega
  | _ =>
    simp only [Option.toList_none, List.flatten_nil, List.length_nil, List.length_cons]
    omega

/-- **No more payload comes out than input goes in.** -/
theorem length_payload_le (decoder : Decoder) (input : Bytes) :
    (decoder.decode input).payload.length ≤ input.length := by
  induction decoder, input using decode_induction with
  | nil d =>
    rw [decode_nil]
    exact Nat.zero_le _
  | stop d b input outcome hstep =>
    rw [decode_of_step_stop hstep]
    exact Nat.zero_le _
  | next d b input after piece rest hstep ih =>
    have hpiece := (moves_of_step_next hstep).length_piece (length_of_step_next hstep)
    rw [decode_of_step_next hstep]
    simp only [Decoded.payload, List.flatten_append, List.length_append] at ih ⊢
    omega

/-- The payload of a body is shorter than the body. -/
theorem length_payload_lt {decoder : Decoder} {input rest : Bytes}
    (h : (decoder.decode input).outcome = .finished rest) :
    (decoder.decode input).payload.length + rest.length < input.length := by
  induction decoder, input using decode_induction with
  | nil d =>
    rw [decode_nil] at h
    cases h
  | stop d b input outcome hstep =>
    have hlen := length_of_decode_finished h
    rw [decode_of_step_stop hstep]
    simpa [Decoded.payload] using hlen
  | next d b input after piece tail hstep ih =>
    have hpiece := (moves_of_step_next hstep).length_piece (length_of_step_next hstep)
    rw [decode_of_step_next hstep] at h ⊢
    have hlater := ih h
    simp only [Decoded.payload, List.flatten_append, List.length_append] at hlater ⊢
    omega

end Decoder

/-! ## Cut input -/

/-- Goes on with the next stretch of input, unless the decoder has stopped. -/
def Decoded.feed (decoded : Decoded) (input : Bytes) : Decoded :=
  match decoded.outcome with
  | .more decoder =>
    ⟨decoded.pieces ++ (decoder.decode input).pieces, (decoder.decode input).outcome⟩
  | .finished rest => ⟨decoded.pieces, .finished (rest ++ input)⟩
  | .broken => decoded

/-- Two decodings that differ at most in how the payload was cut. -/
structure Decoded.Same (p q : Decoded) : Prop where
  payload : p.payload = q.payload
  outcome : p.outcome = q.outcome

/-- The step that does the same when `more` stands behind the input. A step that stops to wait
for more input is in no such relation. -/
inductive Step.Extends (more : Bytes) : Step → Step → Prop
  | next (decoder : Decoder) (piece : Option Bytes) (rest : Bytes) :
      Extends more (.next decoder piece rest) (.next decoder piece (rest ++ more))
  | finished (rest : Bytes) :
      Extends more (.stop (.finished rest)) (.stop (.finished (rest ++ more)))
  | broken : Extends more (.stop .broken) (.stop .broken)

namespace Decoder

theorem stepSize_append (line a b : Bytes) :
    Step.Extends b (stepSize line a) (stepSize line (a ++ b)) ∨
      ∃ part, stepSize line a = .stop (.more (.size part)) ∧
        stepSize line (a ++ b) = stepSize part b := by
  simp only [stepSize, readLine_append]
  cases readLine line a with
  | whole whole rest =>
    left
    dsimp only
    split <;> constructor
  | part part => exact .inr ⟨part, rfl, rfl⟩
  | tooLong => exact .inl .broken

theorem stepTrailer_append (line a b : Bytes) :
    Step.Extends b (stepTrailer line a) (stepTrailer line (a ++ b)) ∨
      ∃ part, stepTrailer line a = .stop (.more (.trailer part)) ∧
        stepTrailer line (a ++ b) = stepTrailer part b := by
  simp only [stepTrailer, readLine_append]
  cases readLine line a with
  | whole whole rest =>
    left
    dsimp only
    split <;> constructor
  | part part => exact .inr ⟨part, rfl, rfl⟩
  | tooLong => exact .inl .broken

theorem stepBreak_append (returnSeen : Bool) (b : UInt8) (rest more : Bytes) :
    Step.Extends more (stepBreak returnSeen b rest) (stepBreak returnSeen b (rest ++ more)) := by
  simp only [stepBreak]
  split
  · constructor
  · split <;> constructor

/-- When the input ends in a line, decoding reads on in it. -/
theorem same_feed_of_part {d part : Decoder} {b : UInt8} {rest more : Bytes}
    (hstop : step d b rest = .stop (.more part))
    (hread : ∀ c tail, more = c :: tail → step d b (rest ++ more) = step part c tail) :
    (d.decode (b :: rest ++ more)).Same ((d.decode (b :: rest)).feed more) := by
  rw [decode_of_step_stop hstop]
  cases more with
  | nil =>
    rw [List.append_nil, decode_of_step_stop hstop]
    simp only [Decoded.feed, decode_nil]
    exact ⟨rfl, rfl⟩
  | cons c tail =>
    rw [List.cons_append, decode_congr (hread c tail rfl)]
    exact ⟨rfl, rfl⟩

/-- When the input ends in a chunk, the rest of the chunk is read from what follows. -/
theorem same_feed_of_payload {n : Nat} {b : UInt8} {rest more : Bytes} (h : rest.length < n) :
    (decode (.payload (n + 1)) (b :: rest ++ more)).Same
      ((decode (.payload (n + 1)) (b :: rest)).feed more) := by
  have hstep : step (.payload (n + 1)) b rest =
      .next (.payload (n - rest.length)) (some (b :: rest)) [] := by
    simp only [step, List.take_of_length_le (Nat.le_of_lt h),
      List.drop_of_length_le (Nat.le_of_lt h)]
  rw [decode_of_step_next hstep, decode_nil]
  cases more with
  | nil =>
    rw [List.append_nil, decode_of_step_next hstep]
    simp only [Decoded.feed, decode_nil]
    exact ⟨by simp [Decoded.payload], rfl⟩
  | cons c tail =>
    obtain ⟨m, hm⟩ : ∃ m, n - rest.length = m + 1 := ⟨n - rest.length - 1, by omega⟩
    have htake : (rest ++ c :: tail).take n = rest ++ c :: tail.take m := by
      rw [List.take_append, List.take_of_length_le (Nat.le_of_lt h), hm, List.take_succ_cons]
    have hdrop : (rest ++ c :: tail).drop n = tail.drop m := by
      rw [List.drop_append, List.drop_of_length_le (Nat.le_of_lt h), hm, List.drop_succ_cons,
        List.nil_append]
    have hboth : step (.payload (n + 1)) b (rest ++ c :: tail) =
        .next (.payload (m - (tail.take m).length)) (some (b :: (rest ++ c :: tail.take m)))
          (tail.drop m) := by
      simp only [step, htake, hdrop, List.length_append, List.length_cons]
      congr 2
      omega
    have hafter : step (.payload (m + 1)) c tail =
        .next (.payload (m - (tail.take m).length)) (some (c :: tail.take m)) (tail.drop m) := rfl
    rw [List.cons_append, decode_of_step_next hboth, hm]
    simp only [Decoded.feed, decode_of_step_next hafter]
    exact ⟨by simp [Decoded.payload], rfl⟩

/-- **A step in cut input** either does what it does in all of the input, or it takes the input
up to the cut, and decoding goes on behind it. -/
theorem step_append (d : Decoder) (b : UInt8) (rest more : Bytes) :
    Step.Extends more (step d b rest) (step d b (rest ++ more)) ∨
      (d.decode (b :: rest ++ more)).Same ((d.decode (b :: rest)).feed more) := by
  cases d with
  | size line =>
    obtain h | ⟨part, hstop, hread⟩ := stepSize_append line (b :: rest) more
    · exact .inl h
    · exact .inr (same_feed_of_part hstop fun c tail hmore => by rw [hmore] at hread ⊢; exact hread)
  | trailer line =>
    obtain h | ⟨part, hstop, hread⟩ := stepTrailer_append line (b :: rest) more
    · exact .inl h
    · exact .inr (same_feed_of_part hstop fun c tail hmore => by rw [hmore] at hread ⊢; exact hread)
  | afterReturn => exact .inl (stepBreak_append true b rest more)
  | payload n =>
    cases n with
    | zero => exact .inl (stepBreak_append false b rest more)
    | succ n =>
      by_cases h : rest.length < n
      · exact .inr (same_feed_of_payload h)
      · have hle : n ≤ rest.length := by omega
        left
        simp only [step, List.take_append_of_le_length hle, List.drop_append_of_le_length hle]
        constructor

/-- **Decoding cut input.** Decoding `a` and then going on with `b` gives the payload and the
outcome of decoding both at once. -/
theorem decode_append (d : Decoder) (a b : Bytes) :
    (d.decode (a ++ b)).Same ((d.decode a).feed b) := by
  induction d, a using decode_induction with
  | nil d =>
    rw [decode_nil]
    exact ⟨rfl, rfl⟩
  | stop d x rest outcome hx =>
    obtain hstep | hsame := step_append d x rest b
    · generalize hy : step d x (rest ++ b) = s' at hstep
      rw [hx] at hstep
      cases hstep with
      | finished tail =>
        rw [List.cons_append, decode_of_step_stop hx, decode_of_step_stop hy]
        exact ⟨rfl, rfl⟩
      | broken =>
        rw [List.cons_append, decode_of_step_stop hx, decode_of_step_stop hy]
        exact ⟨rfl, rfl⟩
    · exact hsame
  | next d x rest next piece tail hx ih =>
    obtain hstep | hsame := step_append d x rest b
    · generalize hy : step d x (rest ++ b) = s' at hstep
      rw [hx] at hstep
      cases hstep
      -- The longer step only leaves `b` behind what the shorter one leaves.
      obtain ⟨hpayload, houtcome⟩ := ih
      rw [List.cons_append, decode_of_step_next hy, decode_of_step_next hx]
      constructor
      · simp only [Decoded.payload, Decoded.feed] at hpayload ⊢
        rw [List.flatten_append, hpayload]
        split <;> simp
      · simp only [Decoded.feed] at houtcome ⊢
        rw [houtcome]
        split <;> rfl
    · exact hsame

/-- A step that neither waits for more input nor takes all of it does the same in longer input. -/
theorem step_extends {d : Decoder} {b : UInt8} {rest : Bytes}
    (hstop : ∀ next, step d b rest ≠ .stop (.more next))
    (hleft : ∀ next piece, step d b rest ≠ .next next piece []) (more : Bytes) :
    Step.Extends more (step d b rest) (step d b (rest ++ more)) := by
  cases d with
  | size line =>
    obtain h | ⟨part, hpart, -⟩ := stepSize_append line (b :: rest) more
    · exact h
    · exact absurd hpart (hstop _)
  | trailer line =>
    obtain h | ⟨part, hpart, -⟩ := stepTrailer_append line (b :: rest) more
    · exact h
    · exact absurd hpart (hstop _)
  | afterReturn => exact stepBreak_append true b rest more
  | payload n =>
    cases n with
    | zero => exact stepBreak_append false b rest more
    | succ n =>
      have hle : n ≤ rest.length := by
        by_contra hgt
        have hnil : rest.drop n = [] := List.drop_of_length_le (by omega)
        exact hleft (.payload (n - (rest.take n).length)) (some (b :: rest.take n))
          (by simp only [step, hnil])
      simp only [step, List.take_append_of_le_length hle, List.drop_append_of_le_length hle]
      constructor

/-- **A body that is over stays as it is**, piece by piece, whatever follows it. -/
theorem decode_append_of_finished {d : Decoder} {input rest : Bytes}
    (h : (d.decode input).outcome = .finished rest) (more : Bytes) :
    d.decode (input ++ more) = ⟨(d.decode input).pieces, .finished (rest ++ more)⟩ := by
  induction d, input using decode_induction with
  | nil d =>
    rw [decode_nil] at h
    cases h
  | stop d b input outcome hstep =>
    rw [decode_of_step_stop hstep] at h
    dsimp only at h
    subst h
    have hstop : ∀ next, step d b input ≠ .stop (.more next) := fun next => by
      rw [hstep]
      rintro ⟨⟩
    have hleft : ∀ next piece, step d b input ≠ .next next piece [] := fun next piece => by
      rw [hstep]
      rintro ⟨⟩
    have hextends := step_extends hstop hleft more
    generalize hlong : step d b (input ++ more) = long at hextends
    rw [hstep] at hextends
    cases hextends
    rw [List.cons_append, decode_of_step_stop hlong, decode_of_step_stop hstep]
  | next d b input after piece tail hstep ih =>
    rw [decode_of_step_next hstep] at h
    have hstop : ∀ next, step d b input ≠ .stop (.more next) := fun next => by
      rw [hstep]
      rintro ⟨⟩
    -- Something is left, or the body could not be over.
    have hleft : ∀ next piece, step d b input ≠ .next next piece [] := fun next piece => by
      rw [hstep]
      rintro ⟨⟩
      rw [decode_nil] at h
      cases h
    have hextends := step_extends hstop hleft more
    generalize hlong : step d b (input ++ more) = long at hextends
    rw [hstep] at hextends
    cases hextends
    rw [List.cons_append, decode_of_step_next hlong, decode_of_step_next hstep, ih h]

/-! ## Any number of stretches -/

/-- Decodes stretches of input one after the other. -/
def feedAll (decoder : Decoder) (stretches : List Bytes) : Decoded :=
  stretches.foldl Decoded.feed ⟨[], .more decoder⟩

end Decoder

theorem Decoded.Same.feed {p q : Decoded} (h : p.Same q) (input : Bytes) :
    (p.feed input).Same (q.feed input) := by
  obtain ⟨hpayload, houtcome⟩ := h
  simp only [Decoded.feed, ← houtcome]
  simp only [Decoded.payload] at hpayload
  cases p.outcome with
  | more decoder =>
    refine ⟨?_, rfl⟩
    simp only [Decoded.payload, List.flatten_append, hpayload]
  | finished rest => exact ⟨hpayload, rfl⟩
  | broken => exact ⟨hpayload, houtcome⟩

/-- **Cuts do not matter.** Stretches fed one after the other are decoded like all of them
at once. -/
theorem Decoder.feedAll_flatten (d : Decoder) (stretches : List Bytes) :
    (d.feedAll stretches).Same (d.decode stretches.flatten) := by
  -- From the right, so that the last stretch is the one that `decode_append` cuts off.
  induction stretches using List.reverseRecOn with
  | nil =>
    rw [List.flatten_nil, decode_nil]
    exact ⟨rfl, rfl⟩
  | append_singleton before last ih =>
    have hcut := decode_append d before.flatten last
    have hfeed := ih.feed last
    rw [List.flatten_concat]
    simp only [feedAll, List.foldl_append, List.foldl_cons, List.foldl_nil] at hfeed ⊢
    exact ⟨hfeed.payload.trans hcut.payload.symm, hfeed.outcome.trans hcut.outcome.symm⟩

end HttpWire.Chunked
