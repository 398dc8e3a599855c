import HttpWire.Chunked.SizeLine
import HttpWire.Error
/-!
# Chunked bodies

A chunked body is a sequence of chunks, each a size line, as many bytes of payload and a line
break, then a size line of size zero, trailer lines, which are dropped, and an empty line. The
decoder reads such a body from input that may be cut anywhere, hands out the payload as it comes
and stops right after the empty line.
-/

namespace HttpWire.Chunked

/-- The longest size line or trailer line, line break included. -/
def maxLineLength : Nat := 1024

/-- Where in a chunked body the decoder is. -/
inductive Decoder where
  /-- In a size line, of which `line` has been read. -/
  | size (line : Bytes)
  /-- In a chunk of which `remaining` bytes of payload are still to come. When none are, a line
  break is due. -/
  | payload (remaining : Nat)
  /-- Between the carriage return and the line feed after a chunk. -/
  | afterReturn
  /-- In a trailer line, of which `line` has been read. -/
  | trailer (line : Bytes)
  deriving DecidableEq, Repr

/-- The decoder at the start of a body. -/
def Decoder.initial : Decoder := .size []

/-! ## Lines -/

/-- What reading on in a line comes to. -/
inductive LineRead where
  /-- The line is whole and `rest` follows it. -/
  | whole (line rest : Bytes)
  /-- The input ended first; `line` has been read. -/
  | part (line : Bytes)
  /-- The line is longer than any line may be. -/
  | tooLong
  deriving DecidableEq, Repr

/-- Reads on in a line of which `line` has been read, through the next line feed. -/
def readLine (line input : Bytes) : LineRead :=
  match input.dropWhile (· != Byte.lf) with
  | [] =>
    if line.length + input.length ≤ maxLineLength then .part (line ++ input) else .tooLong
  | lf :: rest =>
    let more := input.takeWhile (· != Byte.lf) ++ [lf]
    if line.length + more.length ≤ maxLineLength then .whole (line ++ more) rest else .tooLong

/-- A whole line takes at least its line feed from the input. -/
theorem length_of_readLine_whole {line input whole rest : Bytes}
    (h : readLine line input = .whole whole rest) : rest.length < input.length := by
  unfold readLine at h
  split at h
  · split at h <;> simp at h
  · next lf tail hdrop =>
    dsimp only at h
    split at h
    · simp only [LineRead.whole.injEq] at h
      have hlen : (input.dropWhile (· != Byte.lf)).length ≤ input.length :=
        (List.dropWhile_suffix _).length_le
      rw [hdrop, List.length_cons] at hlen
      rw [← h.2]
      omega
    · simp at h

/-- Whether a line is an empty one. -/
def isEmptyLine (line : Bytes) : Bool := line == [Byte.lf] || line == [Byte.cr, Byte.lf]

/-! ## Results -/

/-- How decoding some input ended. -/
inductive Outcome where
  /-- All input was read and the body goes on. -/
  | more (decoder : Decoder)
  /-- The body ended and `rest` follows it. -/
  | finished (rest : Bytes)
  /-- The framing is broken. -/
  | broken
  deriving DecidableEq, Repr

/-- The payload in some input, piece by piece, and how decoding it ended. -/
structure Decoded where
  pieces : List Bytes
  outcome : Outcome
  deriving DecidableEq, Repr

/-- What one step comes to: reading one line, one piece of payload or one byte of a line break. -/
inductive Step where
  /-- The body goes on with `rest`; `piece` is the payload that was read, if any. -/
  | next (decoder : Decoder) (piece : Option Bytes) (rest : Bytes)
  /-- Decoding stops here. -/
  | stop (outcome : Outcome)
  deriving DecidableEq, Repr

namespace Decoder

/-! ## Steps -/

/-- Reads on in a size line. -/
def stepSize (line input : Bytes) : Step :=
  match readLine line input with
  | .tooLong => .stop .broken
  | .part line => .stop (.more (.size line))
  | .whole line rest =>
    match sizeOfLine? line with
    | none => .stop .broken
    | some 0 => .next (.trailer []) none rest
    | some (n + 1) => .next (.payload (n + 1)) none rest

/-- Reads on in a trailer line. -/
def stepTrailer (line input : Bytes) : Step :=
  match readLine line input with
  | .tooLong => .stop .broken
  | .part line => .stop (.more (.trailer line))
  | .whole line rest =>
    if isEmptyLine line then .stop (.finished rest) else .next (.trailer []) none rest

/-- Reads one byte of the line break after a chunk. -/
def stepBreak (returnSeen : Bool) (b : UInt8) (rest : Bytes) : Step :=
  if b = Byte.lf then .next .initial none rest
  else if b = Byte.cr && !returnSeen then .next .afterReturn none rest
  else .stop .broken

/-- A line break is read one byte at a time. -/
theorem rest_of_stepBreak_next {returnSeen : Bool} {b : UInt8} {input rest : Bytes}
    {next : Decoder} {piece : Option Bytes}
    (h : stepBreak returnSeen b input = .next next piece rest) : rest = input := by
  unfold stepBreak at h
  split at h
  · simp only [Step.next.injEq] at h
    exact h.2.2.symm
  · split at h
    · simp only [Step.next.injEq] at h
      exact h.2.2.symm
    · simp at h

/-- One step on input that is not used up. -/
def step (decoder : Decoder) (b : UInt8) (rest : Bytes) : Step :=
  match decoder with
  | .size line => stepSize line (b :: rest)
  | .trailer line => stepTrailer line (b :: rest)
  | .afterReturn => stepBreak true b rest
  | .payload 0 => stepBreak false b rest
  | .payload (n + 1) =>
    let more := rest.take n
    .next (.payload (n - more.length)) (some (b :: more)) (rest.drop n)

/-- Every step reads something. -/
theorem length_of_step_next {decoder next : Decoder} {b : UInt8} {input rest : Bytes}
    {piece : Option Bytes} (h : step decoder b input = .next next piece rest) :
    rest.length ≤ input.length := by
  cases decoder with
  | size line =>
    simp only [step, stepSize] at h
    split at h
    · simp at h
    · simp at h
    · next hread =>
      have hlt := length_of_readLine_whole hread
      rw [List.length_cons] at hlt
      split at h
      · simp at h
      · simp only [Step.next.injEq] at h
        rw [← h.2.2]
        omega
      · simp only [Step.next.injEq] at h
        rw [← h.2.2]
        omega
  | trailer line =>
    simp only [step, stepTrailer] at h
    split at h
    · simp at h
    · simp at h
    · next hread =>
      have hlt := length_of_readLine_whole hread
      rw [List.length_cons] at hlt
      split at h
      · simp at h
      · simp only [Step.next.injEq] at h
        rw [← h.2.2]
        omega
  | afterReturn => exact Nat.le_of_eq (congrArg List.length (rest_of_stepBreak_next h))
  | payload n =>
    cases n with
    | zero => exact Nat.le_of_eq (congrArg List.length (rest_of_stepBreak_next h))
    | succ n =>
      simp only [step, Step.next.injEq] at h
      rw [← h.2.2, List.length_drop]
      omega

/-! ## Decoding -/

/-- Takes steps until the input is used up or decoding stops. The pieces of the steps before
are in `seen`, last piece first. -/
def run (decoder : Decoder) (input : Bytes) (seen : List Bytes) : Decoded :=
  match input with
  | [] => ⟨seen.reverse, .more decoder⟩
  | b :: rest =>
    match _h : step decoder b rest with
    | .next decoder piece rest => run decoder rest (piece.toList ++ seen)
    | .stop outcome => ⟨seen.reverse, outcome⟩
termination_by input.length
decreasing_by
  have := length_of_step_next _h
  simp only [List.length_cons]
  omega

/-- Decodes the next stretch of input. -/
def decode (decoder : Decoder) (input : Bytes) : Decoded := run decoder input []

end Decoder

end HttpWire.Chunked
