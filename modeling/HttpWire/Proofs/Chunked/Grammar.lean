import HttpWire.Proofs.Chunked.Cut
import HttpWire.Proofs.Grammar
import HttpWire.Proofs.Span
import Mathlib.Algebra.Group.Nat.Defs
/-!
# The language of chunked bodies

The grammar of chunked bodies, written down without the decoder and the readers that it is made of,
and the agreement of the two in both directions: what the decoder reads to its end is a body of the
grammar, and every body of the grammar is read to its end and not beyond.

A body is cut into lines, chunks and line breaks, and the decoder has one equation for each of
these (`decode_sizeLine`, `decode_chunk`, …). Completeness strings them together along a
derivation. Soundness goes the other way: `Reads` says what a decoder in some state still takes
for a body, and one step back keeps it.
-/

namespace HttpWire.Chunked

/-! ## The grammar -/

/-- A chunk extension, which may be missing: a semicolon and anything but line breaks. -/
def Extension (bytes : Bytes) : Prop :=
  bytes = [] ∨ ∃ text, bytes = Byte.semicolon :: text ∧ ∀ b ∈ text, b ≠ Byte.cr ∧ b ≠ Byte.lf

/-- The line that opens a chunk of `size` bytes: at most sixteen hexadecimal digits that denote the
size, blanks, an extension, a carriage return and a line feed. -/
structure SizeLine (size : Nat) (line : Bytes) : Prop where
  parts : ∃ digits blanks extension,
    line = digits ++ (blanks ++ (extension ++ [Byte.cr, Byte.lf])) ∧
      Denotes 16 digits size ∧ digits.length ≤ 16 ∧ Blanks blanks ∧ Extension extension
  length_le : line.length ≤ 1024

/-- A trailer line: any bytes through the first line feed. -/
structure TrailerLine (line : Bytes) : Prop where
  text : ∃ text, line = text ++ [Byte.lf] ∧ Byte.lf ∉ text
  length_le : line.length ≤ 1024

/-- The trailer section: trailer lines that are not empty, and the empty line. -/
inductive TrailerSection : Bytes → Prop
  | emptyLine {line : Bytes} (hline : LineBreak line) : TrailerSection line
  | trailerLine {line rest : Bytes} (hline : TrailerLine line) (hnot : ¬ LineBreak line)
      (hrest : TrailerSection rest) : TrailerSection (line ++ rest)

/-- `ChunkedBody body payload`: the bytes `body` are a chunked body that carries `payload`. -/
inductive ChunkedBody : Bytes → Bytes → Prop
  | last {line trailer : Bytes} (hline : SizeLine 0 line) (htrailer : TrailerSection trailer) :
      ChunkedBody (line ++ trailer) []
  | chunk {line chunk lineBreak rest payload : Bytes} (hline : SizeLine chunk.length line)
      (hchunk : chunk ≠ []) (hbreak : LineBreak lineBreak) (hrest : ChunkedBody rest payload) :
      ChunkedBody (line ++ (chunk ++ (lineBreak ++ rest))) (chunk ++ payload)

/-! ## Size lines -/

/-- What follows the digits of a size line is no digit. -/
theorem isHexDigit_head {blanks extension : Bytes} (hblanks : Blanks blanks)
    (hext : Extension extension) :
    ∀ b ∈ (blanks ++ (extension ++ [Byte.cr, Byte.lf])).head?, Byte.isHexDigit b = false := by
  intro b hb
  cases blanks with
  | nil =>
    obtain rfl | ⟨text, rfl, -⟩ := hext
    · cases hb; decide
    · cases hb; decide
  | cons c blanks =>
    cases hb
    rcases hblanks b (by simp) with rfl | rfl <;> decide

/-- What follows the blanks of a size line is no blank. -/
theorem isBlank_head {extension : Bytes} (hext : Extension extension) :
    ∀ b ∈ (extension ++ [Byte.cr, Byte.lf]).head?, Byte.isBlank b = false := by
  intro b hb
  obtain rfl | ⟨text, rfl, -⟩ := hext
  · cases hb; decide
  · cases hb; decide

theorem dropExtension_eq {rest : Bytes} :
    dropExtension rest = [Byte.cr, Byte.lf] ↔
      ∃ extension, rest = extension ++ [Byte.cr, Byte.lf] ∧ Extension extension := by
  constructor
  · intro h
    cases rest with
    | nil => cases h
    | cons b rest =>
      simp only [dropExtension] at h
      split at h
      · next hb =>
        refine ⟨b :: rest.takeWhile (!Byte.isBreak ·), ?_, .inr ⟨_, by rw [hb], ?_⟩⟩
        · rw [List.cons_append, ← h, List.takeWhile_append_dropWhile]
        · intro c hc
          simpa [Byte.isBreak] using List.mem_takeWhile_imp hc
      · exact ⟨[], h, .inl rfl⟩
  · rintro ⟨extension, rfl, rfl | ⟨text, rfl, htext⟩⟩
    · rfl
    · have hdrop : (text ++ [Byte.cr, Byte.lf]).dropWhile (!Byte.isBreak ·) = [Byte.cr, Byte.lf] :=
        dropWhile_run (fun b hb => by simp [Byte.isBreak, htext b hb]) (by rintro b ⟨⟩; decide)
      simpa [dropExtension] using hdrop

/-- **Size lines are read as they are written.** -/
theorem sizeOfLine?_eq_some {line : Bytes} {size : Nat} :
    sizeOfLine? line = some size ↔
      ∃ digits blanks extension,
        line = digits ++ (blanks ++ (extension ++ [Byte.cr, Byte.lf])) ∧
          Denotes 16 digits size ∧ digits.length ≤ 16 ∧ Blanks blanks ∧ Extension extension := by
  constructor
  · intro h
    obtain ⟨digits, afterDigits, rfl, hdigits, hstop⟩ := exists_run Byte.isHexDigit line
    obtain ⟨blanks, rest, rfl, hblanks, hrest⟩ := exists_run Byte.isBlank afterDigits
    simp only [sizeOfLine?, takeWhile_run hdigits hstop, dropWhile_run hdigits hstop,
      dropWhile_run hblanks hrest, maxSizeDigits] at h
    split at h
    · next hcond =>
      simp only [Bool.and_eq_true, decide_eq_true_eq, beq_iff_eq, dropExtension_eq] at hcond
      obtain ⟨hcount, extension, rfl, hext⟩ := hcond
      cases h
      exact ⟨digits, blanks, extension, rfl, denotes_hexadecimal.mpr ⟨hdigits, rfl⟩, hcount,
        blanks_iff.mpr hblanks, hext⟩
    · cases h
  · rintro ⟨digits, blanks, extension, rfl, hdenotes, hcount, hblanks, hext⟩
    obtain ⟨hdigits, rfl⟩ := denotes_hexadecimal.mp hdenotes
    have hstop := isHexDigit_head hblanks hext
    have hdrop := dropExtension_eq.mpr ⟨extension, rfl, hext⟩
    simp [sizeOfLine?, takeWhile_run hdigits hstop, dropWhile_run hdigits hstop,
      dropWhile_run (blanks_iff.mp hblanks) (isBlank_head hext), hdrop, hcount, maxSizeDigits]

/-- A size line is a line: its only line feed ends it. -/
theorem SizeLine.text {size : Nat} {line : Bytes} (h : SizeLine size line) :
    ∃ text, line = text ++ [Byte.lf] ∧ Byte.lf ∉ text := by
  obtain ⟨digits, blanks, extension, rfl, hdenotes, -, hblanks, hext⟩ := h.parts
  refine ⟨digits ++ (blanks ++ (extension ++ [Byte.cr])), by simp, ?_⟩
  have hdigit : Byte.lf ∉ digits := fun hmem =>
    absurd ((denotes_hexadecimal.mp hdenotes).1 _ hmem) (by decide)
  have hblank : Byte.lf ∉ blanks := fun hmem => absurd (hblanks _ hmem) (by decide)
  have hextension : Byte.lf ∉ extension := by
    obtain rfl | ⟨text, rfl, htext⟩ := hext
    · simp
    · intro hmem
      rcases List.mem_cons.mp hmem with hsemi | hmem
      · exact absurd hsemi (by decide)
      · exact (htext _ hmem).2 rfl
  have hcr : Byte.lf ≠ Byte.cr := by decide
  simp [hdigit, hblank, hextension, hcr]

/-! ## Reading what the grammar writes -/

/-- A line of any kind is read in one go. -/
theorem readLine_line {line : Bytes} (htext : ∃ text, line = text ++ [Byte.lf] ∧ Byte.lf ∉ text)
    (hlen : line.length ≤ 1024) (rest : Bytes) : readLine [] (line ++ rest) = .whole line rest := by
  obtain ⟨text, rfl, hnot⟩ := htext
  have hle : text.length + 1 ≤ maxLineLength := by simpa [maxLineLength] using hlen
  rw [List.append_assoc, List.singleton_append, readLine_of_lf hnot]
  simp [hle]

theorem isEmptyLine_eq_true {line : Bytes} : isEmptyLine line = true ↔ LineBreak line := by
  simp [isEmptyLine, LineBreak]

/-- Lines are not empty, so the decoder has a byte to start with. -/
theorem exists_cons_of_text {line : Bytes}
    (htext : ∃ text, line = text ++ [Byte.lf] ∧ Byte.lf ∉ text) (rest : Bytes) :
    ∃ b tail, line ++ rest = b :: tail := by
  obtain ⟨text, rfl, -⟩ := htext
  cases text with
  | nil => exact ⟨Byte.lf, rest, rfl⟩
  | cons b text => exact ⟨b, text ++ [Byte.lf] ++ rest, rfl⟩

namespace Decoder

theorem decode_sizeLine {size : Nat} {line rest : Bytes} (h : SizeLine size line) :
    decode (.size []) (line ++ rest) =
      decode (if size = 0 then .trailer [] else .payload size) rest := by
  have hread := readLine_line h.text h.length_le rest
  have hsize := sizeOfLine?_eq_some.mpr h.parts
  obtain ⟨b, tail, heq⟩ := exists_cons_of_text h.text rest
  cases size with
  | zero =>
    have hstep : step (.size []) b tail = .next (.trailer []) none rest := by
      simp only [step, stepSize, ← heq, hread, hsize]
    rw [heq, decode_of_step_next hstep]
    simp
  | succ n =>
    have hstep : step (.size []) b tail = .next (.payload (n + 1)) none rest := by
      simp only [step, stepSize, ← heq, hread, hsize]
    rw [heq, decode_of_step_next hstep]
    simp

theorem decode_chunk {chunk rest : Bytes} (h : chunk ≠ []) :
    decode (.payload chunk.length) (chunk ++ rest) =
      ⟨chunk :: (decode (.payload 0) rest).pieces, (decode (.payload 0) rest).outcome⟩ := by
  cases chunk with
  | nil => exact absurd rfl h
  | cons b chunk =>
    have hstep : step (.payload (chunk.length + 1)) b (chunk ++ rest) =
        .next (.payload 0) (some (b :: chunk)) rest := by
      simp [step]
    rw [List.length_cons, List.cons_append, decode_of_step_next hstep]
    rfl

theorem decode_lineBreak {lineBreak rest : Bytes} (h : LineBreak lineBreak) :
    decode (.payload 0) (lineBreak ++ rest) = decode (.size []) rest := by
  obtain rfl | rfl := h
  · have hstep : step (.payload 0) Byte.lf rest = .next (.size []) none rest := rfl
    rw [List.singleton_append, decode_of_step_next hstep]
    rfl
  · have hreturn : step (.payload 0) Byte.cr (Byte.lf :: rest) =
        .next .afterReturn none (Byte.lf :: rest) := rfl
    have hfeed : step .afterReturn Byte.lf rest = .next (.size []) none rest := rfl
    rw [List.cons_append, List.singleton_append, decode_of_step_next hreturn,
      decode_of_step_next hfeed]
    rfl

theorem decode_trailerLine {line rest : Bytes} (h : TrailerLine line) (hnot : ¬ LineBreak line) :
    decode (.trailer []) (line ++ rest) = decode (.trailer []) rest := by
  have hread := readLine_line h.text h.length_le rest
  have hempty : ¬ isEmptyLine line = true := fun hline => hnot (isEmptyLine_eq_true.mp hline)
  obtain ⟨b, tail, heq⟩ := exists_cons_of_text h.text rest
  have hstep : step (.trailer []) b tail = .next (.trailer []) none rest := by
    simp only [step, stepTrailer, ← heq, hread, if_neg hempty]
  rw [heq, decode_of_step_next hstep]
  rfl

theorem decode_emptyLine {line rest : Bytes} (h : LineBreak line) :
    decode (.trailer []) (line ++ rest) = ⟨[], .finished rest⟩ := by
  have hread := readLine_line h.text (h.length_le.trans (by decide)) rest
  obtain ⟨b, tail, heq⟩ := exists_cons_of_text h.text rest
  have hstep : step (.trailer []) b tail = .stop (.finished rest) := by
    simp only [step, stepTrailer, ← heq, hread, if_pos (isEmptyLine_eq_true.mpr h)]
  rw [heq, decode_of_step_stop hstep]

/-- A trailer section is read to its end. -/
theorem decode_trailerSection {trailer : Bytes} (h : TrailerSection trailer) (rest : Bytes) :
    decode (.trailer []) (trailer ++ rest) = ⟨[], .finished rest⟩ := by
  induction h with
  | emptyLine hline => exact decode_emptyLine hline
  | trailerLine hline hnot _ ih => rw [List.append_assoc, decode_trailerLine hline hnot, ih]

/-- **Completeness.** A body of the grammar is read to its end, whatever follows it, and hands
out its payload. -/
theorem decode_chunkedBody {body payload : Bytes} (h : ChunkedBody body payload) (rest : Bytes) :
    (initial.decode (body ++ rest)).outcome = .finished rest ∧
      (initial.decode (body ++ rest)).payload = payload := by
  induction h with
  | last hline htrailer =>
    rw [initial, List.append_assoc, decode_sizeLine hline, if_pos rfl,
      decode_trailerSection htrailer]
    exact ⟨rfl, rfl⟩
  | @chunk line chunk lineBreak body payload hline hchunk hbreak _ ih =>
    have hsize : chunk.length ≠ 0 := fun hnil => hchunk (List.length_eq_zero_iff.mp hnil)
    simp only [List.append_assoc] at ih ⊢
    rw [initial, decode_sizeLine hline, if_neg hsize, decode_chunk hchunk, decode_lineBreak hbreak]
    obtain ⟨houtcome, hpayload⟩ := ih
    refine ⟨houtcome, ?_⟩
    simp only [Decoded.payload, List.flatten_cons] at hpayload ⊢
    rw [← hpayload, initial]

/-! ## What a decoder still takes -/

/-- Whether the decoder has read nothing of a line yet. -/
def AtLineStart : Decoder → Prop
  | .size line => line = []
  | .trailer line => line = []
  | _ => True

/-- `Reads d body data`: a decoder at the start of a line takes `body` for the rest of a chunked
body, with `data` in it. -/
def Reads : Decoder → Bytes → Bytes → Prop
  | .size _, body, data => ChunkedBody body data
  | .payload n, body, data => ∃ chunk lineBreak rest after,
      chunk.length = n ∧ LineBreak lineBreak ∧ ChunkedBody rest after ∧
        body = chunk ++ (lineBreak ++ rest) ∧ data = chunk ++ after
  | .afterReturn, body, data => ∃ rest, body = Byte.lf :: rest ∧ ChunkedBody rest data
  | .trailer _, body, data => TrailerSection body ∧ data = []

/-- One step back: what the decoder takes after a step, it takes before it together with what
the step read. -/
def KeepsReading (d : Decoder) (input : Bytes) (next : Decoder) (piece : Option Bytes)
    (tail : Bytes) : Prop :=
  next.AtLineStart ∧ ∀ body payload rest, tail = body ++ rest → Reads next body payload →
    ∃ whole, input = whole ++ rest ∧ Reads d whole (piece.toList.flatten ++ payload)

theorem readLine_nil_whole {input line rest : Bytes} (h : readLine [] input = .whole line rest) :
    input = line ++ rest ∧ (∃ text, line = text ++ [Byte.lf] ∧ Byte.lf ∉ text) ∧
      line.length ≤ 1024 := by
  obtain ⟨text, hnot, rfl, rfl, hlen⟩ := readLine_whole h
  exact ⟨by simp, ⟨text, rfl, hnot⟩, hlen⟩

theorem keepsReading_of_moves {d next : Decoder} {b : UInt8} {input tail : Bytes}
    {piece : Option Bytes} (hd : d.AtLineStart) (h : Moves b input d next piece tail) :
    KeepsReading d (b :: input) next piece tail := by
  cases h with
  | @lastSize _ _ line whole _ hread hsize =>
    cases hd
    obtain ⟨heq, -, hlen⟩ := readLine_nil_whole hread
    rw [heq]
    refine ⟨rfl, ?_⟩
    rintro body payload rest rfl ⟨htrailer, rfl⟩
    exact ⟨whole ++ body, (List.append_assoc ..).symm,
      .last ⟨sizeOfLine?_eq_some.mp hsize, hlen⟩ htrailer⟩
  | @size _ _ line whole _ n hread hsize =>
    cases hd
    obtain ⟨heq, -, hlen⟩ := readLine_nil_whole hread
    rw [heq]
    refine ⟨trivial, ?_⟩
    rintro body payload rest rfl ⟨chunk, lineBreak, more, after, hcount, hbreak, hmore, rfl, rfl⟩
    have hline : SizeLine chunk.length whole :=
      ⟨sizeOfLine?_eq_some.mp (by rw [hsize, hcount]), hlen⟩
    have hchunk : chunk ≠ [] := by
      intro heq
      subst heq
      cases hcount
    exact ⟨whole ++ (chunk ++ (lineBreak ++ more)), (List.append_assoc ..).symm,
      .chunk hline hchunk hbreak hmore⟩
  | payload b input n =>
    -- The step takes `b` and as much of the chunk as there is. `chunk` is what is still to come.
    refine ⟨trivial, ?_⟩
    rintro body payload rest hdrop ⟨chunk, lineBreak, more, after, hcount, hbreak, hmore, rfl, rfl⟩
    refine ⟨b :: (input.take n ++ chunk) ++ (lineBreak ++ more), ?_,
      b :: (input.take n ++ chunk), lineBreak, more, after, ?_, hbreak, hmore, rfl, by simp⟩
    · conv_lhs => rw [← List.take_append_drop n input, hdrop]
      simp
    · have htake : (input.take n).length ≤ n := List.length_take_le ..
      simp only [List.length_cons, List.length_append, hcount]
      omega
  | carriageReturn input =>
    refine ⟨trivial, ?_⟩
    rintro body payload rest rfl ⟨more, rfl, hmore⟩
    exact ⟨Byte.cr :: Byte.lf :: more, rfl, [], [Byte.cr, Byte.lf], more, payload, rfl, .inr rfl,
      hmore, rfl, rfl⟩
  | lineFeed input =>
    refine ⟨rfl, ?_⟩
    rintro body payload rest rfl hbody
    exact ⟨Byte.lf :: body, rfl, [], [Byte.lf], body, payload, rfl, .inl rfl, hbody, rfl, rfl⟩
  | lineFeedAfterReturn input =>
    refine ⟨rfl, ?_⟩
    rintro body payload rest rfl hbody
    exact ⟨Byte.lf :: body, rfl, body, rfl, hbody⟩
  | @trailer _ _ line whole _ hread hnot =>
    cases hd
    obtain ⟨heq, htext, hlen⟩ := readLine_nil_whole hread
    rw [heq]
    refine ⟨rfl, ?_⟩
    rintro body payload rest rfl ⟨htrailer, rfl⟩
    exact ⟨whole ++ body, (List.append_assoc ..).symm,
      .trailerLine ⟨htext, hlen⟩ (fun hline => hnot (isEmptyLine_eq_true.mpr hline)) htrailer, rfl⟩

theorem reads_of_step_finished {d : Decoder} {b : UInt8} {input rest : Bytes}
    (hd : d.AtLineStart) (h : step d b input = .stop (.finished rest)) :
    ∃ body, b :: input = body ++ rest ∧ Reads d body [] := by
  obtain ⟨line, whole, rfl, hread, hempty⟩ := emptyLine_of_step_finished h
  cases hd
  obtain ⟨heq, -, -⟩ := readLine_nil_whole hread
  exact ⟨whole, heq, .emptyLine (isEmptyLine_eq_true.mp hempty), rfl⟩

/-- **Soundness.** What a decoder reads before it reports the end is what it takes for a body. -/
theorem reads_of_finished {d : Decoder} {input rest : Bytes} (hd : d.AtLineStart)
    (h : (d.decode input).outcome = .finished rest) :
    ∃ body, input = body ++ rest ∧ Reads d body (d.decode input).payload := by
  induction d, input using decode_induction with
  | nil d =>
    rw [decode_nil] at h
    cases h
  | stop d b input outcome hstep =>
    rw [decode_of_step_stop hstep] at h ⊢
    cases h
    exact reads_of_step_finished hd hstep
  | next d b input after piece tail hstep ih =>
    obtain ⟨hnext, hkeeps⟩ := keepsReading_of_moves hd (moves_of_step_next hstep)
    rw [decode_of_step_next hstep] at h ⊢
    obtain ⟨body, hbody, hreads⟩ := ih hnext h
    obtain ⟨whole, hwhole, hreads⟩ := hkeeps body _ rest hbody hreads
    exact ⟨whole, hwhole, by simpa only [Decoded.payload, List.flatten_append] using hreads⟩

/-! ## The agreement -/

/-- Input on which the framing breaks is the beginning of no body. -/
theorem not_prefix_of_broken {input : Bytes} (h : (initial.decode input).outcome = .broken)
    {body payload : Bytes} (hbody : ChunkedBody body payload) : ¬ input <+: body := by
  rintro ⟨more, rfl⟩
  have hwhole := (decode_chunkedBody hbody []).1
  have hcut := (decode_append initial input more).outcome
  rw [List.append_nil] at hwhole
  rw [hwhole, Decoded.feed, h] at hcut
  cases hcut.trans h

/-- **The decoder recognises exactly the chunked bodies**, however its input is cut. It reports
the end with `rest` left over exactly when what came before `rest` is a chunked body, it has then
handed out the payload of that body, and it reports broken framing only on input that no chunked
body starts with. -/
theorem feedAll_recognises (stretches : List Bytes) :
    (∀ body rest, stretches.flatten = body ++ rest →
      ((initial.feedAll stretches).outcome = .finished rest ↔
        ∃ payload, ChunkedBody body payload)) ∧
    (∀ rest, (initial.feedAll stretches).outcome = .finished rest →
      ∃ body, stretches.flatten = body ++ rest) ∧
    (∀ body rest payload, stretches.flatten = body ++ rest → ChunkedBody body payload →
      (initial.feedAll stretches).payload = payload) ∧
    ((initial.feedAll stretches).outcome = .broken →
      ∀ body payload, ChunkedBody body payload → ¬ stretches.flatten <+: body) := by
  obtain ⟨hpayload, houtcome⟩ := feedAll_flatten initial stretches
  rw [houtcome, hpayload]
  refine ⟨fun body rest hinput => ⟨fun h => ?_, ?_⟩, fun rest h => ?_, ?_, fun h body payload => ?_⟩
  · obtain ⟨body', hbody', hreads⟩ := reads_of_finished (d := initial) rfl h
    have hsame : body' = body := List.append_cancel_right (hbody'.symm.trans hinput)
    exact ⟨_, hsame ▸ hreads⟩
  · rintro ⟨payload, hbody⟩
    rw [hinput]
    exact (decode_chunkedBody hbody rest).1
  · obtain ⟨body, hbody, -⟩ := reads_of_finished (d := initial) rfl h
    exact ⟨body, hbody⟩
  · intro body rest payload hinput hbody
    rw [hinput]
    exact (decode_chunkedBody hbody rest).2
  · exact not_prefix_of_broken h

/-- A body of two chunks, with sizes of both letter cases, an extension, a blank, a last size
without digits and a trailer line. -/
def twoChunks : Bytes :=
  Utf8.encode "0A;x=1\r\n0123456789\r\n1 \r\nz\n\r\nT: 1\n\r\n"

/-- That body, cut inside a line, a chunk and the last line break, and what comes behind it. -/
def cutChunks : List Bytes :=
  [twoChunks.take 7, (twoChunks.take 12).drop 7, twoChunks.drop 12 ++ Utf8.encode "HTTP"]

/-- A body that breaks off inside a chunk, behind which there is no line break. -/
def brokenChunks : List Bytes := ["b\r", "\n0123456789z!"].map Utf8.encode

theorem cutChunks_recognised :
    ((initial.feedAll cutChunks).outcome = .finished (Utf8.encode "HTTP") ∧
        ChunkedBody twoChunks (Utf8.encode "0123456789z") ∧
        (initial.feedAll cutChunks).payload = Utf8.encode "0123456789z") ∧
      (initial.feedAll brokenChunks).outcome = .broken ∧
      ∀ body payload, ChunkedBody body payload → ¬ brokenChunks.flatten <+: body := by
  have hflatten : cutChunks.flatten = twoChunks ++ Utf8.encode "HTTP" := by decide +kernel
  have houtcome : (initial.feedAll cutChunks).outcome = .finished (Utf8.encode "HTTP") := by
    decide +kernel
  have hpayload : (initial.feedAll cutChunks).payload = Utf8.encode "0123456789z" := by
    decide +kernel
  have hbroken : (initial.feedAll brokenChunks).outcome = .broken := by decide +kernel
  obtain ⟨hends, -, hcarries, -⟩ := feedAll_recognises cutChunks
  obtain ⟨payload, hbody⟩ := (hends _ _ hflatten).mp houtcome
  have hsame : payload = Utf8.encode "0123456789z" :=
    (hcarries _ _ payload hflatten hbody).symm.trans hpayload
  exact ⟨⟨houtcome, hsame ▸ hbody, hpayload⟩, hbroken,
    (feedAll_recognises brokenChunks).2.2.2 hbroken⟩

end Decoder

end HttpWire.Chunked
