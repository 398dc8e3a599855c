import HttpWire.Proofs.Framing.Lines
import HttpWire.Proofs.Head.Grammar
import HttpWire.Proofs.Reader.Failure
/-!
# What a head decides

A head that is well-formed takes the reader to a place that its start line and its field lines
decide: into the body, past a message without one, to a switch of protocols, or into an error if its
lengths are at odds. Of the field lines only the set of them has a say in that.
-/

namespace HttpWire.Reader

variable {kind : Kind}

/-- A block of lines that make up a head within the limits, with a method that is known if it is
that of a request. -/
structure WellFormed (kind : Kind) (limits : Limits) (block : Bytes) (head : Head) (start : Start) :
    Prop where
  lines : Head.Lines kind head block
  fits : block.length ≤ limits.maxHeadLength
  room : head.fields.length ≤ limits.maxFields
  known : head.start.start = .ok start

theorem wellFormed_of_parse {limits : Limits} {block : Bytes} {head : Head} {start : Start}
    (hparse : Head.parse kind limits.maxFields block = .done head [])
    (hfits : block.length ≤ limits.maxHeadLength) (hknown : head.start.start = .ok start) :
    WellFormed kind limits block head start := by
  obtain ⟨hlines, hroom⟩ := Head.lines_of_parse_done hparse
  exact ⟨hlines, hfits, hroom, hknown⟩

/-- The reader that a head leaves. -/
def behindHead (r : Reader kind) (start : Start) (fields : List Field) : Reader kind :=
  match Framing.ofHead kind start fields with
  | .ok framing => ⟨r.limits, State.afterHead framing, start⟩
  | .error error => ⟨r.limits, .failed error, r.start⟩

section
variable {limits : Limits} {block : Bytes} {head : Head} {start : Start}
  (h : WellFormed kind limits block head start)
include h

theorem WellFormed.parse : Head.parse kind limits.maxFields block = .done head [] :=
  Head.parse_eq_done_iff.mpr ⟨block, h.lines, by rw [List.append_nil], h.room⟩

theorem WellFormed.isPlain : ∀ field ∈ head.fields, field.IsPlain :=
  Head.isPlain_of_parse_done h.parse

end

section
variable {r : Reader kind} (hidle : r.state = .idle) {block : Bytes} {head : Head} {start : Start}
include hidle

theorem consume_wellFormed (h : WellFormed kind r.limits block head start) :
    (r.consume block).reader = r.behindHead start head.fields := by
  rw [behindHead]
  cases hframing : Framing.ofHead kind start head.fields with
  | error error =>
    have hconsume := consume_of_unsound hidle h.parse h.fits h.known hframing []
    rw [List.append_nil] at hconsume
    rw [hconsume]
    rfl
  | ok framing =>
    have hconsume := consume_head hidle ⟨h.parse, h.fits, h.known, hframing⟩ []
    rw [List.append_nil, consume_nil] at hconsume
    rw [hconsume]
    rfl

variable {before : Bytes} (hbefore : r.ComesThrough before) {pieces : List Bytes}
  (hne : ∀ piece ∈ pieces, piece ≠ []) (h : WellFormed kind r.limits block head start)
include hbefore hne h

/-- **Where a head leaves the reader**, in however many calls it comes. -/
theorem reader_feedAll_of_wellFormed (hpieces : pieces.flatten = before ++ block) :
    (r.feedAll pieces).reader = (r.feed before).reader.behindHead start head.fields := by
  have hlimits : (r.feed before).reader.limits = r.limits := limits_feed r before
  rw [(feedAll_behind hidle hbefore hne hpieces).reader]
  exact consume_wellFormed hbefore.between (hlimits ▸ h)

/-- A message whose head is well-formed fails for its lengths exactly if they are at odds and no
chunks are asked for. -/
theorem failsBehind_invalidContentLength_iff {tail : Bytes}
    (hpieces : pieces.flatten = before ++ (block ++ tail)) :
    (r.feedAll pieces).FailsBehind r before .invalidContentLength ↔
      ¬ Framing.EndsInChunked head.fields ∧ Framing.LengthsAtOdds head.fields := by
  have hlimits : (r.feed before).reader.limits = r.limits := limits_feed r before
  have hafter : WellFormed kind (r.feed before).reader.limits block head start := hlimits ▸ h
  rw [failsBehind_iff hidle hbefore hne hpieces,
    failsFirst_head_iff hbefore.between hafter.parse hafter.fits tail (by decide),
    ← Framing.ofHead_eq_error_iff h.isPlain kind start, h.known]
  simp

end

/-- **The framing of a message is decided by the set of its field lines, and lengths that are at
odds are always found.** A message that begins behind input which has been read to its end, with a
head of well-formed lines within the limits, fails for its lengths exactly if no `Transfer-Encoding`
line ends in `chunked`, and some `Content-Length` is empty, not all digits or too large, or any two
denote different numbers. A switch of protocols makes no difference to that, nor a status that
excludes a body.

Another such head with the same start line that holds the same lines, in any order and with names in
any letter case, has the same framing or the same error and decides the same about a switch of
protocols, and leaves the reader the same, however the calls cut the two. -/
theorem framing_of_lines (r : Reader kind) (before block : Bytes) (head : Head) (start : Start)
    (hidle : r.state = .idle) (hbefore : r.ComesThrough before)
    (h : WellFormed kind r.limits block head start) :
    (∀ pieces tail, (∀ piece ∈ pieces, piece ≠ []) →
      pieces.flatten = before ++ (block ++ tail) →
        ((r.feedAll pieces).FailsBehind r before .invalidContentLength ↔
          ¬ Framing.EndsInChunked head.fields ∧ Framing.LengthsAtOdds head.fields)) ∧
    ∀ block' head', WellFormed kind r.limits block' head' start →
      Framing.SameLines head.fields head'.fields →
        Framing.ofHead kind start head.fields = Framing.ofHead kind start head'.fields ∧
        Framing.switchesProtocol kind start head.fields =
          Framing.switchesProtocol kind start head'.fields ∧
        ∀ pieces pieces', (∀ piece ∈ pieces, piece ≠ []) → (∀ piece ∈ pieces', piece ≠ []) →
          pieces.flatten = before ++ block → pieces'.flatten = before ++ block' →
            (r.feedAll pieces).reader = (r.feedAll pieces').reader := by
  refine ⟨fun pieces tail hne hpieces =>
    failsBehind_invalidContentLength_iff hidle hbefore hne h hpieces, ?_⟩
  intro block' head' h' hsame
  have hframing := hsame.ofHead_eq kind start
  refine ⟨hframing, hsame.switchesProtocol_eq kind start, ?_⟩
  intro pieces pieces' hne hne' hpieces hpieces'
  rw [reader_feedAll_of_wellFormed hidle hbefore hne h hpieces,
    reader_feedAll_of_wellFormed hidle hbefore hne' h' hpieces', behindHead, behindHead, hframing]

/-- The lines of a response that grants an upgrade, with two lengths that are at odds. -/
def upgradeHead : Bytes :=
  Utf8.encode ("HTTP/1.1 101 S\nContent-Length: 7\nUpgrade: x\n" ++
    "Connection: upgrade\nContent-Length: 08\n\n")

/-- The same lines in another order, with other names. -/
def shuffledHead : Bytes :=
  Utf8.encode ("HTTP/1.1 101 S\nUPGRADE: x\ncontent-length: 08\n" ++
    "Connection: upgrade\ncontent-LENGTH: 7\n\n")

/-- The field of a line. -/
def fieldOf (name value : String) : Field := ⟨Utf8.encode name, Utf8.encode value⟩

/-- What the lines say. -/
def upgradeParts : Head where
  start := .status 1 101 (Utf8.encode "S")
  fields := [fieldOf "Content-Length" "7", fieldOf "Upgrade" "x", fieldOf "Connection" "upgrade",
    fieldOf "Content-Length" "08"]

/-- What the lines say in their other order. -/
def shuffledParts : Head where
  start := .status 1 101 (Utf8.encode "S")
  fields := [fieldOf "UPGRADE" "x", fieldOf "content-length" "08", fieldOf "Connection" "upgrade",
    fieldOf "content-LENGTH" "7"]

theorem wellFormed_upgradeHead :
    WellFormed .response {} upgradeHead upgradeParts { status := 101, version := 1 } :=
  wellFormed_of_parse (by decide +kernel) (by decide +kernel) rfl

theorem wellFormed_shuffledHead :
    WellFormed .response {} shuffledHead shuffledParts { status := 101, version := 1 } :=
  wellFormed_of_parse (by decide +kernel) (by decide +kernel) rfl

/-- In either order the lengths are found to be at odds, though the head would switch protocols. -/
theorem upgradeHead_refused :
    let r : Reader .response := {}
    (r.state = .idle ∧ r.ComesThrough [] ∧
        WellFormed .response r.limits upgradeHead upgradeParts { status := 101, version := 1 } ∧
        WellFormed .response r.limits shuffledHead shuffledParts { status := 101, version := 1 } ∧
        Framing.SameLines upgradeParts.fields shuffledParts.fields) ∧
      (r.feedAll [upgradeHead ++ [0x21]]).FailsBehind r [] .invalidContentLength ∧
      Framing.switchesProtocol .response { status := 101, version := 1 } shuffledParts.fields =
        true ∧
      (r.feedAll [upgradeHead]).reader = (r.feedAll [shuffledHead]).reader := by
  intro r
  have hthrough : r.ComesThrough [] := comesThrough_nil rfl
  have hsame : Framing.SameLines upgradeParts.fields shuffledParts.fields :=
    Framing.sameLines_of_perm (by decide +kernel)
  obtain ⟨hfails, hlines⟩ := framing_of_lines r [] upgradeHead upgradeParts _ rfl hthrough
    wellFormed_upgradeHead
  obtain ⟨-, hswitch, hreader⟩ := hlines _ _ wellFormed_shuffledHead hsame
  have hplain : ¬ Framing.EndsInChunked upgradeParts.fields := fun hchunked =>
    absurd (Framing.isChunked_iff.mpr hchunked) (by decide +kernel)
  have hodds : Framing.LengthsAtOdds upgradeParts.fields := by
    right
    refine ⟨fieldOf "Content-Length" "7", by decide +kernel, by decide +kernel,
      fieldOf "Content-Length" "08", by decide +kernel, by decide +kernel, by decide +kernel⟩
  refine ⟨⟨rfl, hthrough, wellFormed_upgradeHead, wellFormed_shuffledHead, hsame⟩, ?_, ?_, ?_⟩
  · exact (hfails [upgradeHead ++ [0x21]] [0x21] (by simp) (by simp)).mpr ⟨hplain, hodds⟩
  · rw [← hswitch]
    decide +kernel
  · exact hreader [upgradeHead] [shuffledHead] (by decide +kernel) (by decide +kernel) (by simp)
      (by simp)

end HttpWire.Reader
