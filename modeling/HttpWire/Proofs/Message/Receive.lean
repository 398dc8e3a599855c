import HttpWire.Proofs.Framing
import HttpWire.Proofs.Reader.Whole
/-!
# Receiving a message

A message fills up with the fields and the body that are reported. How the body is cut makes no
difference to it.
-/

namespace HttpWire

/-- The entry that a field becomes. What is no text in it is replaced. -/
def Field.toEntry (field : Field) : String × String :=
  (Utf8.decodeLossy field.name, Utf8.decodeLossy field.value)

theorem Field.toEntry_ofEntry (entry : String × String) : (Field.ofEntry entry).toEntry = entry := by
  obtain ⟨name, value⟩ := entry
  rw [toEntry, ofEntry, Utf8.decodeLossy_encode, Utf8.decodeLossy_encode]

/-- Inserts the fields of a head. -/
def Headers.insertFields (headers : Headers) (fields : List Field) : Headers :=
  fields.foldl (fun headers field => headers.insert field.toEntry.1 field.toEntry.2) headers

namespace Message

/-- Two pieces of a body are as good as both in one. -/
theorem receive_body (m : Message) (a b : Bytes) :
    (m.receive (.body a)).receive (.body b) = m.receive (.body (a ++ b)) := by
  have hbody : m.body ++ a ++ b = m.body ++ (a ++ b) := by
    apply Array.ext'
    simp
  rw [receive, receive, receive, ← hbody]

/-- Fields are taken in one by one, as text. The name that came last has no meaning any more. -/
theorem foldl_receive_fields (m : Message) (fields : List Field) :
    ∃ pendingName,
      (fields.flatMap Reader.fieldEvents).foldl receive m =
        { m with headers := m.headers.insertFields fields, pendingName } := by
  induction fields generalizing m with
  | nil => exact ⟨m.pendingName, rfl⟩
  | cons field fields ih =>
    have hfield : (Reader.fieldEvents field).foldl receive m =
        { m with
          headers := m.headers.insert field.toEntry.1 field.toEntry.2
          pendingName := field.name } := rfl
    rw [List.flatMap_cons, List.foldl_append, hfield]
    exact ih _

/-- Nor has a target any meaning for the message. -/
theorem foldl_receive_headEvents (m : Message) (head : Head) :
    ∃ pendingName,
      (Reader.headEvents head).foldl receive m =
        { m with headers := m.headers.insertFields head.fields, pendingName } := by
  obtain ⟨line, fields⟩ := head
  have hfields := foldl_receive_fields m fields
  cases line with
  | status version code reason => exact hfields
  | request method target version => exact hfields

theorem foldl_receive_pieces (m : Message) (pieces : List Bytes) :
    (pieces.map Event.body).foldl receive m = { m with body := m.body ++ pieces.flatten } := by
  induction pieces generalizing m with
  | nil => simp
  | cons piece pieces ih =>
    have hbody : m.body ++ piece ++ pieces.flatten = m.body ++ (piece :: pieces).flatten := by
      apply Array.ext'
      simp
    rw [List.map_cons, List.foldl_cons, ih, receive, ← hbody]

/-- **What is received of a whole message**: its fields, its body, and that it is complete. -/
theorem foldl_receive_whole (m : Message) (head : Head) (start : Start) (pieces : List Bytes) :
    ∃ pendingName,
      (Reader.openEvents head start ++ pieces.map Event.body ++
          [Event.messageComplete start]).foldl receive m =
        { headers := .insertFields {} head.fields
          body := pieces.flatten.toArray
          phase := .complete
          pendingName } := by
  obtain ⟨pendingName, hhead⟩ := foldl_receive_headEvents { phase := .inHeaders } head
  refine ⟨pendingName, ?_⟩
  rw [Reader.openEvents, List.foldl_append, List.foldl_append, List.foldl_append,
    List.foldl_append]
  show List.foldl receive (List.foldl receive (List.foldl receive
    (List.foldl receive { phase := .inHeaders } (Reader.headEvents _)) _) _) _ = _
  rw [hhead]
  simp only [List.foldl_cons, List.foldl_nil, foldl_receive_pieces, receive]
  simp

theorem bodyEvents_eq (body : Bytes) :
    ∃ pieces : List Bytes, Reader.bodyEvents body = pieces.map Event.body ∧
      pieces.flatten = body := by
  rw [Reader.bodyEvents]
  by_cases hnil : body = []
  · exact ⟨[], by rw [if_pos hnil]; rfl, hnil.symm⟩
  · exact ⟨[body], by rw [if_neg hnil]; rfl, by simp⟩

/-- The same if the body comes in one piece. -/
theorem foldl_receive_message (m : Message) (head : Head) (start : Start) (body : Bytes) :
    ∃ pendingName,
      (Reader.messageEvents head start body).foldl receive m =
        { headers := .insertFields {} head.fields
          body := body.toArray
          phase := .complete
          pendingName } := by
  obtain ⟨pieces, hpieces, rfl⟩ := bodyEvents_eq body
  rw [Reader.messageEvents, hpieces]
  exact foldl_receive_whole m head start pieces

/-- A message that was written is received with the entries that its fields are made of. -/
theorem foldl_receive_messageEvents (m : Message) (line : StartLine)
    (entries : List (String × String)) (start : Start) (body : Bytes) :
    ∃ pendingName,
      (Reader.messageEvents ⟨line, entries.map Field.ofEntry⟩ start body).foldl receive m =
        { headers := entries.foldl (fun headers entry => headers.insert entry.1 entry.2) {}
          body := body.toArray
          phase := .complete
          pendingName } := by
  obtain ⟨pendingName, hwhole⟩ :=
    foldl_receive_message m ⟨line, entries.map Field.ofEntry⟩ start body
  refine ⟨pendingName, ?_⟩
  rw [hwhole, Headers.insertFields, List.foldl_map]
  simp only [Field.toEntry_ofEntry]

end Message

end HttpWire
