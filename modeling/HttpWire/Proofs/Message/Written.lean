import HttpWire.Proofs.Framing
import HttpWire.Proofs.Headers
/-!
# What a message writes

What requests and responses have in common when they are written: the live fields and behind them
the length of the body, the empty line and the body. Fields that leave the framing to writing are
read back as they are, and frame the body that was written.
-/

namespace HttpWire.Message

/-- What has to hold of the fields and the body of a message for them to read back. -/
structure IsWritable (m : Message) : Prop where
  plain : ∀ field ∈ m.headers.live, (Field.ofEntry field).IsPlain
  /-- The framing is left to writing. -/
  unframed : ∀ field ∈ m.headers.live,
    sameName field.1 lengthName = false ∧ sameName field.1 "Transfer-Encoding" = false
  /-- Any body that fits into a memory of 64-bit addresses does. -/
  size : m.body.size < UInt64.size

instance (m : Message) : Decidable m.IsWritable :=
  decidable_of_iff
    ((∀ field ∈ m.headers.live, (Field.ofEntry field).IsPlain) ∧
      (∀ field ∈ m.headers.live,
        sameName field.1 lengthName = false ∧ sameName field.1 "Transfer-Encoding" = false) ∧
      m.body.size < UInt64.size)
    ⟨fun ⟨a, b, c⟩ => ⟨a, b, c⟩, fun ⟨a, b, c⟩ => ⟨a, b, c⟩⟩

/-- Field lines, the empty line and the body, with the fields in their wire form. -/
theorem bytes_eq (m : Message) :
    m.bytes = (m.writtenFields.map Field.ofEntry).flatMap Field.line ++ lineBreak ++
      m.body.toList := by
  rw [bytes, List.flatMap_map]
  rfl

/-- **Plain field lines read back**, up to the empty line. -/
theorem fieldLines_of_plain {m : Message}
    (hplain : ∀ entry ∈ m.writtenFields, (Field.ofEntry entry).IsPlain) {maxFields : Nat}
    (hroom : m.writtenFields.length ≤ maxFields) (rest : Bytes) :
    Head.fieldLines maxFields
        ((m.writtenFields.map Field.ofEntry).flatMap Field.line ++ lineBreak ++ rest) =
      .done (m.writtenFields.map Field.ofEntry) rest := by
  have hfields : ∀ field ∈ m.writtenFields.map Field.ofEntry, field.IsPlain := by
    intro field hfield
    obtain ⟨entry, hentry, rfl⟩ := List.mem_map.mp hfield
    exact hplain entry hentry
  exact Head.fieldLines_append hfields (by simpa using hroom) rest

/-! ## Lines -/

/-- The live fields are written in order, and the length of the body behind them unless one of them
gives a length. -/
theorem writtenFields_eq_append (m : Message) :
    m.writtenFields = m.headers.live ++
      if m.headers.live.any (fun field => sameName field.1 lengthName) then []
      else [(lengthName, Nat.repr m.body.size)] := by
  rw [writtenFields]
  split
  · rw [List.append_nil]
  · rfl

/-- **No two lines have the same name.** -/
theorem distinct_writtenFields (m : Message) :
    m.writtenFields.Pairwise fun a b => sameName a.1 b.1 = false := by
  rw [writtenFields]
  split
  · exact Headers.live_distinct m.headers
  · next hnone =>
    rw [List.pairwise_append]
    refine ⟨Headers.live_distinct m.headers, List.pairwise_singleton _ _, ?_⟩
    intro field hfield length hlength
    obtain rfl := List.mem_singleton.mp hlength
    simpa using mt (fun hsame => List.any_eq_true.mpr ⟨field, hfield, hsame⟩) hnone

/-- Under every other name the lines are the live fields. -/
theorem filter_writtenFields (m : Message) {name : String}
    (h : sameName lengthName name = false) :
    m.writtenFields.filter (fun field => sameName field.1 name) =
      m.headers.live.filter fun field => sameName field.1 name := by
  rw [writtenFields]
  split
  · rfl
  · rw [List.filter_append, List.filter_cons_of_neg (by simp [h]), List.filter_nil,
      List.append_nil]

/-- **One line gives the length of the body.** -/
theorem countP_writtenFields (m : Message) :
    m.writtenFields.countP (fun field => sameName field.1 lengthName) = 1 := by
  obtain ⟨field, hfield, hname⟩ :
      ∃ field ∈ m.writtenFields, sameName field.1 lengthName = true := by
    rw [writtenFields]
    split
    · next hsome => exact List.any_eq_true.mp hsome
    · exact ⟨_, List.mem_append_right _ List.mem_cons_self, sameName_iff.mpr rfl⟩
  rw [List.countP_eq_length_filter,
    NameMap.filter_of_mem m.distinct_writtenFields hfield hname]
  rfl

namespace IsWritable

variable {m : Message} (h : m.IsWritable)
include h

/-- The length of the body is written after the live fields, since none of these gives it. -/
theorem writtenFields_eq :
    m.writtenFields = m.headers.live ++ [(lengthName, Nat.repr m.body.size)] := by
  have hnone : m.headers.live.any (fun field => sameName field.1 lengthName) = false := by
    rw [List.any_eq_false]
    intro field hfield
    rw [Bool.not_eq_true]
    exact (h.unframed field hfield).1
  rw [writtenFields, hnone]
  rfl

theorem isPlain {field : String × String} (hfield : field ∈ m.writtenFields) :
    (Field.ofEntry field).IsPlain := by
  rw [h.writtenFields_eq, List.mem_append, List.mem_singleton] at hfield
  rcases hfield with hlive | rfl
  · exact h.plain field hlive
  · exact isPlain_length _

/-- What is written under a name. -/
theorem valuesOf_writtenFields (name : String) :
    Framing.valuesOf name (m.writtenFields.map Field.ofEntry) =
      Framing.valuesOf name (m.headers.live.map Field.ofEntry) ++
        if sameName lengthName name then [Utf8.encode (Nat.repr m.body.size)] else [] := by
  rw [Framing.valuesOf_ofEntry, Framing.valuesOf_ofEntry, h.writtenFields_eq, List.filter_append,
    List.map_append]
  by_cases hname : sameName lengthName name = true
  · simp [hname]
  · simp [hname]

/-- **The written fields frame the written body.** -/
theorem ofFields_writtenFields :
    Framing.ofFields (m.writtenFields.map Field.ofEntry) = .ok (some (.length m.body.size)) := by
  have hcoding : ∀ field ∈ m.headers.live, sameName field.1 "Transfer-Encoding" = false :=
    fun field hfield => (h.unframed field hfield).2
  have hlength : ∀ field ∈ m.headers.live, sameName field.1 "Content-Length" = false :=
    fun field hfield => (h.unframed field hfield).1
  have hother : sameName lengthName "Transfer-Encoding" = false := by decide
  have hsame : sameName lengthName "Content-Length" = true := by decide
  refine Framing.ofFields_of_length ?_ ?_ h.size
  · rw [h.valuesOf_writtenFields, Framing.valuesOf_ofEntry_eq_nil hcoding, hother]
    rfl
  · rw [h.valuesOf_writtenFields, Framing.valuesOf_ofEntry_eq_nil hlength, hsame]
    rfl

/-- The length of the body asks for no other protocol. -/
theorem asksForUpgrade_writtenFields :
    Framing.asksForUpgrade (m.writtenFields.map Field.ofEntry) =
      Framing.asksForUpgrade (m.headers.live.map Field.ofEntry) := by
  have hconnection : sameName lengthName "Connection" = false := by decide
  have hupgrade : sameName lengthName "Upgrade" = false := by decide
  simp only [Framing.asksForUpgrade, h.valuesOf_writtenFields, hconnection, hupgrade,
    Bool.false_eq_true, if_false, List.append_nil]

end IsWritable

end HttpWire.Message
