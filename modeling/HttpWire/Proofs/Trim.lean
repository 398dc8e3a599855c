import HttpWire.Byte
import HttpWire.Proofs.Span
/-!
# Trimmed bytes

Trimming takes away the blanks at the ends and nothing else: whatever is trimmed is the rest with
blanks around it, and what has no blanks at its ends is found again between blanks.
-/

namespace HttpWire.Bytes

/-- What is trimmed off the end is blanks. -/
theorem exists_trimEnd (bytes : Bytes) :
    ∃ blanks, bytes = bytes.trimEnd ++ blanks ∧ ∀ b ∈ blanks, Byte.isBlank b = true := by
  refine ⟨(bytes.reverse.takeWhile Byte.isBlank).reverse, ?_, fun b hb => ?_⟩
  · rw [trimEnd, ← List.reverse_append, List.takeWhile_append_dropWhile, List.reverse_reverse]
  · exact List.mem_takeWhile_imp (List.mem_reverse.mp hb)

theorem getLast?_trimEnd (bytes : Bytes) :
    ∀ b ∈ bytes.trimEnd.getLast?, Byte.isBlank b = false := by
  obtain ⟨blanks, rest, hrun, hblanks, hrest⟩ := exists_run Byte.isBlank bytes.reverse
  rw [trimEnd, hrun, dropWhile_run hblanks hrest, List.getLast?_reverse]
  exact hrest

theorem head?_trimEnd {bytes : Bytes} {p : UInt8 → Prop} (h : ∀ b ∈ bytes.head?, p b) :
    ∀ b ∈ bytes.trimEnd.head?, p b := by
  obtain ⟨blanks, hblanks, -⟩ := exists_trimEnd bytes
  intro b hb
  refine h b ?_
  rw [hblanks, List.head?_append, Option.mem_def.mp hb]
  rfl

/-- What is trimmed off is blanks. -/
theorem exists_trim (bytes : Bytes) :
    ∃ before after, bytes = before ++ (bytes.trim ++ after) ∧
      (∀ b ∈ before, Byte.isBlank b = true) ∧ ∀ b ∈ after, Byte.isBlank b = true := by
  obtain ⟨after, hafter, hblanks⟩ := exists_trimEnd (bytes.dropWhile Byte.isBlank)
  refine ⟨bytes.takeWhile Byte.isBlank, after, ?_, fun b hb => List.mem_takeWhile_imp hb, hblanks⟩
  rw [trim, ← hafter, List.takeWhile_append_dropWhile]

section
variable {value after : Bytes}

theorem trimEnd_append (hlast : ∀ b ∈ value.getLast?, Byte.isBlank b = false)
    (hafter : ∀ b ∈ after, Byte.isBlank b = true) : trimEnd (value ++ after) = value := by
  have hstop : ∀ b ∈ value.reverse.head?, Byte.isBlank b = false := by
    rwa [List.head?_reverse]
  rw [trimEnd, List.reverse_append,
    dropWhile_run (fun b hb => hafter b (List.mem_reverse.mp hb)) hstop, List.reverse_reverse]

theorem trimEnd_eq (hlast : ∀ b ∈ value.getLast?, Byte.isBlank b = false) :
    value.trimEnd = value := by
  have hnil : trimEnd (value ++ []) = value := trimEnd_append hlast (by simp)
  rwa [List.append_nil] at hnil

variable (hhead : ∀ b ∈ value.head?, Byte.isBlank b = false)
  (hlast : ∀ b ∈ value.getLast?, Byte.isBlank b = false)
include hhead hlast

theorem trim_eq : value.trim = value := by
  rw [trim, dropWhile_of_head hhead, trimEnd_eq hlast]

/-- **Between blanks a value is found again**, unless there is nothing to it. -/
theorem trim_between {before : Bytes} (hne : value ≠ [])
    (hbefore : ∀ b ∈ before, Byte.isBlank b = true) (hafter : ∀ b ∈ after, Byte.isBlank b = true) :
    trim (before ++ (value ++ after)) = value := by
  have hstop : ∀ b ∈ (value ++ after).head?, Byte.isBlank b = false := by
    cases value with
    | nil => exact absurd rfl hne
    | cons c rest => exact hhead
  rw [trim, dropWhile_run hbefore hstop, trimEnd_append hlast hafter]

end

end HttpWire.Bytes
