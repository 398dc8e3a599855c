import Mathlib.Data.List.TakeWhile
/-!
# Runs of one class

A run of elements of one class, and behind it something that starts outside the class: that is
how readers cut their input, and these are the equations with which they find the cut again.
-/

namespace HttpWire

variable {α : Type} {p : α → Bool} {run rest : List α}

theorem takeWhile_run (hrun : ∀ a ∈ run, p a = true) (hstop : ∀ a ∈ rest.head?, p a = false) :
    (run ++ rest).takeWhile p = run := by
  rw [List.takeWhile_append_of_pos hrun]
  cases rest with
  | nil => simp
  | cons a rest =>
    have ha : ¬ p a = true := by simp [hstop a rfl]
    rw [List.takeWhile_cons_of_neg ha, List.append_nil]

theorem dropWhile_run (hrun : ∀ a ∈ run, p a = true) (hstop : ∀ a ∈ rest.head?, p a = false) :
    (run ++ rest).dropWhile p = rest := by
  rw [List.dropWhile_append_of_pos hrun]
  cases rest with
  | nil => rfl
  | cons a rest =>
    have ha : ¬ p a = true := by simp [hstop a rfl]
    rw [List.dropWhile_cons_of_neg ha]

theorem dropWhile_of_head (h : ∀ a ∈ rest.head?, p a = false) : rest.dropWhile p = rest := by
  have hnil : ∀ a ∈ ([] : List α), p a = true := by simp
  exact dropWhile_run hnil h

/-- Every list is a run and something that starts outside the class. -/
theorem exists_run (p : α → Bool) (list : List α) :
    ∃ run rest, list = run ++ rest ∧ (∀ a ∈ run, p a = true) ∧ ∀ a ∈ rest.head?, p a = false := by
  refine ⟨list.takeWhile p, list.dropWhile p, List.takeWhile_append_dropWhile.symm,
    fun a ha => List.mem_takeWhile_imp ha, fun a ha => ?_⟩
  have hne : list.dropWhile p ≠ [] := by
    intro hnil
    rw [hnil] at ha
    cases ha
  have hnot := List.head_dropWhile_not p hne
  rw [List.head?_eq_some_head hne] at ha
  cases ha
  exact hnot

end HttpWire
