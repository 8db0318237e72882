import Mathlib.Data.List.Infix

/-!
# Fields and glob patterns

A text of fields that are joined by a separator and split by position, and the patterns of
Redis over such texts: `*`, `?`, character classes in brackets and the backslash.
-/

namespace MtShards.Core

section Fields

variable {α : Type} [DecidableEq α] {sep : α}

/-- The text before the first separator is the first field. -/
theorem takeWhile_field {a rest : List α} (ha : sep ∉ a) :
    (a ++ sep :: rest).takeWhile (fun c => !decide (c = sep)) = a := by
  induction a with
  | nil => simp
  | cons c a ih =>
    rw [List.mem_cons, not_or] at ha
    simp [Ne.symm ha.1, ih ha.2]

/-- The text from the first separator on is what follows the first field. -/
theorem dropWhile_field {a rest : List α} (ha : sep ∉ a) :
    (a ++ sep :: rest).dropWhile (fun c => !decide (c = sep)) = sep :: rest := by
  induction a with
  | nil => simp
  | cons c a ih =>
    rw [List.mem_cons, not_or] at ha
    simp [Ne.symm ha.1, ih ha.2]

/-- A text that starts with a field says what the field is. -/
theorem field_inj {a b x y : List α} (ha : sep ∉ a) (hb : sep ∉ b)
    (h : a ++ sep :: x = b ++ sep :: y) : a = b ∧ x = y := by
  have htake := congrArg (List.takeWhile (fun c => !decide (c = sep))) h
  have hdrop := congrArg (List.dropWhile (fun c => !decide (c = sep))) h
  rw [takeWhile_field ha, takeWhile_field hb] at htake
  rw [dropWhile_field ha, dropWhile_field hb] at hdrop
  exact ⟨htake, (List.cons.inj hdrop).2⟩

end Fields

/-! ### Patterns -/

end MtShards.Core
