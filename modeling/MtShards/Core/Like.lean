import MtShards.Core.Text

/-!
# The patterns of `LIKE`

`%` for any text, `_` for any character and the backslash before a character that stands for
itself; and the escape that makes a text a pattern for itself.
-/

namespace MtShards.Core.Text

/-- `text LIKE pattern`. -/
def like : Text → Text → Bool
  | [], s => s.isEmpty
  | '%' :: ps, s => s.tails.any (like ps)
  | '_' :: ps, s =>
    match s with
    | [] => false
    | _ :: ds => like ps ds
  | '\\' :: c :: ps, s =>
    match s with
    | [] => false
    | d :: ds => c == d && like ps ds
  | c :: ps, s =>
    match s with
    | [] => false
    | d :: ds => c == d && like ps ds

/-- The characters that a pattern reads otherwise than literally. -/
def isLikeSpecial (c : Char) : Bool := c == '\\' || c == '%' || c == '_'

/-- A text as the pattern for itself. -/
def likeEscape (s : Text) : Text := s.flatMap fun c => if isLikeSpecial c then ['\\', c] else [c]

variable {s t ps : Text} {c : Char}

private theorem like_literal (hc : isLikeSpecial c = false) (ps t : Text) :
    like (c :: ps) t = match t with
      | [] => false
      | d :: ds => c == d && like ps ds := by
  rw [isLikeSpecial, Bool.or_eq_false_iff, Bool.or_eq_false_iff, beq_eq_false_iff_ne,
    beq_eq_false_iff_ne, beq_eq_false_iff_ne] at hc
  obtain ⟨⟨hslash, hpercent⟩, hunder⟩ := hc
  conv_lhs => unfold like
  split
  · contradiction
  · cases ‹_ :: _ = _›
    contradiction
  · cases ‹_ :: _ = _›
    contradiction
  · cases ‹_ :: _ = _›
    contradiction
  · cases ‹_ :: _ = _›
    rfl

private theorem like_escape_cons (c : Char) (s ps t : Text) :
    like (likeEscape (c :: s) ++ ps) t = match t with
      | [] => false
      | d :: ds => c == d && like (likeEscape s ++ ps) ds := by
  rw [likeEscape, List.flatMap_cons]
  by_cases hc : isLikeSpecial c = true
  · rw [if_pos hc, List.append_assoc, List.cons_append, List.cons_append, List.nil_append]
    cases t <;> rfl
  · rw [if_neg hc, List.append_assoc, List.cons_append, List.nil_append,
      like_literal (Bool.eq_false_iff.mpr hc)]
    rfl

/-- An escaped text matches itself, and what follows it the rest. -/
theorem like_escape_append :
    like (likeEscape s ++ ps) t = true ↔ ∃ u, t = s ++ u ∧ like ps u = true := by
  induction s generalizing t with
  | nil => exact ⟨fun h => ⟨t, rfl, h⟩, fun ⟨u, hu, h⟩ => hu ▸ h⟩
  | cons c s ih =>
    rw [like_escape_cons]
    cases t with
    | nil => simp
    | cons d ds =>
      dsimp only
      rw [Bool.and_eq_true, beq_iff_eq, ih]
      constructor
      · rintro ⟨rfl, u, rfl, h⟩
        exact ⟨u, rfl, h⟩
      · rintro ⟨u, hu, h⟩
        cases hu
        exact ⟨rfl, u, rfl, h⟩

/-- What starts with the text. -/
theorem like_startswith : like (likeEscape s ++ ['%']) t = true ↔ s <+: t := by
  rw [like_escape_append]
  constructor
  · rintro ⟨u, rfl, -⟩
    exact List.prefix_append s u
  · rintro ⟨u, rfl⟩
    refine ⟨u, rfl, ?_⟩
    rw [like, List.any_eq_true]
    exact ⟨[], (List.mem_tails _ _).mpr List.nil_suffix, rfl⟩

/-- What ends with the text. -/
theorem like_endswith : like ('%' :: likeEscape s) t = true ↔ s <:+ t := by
  rw [like, List.any_eq_true]
  constructor
  · rintro ⟨u, hu, h⟩
    rw [← List.append_nil (likeEscape s), like_escape_append] at h
    obtain ⟨v, rfl, hv⟩ := h
    rw [like, List.isEmpty_iff] at hv
    rw [hv, List.append_nil] at hu
    exact (List.mem_tails _ _).mp hu
  · intro h
    refine ⟨s, (List.mem_tails _ _).mpr h, ?_⟩
    rw [← List.append_nil (likeEscape s), like_escape_append]
    exact ⟨[], (List.append_nil s).symm, rfl⟩

end MtShards.Core.Text
