import Mathlib.Data.List.Basic
import Mathlib.Order.Lattice

/-!
# Round-robin

Clients in a linear order are asked in turn: first the ones behind the client that was served
last, then those from the first one up to it. Whoever is asked first and is waiting is served.
While two clients are both waiting, they are served alternately.
-/

namespace MtShards.Core

variable {α : Type} [LinearOrder α]

/-- `x` is asked before `y`, where `last` was served last. -/
def Ahead (last : Option α) (x y : α) : Prop :=
  match last with
  | none => x < y
  | some a => a < x ∧ (x < y ∨ y ≤ a) ∨ x ≤ a ∧ y ≤ a ∧ x < y

variable {last : Option α} {a p x y : α}

/-- The client that was served last is asked last. -/
theorem ahead_last (h : x ≠ a) : Ahead (some a) x a := by
  rcases lt_or_gt_of_ne h with hlt | hgt
  · exact .inr ⟨hlt.le, le_rfl, hlt⟩
  · exact .inl ⟨hgt, .inr le_rfl⟩

/-- Two keys are not each ahead of the other. -/
theorem Ahead.asymm (h : Ahead last x y) : ¬ Ahead last y x := by
  cases last with
  | none => exact lt_asymm h
  | some a => grind [Ahead]

private theorem ahead_or_ahead (h : x ≠ y) : Ahead last x y ∨ Ahead last y x := by
  cases last with
  | none => exact lt_or_gt_of_ne h
  | some a => grind [Ahead]

/-- Serving a client leaves the order of those behind it. -/
theorem ahead_served_iff (hx : Ahead last p x) (hy : Ahead last p y) :
    Ahead (some p) x y ↔ Ahead last x y := by
  cases last with
  | none => grind [Ahead]
  | some a => grind [Ahead]

/-! ### The order in which clients are asked -/

/-- A list of clients from behind one of them on, and round to it. -/
def rotate (order : List α) (a : α) : List α :=
  order.drop (order.idxOf a + 1) ++ order.take (order.idxOf a + 1)

/-- A list in order, from behind one of its clients on: each is asked before those after it. -/
theorem pairwise_rotate {order : List α} (h : order.Pairwise (· < ·)) (ha : a ∈ order) :
    (rotate order a).Pairwise (Ahead (some a)) := by
  have hlt := List.idxOf_lt_length_of_mem ha
  have htake : order.take (order.idxOf a + 1) = order.take (order.idxOf a) ++ [a] := by
    rw [List.take_succ_eq_append_getElem hlt, List.getElem_idxOf]
  have hsplit : (order.take (order.idxOf a + 1) ++ order.drop (order.idxOf a + 1)).Pairwise
      (· < ·) := by rwa [List.take_append_drop]
  obtain ⟨hfront, hback, hcross⟩ := List.pairwise_append.mp hsplit
  have hbehind : ∀ x ∈ order.drop (order.idxOf a + 1), a < x := by
    intro x hx
    refine hcross a ?_ x hx
    rw [htake]
    exact List.mem_append_right _ List.mem_cons_self
  have hupto : ∀ y ∈ order.take (order.idxOf a + 1), y ≤ a := by
    intro y hy
    rw [htake] at hy hfront
    rcases List.mem_append.mp hy with hy | hy
    · exact ((List.pairwise_append.mp hfront).2.2 y hy a List.mem_cons_self).le
    · exact (List.mem_singleton.mp hy).le
  refine List.pairwise_append.mpr ⟨?_, ?_, fun x hx y hy => .inl ⟨hbehind x hx, .inr (hupto y hy)⟩⟩
  · exact hback.imp_of_mem fun hx _ hxy => .inl ⟨hbehind _ hx, .inl hxy⟩
  · exact hfront.imp_of_mem fun hx hy hxy => .inr ⟨hupto _ hx, hupto _ hy, hxy⟩

/-- Whoever is found in such a list is asked before everyone else who could have been found. -/
theorem ahead_of_find {order : List α} {waits : α → Bool} (h : order.Pairwise (Ahead last))
    (hfind : order.find? waits = some p) (hx : x ∈ order) (hwaits : waits x = true) :
    p = x ∨ Ahead last p x := by
  obtain ⟨-, front, back, rfl, hfront⟩ := List.find?_eq_some_iff_append.mp hfind
  rcases List.mem_append.mp hx with hx | hx
  · have hnot := hfront x hx
    rw [hwaits] at hnot
    cases hnot
  · rcases List.mem_cons.mp hx with rfl | hx
    · exact .inl rfl
    · exact .inr ((List.pairwise_cons.mp (List.pairwise_append.mp h).2.1).1 x hx)

/-! ### Runs -/

/-- Clients served one after the other, from one that was served last to another, while `x` and
`y` are both waiting. -/
inductive Served (x y : α) (start : Option α) : List α → Option α → Prop
  | nil : Served x y start [] start
  | serve {served : List α} {last : Option α} {p : α} : Served x y start served last →
      (p = x ∨ Ahead last p x) → (p = y ∨ Ahead last p y) →
      Served x y start (served ++ [p]) (some p)

variable {start : Option α} {served : List α}

/-- Whoever of the two is ahead has been served as often as the other, or the other once more. -/
theorem Served.alternate (h : Served x y start served last) (hxy : x ≠ y)
    (hstart : Ahead start x y) :
    Ahead last x y ∧ served.count x = served.count y ∨
      Ahead last y x ∧ served.count x = served.count y + 1 := by
  induction h with
  | nil => exact .inl ⟨hstart, rfl⟩
  | @serve served last p _ hx hy ih =>
    simp only [List.count_append, List.count_singleton, beq_iff_eq]
    by_cases hpx : p = x
    · subst hpx
      have hfirst : Ahead last p y := hy.resolve_left hxy
      have hcount := (ih.resolve_right fun hback => hback.1.asymm hfirst).2
      refine .inr ⟨ahead_last hxy.symm, ?_⟩
      rw [if_pos rfl, if_neg hxy, hcount]
    · by_cases hpy : p = y
      · subst hpy
        have hfirst : Ahead last p x := hx.resolve_left hpx
        have hcount := (ih.resolve_left fun hfront => hfront.1.asymm hfirst).2
        refine .inl ⟨ahead_last hxy, ?_⟩
        rw [if_pos rfl, if_neg hpx, hcount]
      · -- Somebody else is served, and the two keep their places.
        have hpx' : Ahead last p x := hx.resolve_left hpx
        have hpy' : Ahead last p y := hy.resolve_left hpy
        rw [if_neg hpx, if_neg hpy, ahead_served_iff hpx' hpy', ahead_served_iff hpy' hpx']
        exact ih

/-- What two are served is the same counted from the other one. -/
theorem Served.symm (h : Served x y start served last) : Served y x start served last := by
  induction h with
  | nil => exact .nil
  | serve _ hx hy ih => exact ih.serve hy hx

/-- Two clients that are both waiting are served the same number of times, or one once more. -/
theorem Served.balanced (h : Served x y start served last) (hxy : x ≠ y) :
    served.count x ≤ served.count y + 1 ∧ served.count y ≤ served.count x + 1 := by
  have hfirst : Ahead start x y ∨ Ahead start y x := ahead_or_ahead hxy
  rcases hfirst with hstart | hstart
  · rcases h.alternate hxy hstart with ⟨-, hcount⟩ | ⟨-, hcount⟩
    · omega
    · omega
  · rcases h.symm.alternate hxy.symm hstart with ⟨-, hcount⟩ | ⟨-, hcount⟩
    · omega
    · omega

end MtShards.Core
