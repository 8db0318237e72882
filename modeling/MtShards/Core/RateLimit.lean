import Mathlib.Algebra.Order.Ring.Defs
import Mathlib.Data.List.Count
import Mathlib.Tactic.Ring

/-!
# Limiters that keep a level

What a limiter lets through is meant to stay below an arrival curve: in any interval of time at
most a burst, and a rate times the length of the interval. A limiter that pays for what it lets
through out of a level meets the curve, as long as the level is never negative, never above the
burst, and grows no faster than the rate.
-/

namespace MtShards.Core

/-- A call of a limiter: when it was made, and whether it was let through. -/
structure Attempt (K : Type) where
  time : K
  granted : Bool
  deriving DecidableEq, Repr

section Counting

variable {K : Type} [LinearOrder K] {s t : K} {c : Attempt K} {calls : List (Attempt K)}

/-- The number of calls let through from `s` to `t`, both included. -/
def passed (s t : K) (calls : List (Attempt K)) : Nat :=
  calls.countP fun c => c.granted && decide (s ≤ c.time ∧ c.time ≤ t)

@[simp] theorem passed_nil : passed s t [] = 0 := rfl

/-- A call counts when it is made in the interval. -/
theorem passed_cons : passed s t (c :: calls) =
    passed s t calls + if c.granted = true ∧ s ≤ c.time ∧ c.time ≤ t then 1 else 0 := by
  simp only [passed, List.countP_cons, Bool.and_eq_true, decide_eq_true_eq]

theorem passed_cons_of_not (h : ¬(s ≤ c.time ∧ c.time ≤ t)) :
    passed s t (c :: calls) = passed s t calls := by
  rw [passed_cons, if_neg fun hc => h hc.2]
  rfl

end Counting

variable {K : Type} [CommRing K] [LinearOrder K]

/-- The calls stay below the arrival curve of a burst and a rate. -/
def Conforms (burst rate : K) (calls : List (Attempt K)) : Prop :=
  ∀ s t, s ≤ t → (passed s t calls : K) ≤ burst + rate * (t - s)

/-- What a call takes from the level. -/
def Attempt.cost (c : Attempt K) : K := if c.granted then 1 else 0

/-- The calls of a limiter from a level that it had at some time. -/
inductive Paced (burst rate : K) : K → K → List (Attempt K) → Prop
  | nil {level since : K} : Paced burst rate level since []
  | call {level since level' : K} {c : Attempt K} {calls : List (Attempt K)} :
      since ≤ c.time → 0 ≤ level' → level' + c.cost ≤ burst →
      level' + c.cost ≤ level + rate * (c.time - since) → Paced burst rate level' c.time calls →
      Paced burst rate level since (c :: calls)

variable {burst rate level since s t : K} {c : Attempt K} {calls : List (Attempt K)}

/-- A call counts for no more than it costs. -/
theorem passed_cons_le [IsStrictOrderedRing K] :
    (passed s t (c :: calls) : K) ≤ passed s t calls + c.cost := by
  rw [passed_cons, Nat.cast_add]
  refine add_le_add_right ?_ _
  rw [Attempt.cost]
  by_cases hc : c.granted = true
  · rw [if_pos hc]
    split
    · rw [Nat.cast_one]
    · rw [Nat.cast_zero]
      exact zero_le_one
  · rw [if_neg hc, if_neg fun h => hc h.1, Nat.cast_zero]

/-- Nothing counts before the limiter is at work. -/
theorem Paced.passed_eq_zero (h : Paced burst rate level since calls) (ht : t < since) :
    passed s t calls = 0 := by
  induction h with
  | nil => rfl
  | call hsince _ _ _ _ ih =>
    have hlater := lt_of_lt_of_le ht hsince
    rw [passed_cons_of_not fun hin => absurd hin.2 (not_le.mpr hlater), ih hlater]

variable [IsStrictOrderedRing K]

/-- What is let through up to a time is paid for out of the level and what came in since. -/
theorem Paced.passed_le (h : Paced burst rate level since calls) (hrate : 0 ≤ rate)
    (hlevel : 0 ≤ level) (ht : since ≤ t) :
    (passed s t calls : K) ≤ level + rate * (t - since) := by
  induction h with
  | nil =>
    rw [passed_nil, Nat.cast_zero]
    exact add_nonneg hlevel (mul_nonneg hrate (sub_nonneg.mpr ht))
  | @call level since level' c calls hsince hlevel' _ hpaid hrest ih =>
    by_cases hlate : c.time ≤ t
    · have hcalls := ih hlevel' hlate
      calc (passed s t (c :: calls) : K) ≤ passed s t calls + c.cost := passed_cons_le
        _ ≤ level' + rate * (t - c.time) + c.cost := add_le_add_left hcalls _
        _ = (level' + c.cost) + rate * (t - c.time) := by ring
        _ ≤ (level + rate * (c.time - since)) + rate * (t - c.time) := add_le_add_left hpaid _
        _ = level + rate * (t - since) := by ring
    · have hlate := not_le.mp hlate
      rw [passed_cons_of_not fun hin => absurd hin.2 (not_le.mpr hlate),
        hrest.passed_eq_zero hlate, Nat.cast_zero]
      exact add_nonneg hlevel (mul_nonneg hrate (sub_nonneg.mpr ht))

/-- A limiter that keeps a level stays below its arrival curve. -/
theorem Paced.conforms (h : Paced burst rate level since calls) (hrate : 0 ≤ rate)
    (hburst : 0 ≤ burst) : Conforms burst rate calls := by
  intro s t hst
  have hlength : 0 ≤ rate * (t - s) := mul_nonneg hrate (sub_nonneg.mpr hst)
  induction h with
  | nil =>
    rw [passed_nil, Nat.cast_zero]
    exact add_nonneg hburst hlength
  | @call level since level' c calls hsince hlevel' hfits hpaid hrest ih =>
    by_cases hin : s ≤ c.time ∧ c.time ≤ t
    · -- The first call in the interval finds a level of at most the burst.
      have hcalls := hrest.passed_le (s := s) hrate hlevel' hin.2
      have hshorter : rate * (t - c.time) ≤ rate * (t - s) :=
        mul_le_mul_of_nonneg_left (sub_le_sub_left hin.1 t) hrate
      calc (passed s t (c :: calls) : K) ≤ passed s t calls + c.cost := passed_cons_le
        _ ≤ level' + rate * (t - c.time) + c.cost := add_le_add_left hcalls _
        _ = (level' + c.cost) + rate * (t - c.time) := by ring
        _ ≤ burst + rate * (t - s) := add_le_add hfits hshorter
    · rw [passed_cons_of_not hin]
      exact ih

end MtShards.Core
