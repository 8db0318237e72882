import Mathlib.Order.Bounds.Basic

/-!
# Occurrences of a calendar

The occurrences of a schedule are a set of instants. What a level-triggered sender looks at
is the latest of them strictly before the instant of its tick.
-/

namespace MtShards.Core

variable {T : Type} [LinearOrder T] {occ : Set T} {n m o o' : T}

/-- `o` is the latest occurrence strictly before `n`. -/
def LatestBefore (occ : Set T) (n o : T) : Prop := IsGreatest (occ ∩ Set.Iio n) o

namespace LatestBefore

theorem mem (h : LatestBefore occ n o) : o ∈ occ := h.1.1

theorem lt (h : LatestBefore occ n o) : o < n := h.1.2

theorem le_of_mem (h : LatestBefore occ n o) (ho : o' ∈ occ) (hlt : o' < n) : o' ≤ o :=
  h.2 ⟨ho, hlt⟩

theorem unique (h : LatestBefore occ n o) (h' : LatestBefore occ n o') : o = o' :=
  IsGreatest.unique h h'

/-- An occurrence is the latest one up to the next occurrence, that instant included. -/
theorem of_next (ho : o ∈ occ) (hlt : o < n) (hnext : ∀ x ∈ occ, o < x → n ≤ x) :
    LatestBefore occ n o := by
  refine ⟨⟨ho, hlt⟩, ?_⟩
  rintro x ⟨hx, hxn⟩
  by_contra hox
  exact absurd (hnext x hx (not_le.mp hox)) (not_le.mpr hxn)

/-- The latest occurrence before an instant is the latest one at every instant in between. -/
theorem between (h : LatestBefore occ n o) (hom : o < m) (hmn : m ≤ n) :
    LatestBefore occ m o := by
  refine of_next h.mem hom fun x hx hox => ?_
  by_contra hxm
  exact absurd (h.le_of_mem hx ((not_le.mp hxm).trans_le hmn)) (not_le.mpr hox)

/-- Later instants see later occurrences. -/
theorem mono (h : LatestBefore occ n o) (h' : LatestBefore occ m o') (hnm : n ≤ m) : o ≤ o' :=
  h'.le_of_mem h.mem (h.lt.trans_le hnm)

end LatestBefore

end MtShards.Core
