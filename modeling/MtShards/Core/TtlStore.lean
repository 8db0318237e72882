import Mathlib.Logic.Function.Basic

/-!
# Keyed stores whose entries expire

A cell is a value with the time at which it is gone, or with no such time. A reader sees a
cell only before that time; what it sees can only disappear as time goes by.
-/

namespace MtShards.Core

/-- A value, and the time at which it is gone. -/
structure Cell (V : Type) where
  value : V
  expiry : Option Nat
  deriving DecidableEq, Repr

namespace Cell

variable {V : Type}

/-- A cell written at `now` with a time to live, `none` for ever. -/
def lasting (now : Nat) (v : V) (ttl : Option Nat) : Cell V := ⟨v, ttl.map (now + ·)⟩

/-- The cell is still there. -/
def alive (now : Nat) (c : Cell V) : Bool := c.expiry.all (now < ·)

/-- What a reader sees of a place that may hold a cell. -/
def peek (now : Nat) : Option (Cell V) → Option V
  | none => none
  | some c => if c.alive now then some c.value else none

/-- There is nothing to see in an empty cell. -/
@[simp] theorem peek_none (now : Nat) : peek now (none : Option (Cell V)) = none := rfl

/-- A cell without an expiry is always seen. -/
@[simp] theorem peek_forever (now : Nat) (v : V) : peek now (some ⟨v, none⟩) = some v := rfl

/-- A value is seen in a cell that has not expired. -/
theorem peek_eq_some {now : Nat} {o : Option (Cell V)} {v : V} :
    peek now o = some v ↔ ∃ e, o = some ⟨v, e⟩ ∧ ∀ x ∈ e, now < x := by
  cases o with
  | none => simp [peek]
  | some c =>
    obtain ⟨w, e⟩ := c
    have ha : (⟨w, e⟩ : Cell V).alive now = true ↔ ∀ x ∈ e, now < x := by
      cases e <;> simp [alive]
    simp only [peek, Option.ite_none_right_eq_some, Option.some.injEq, Cell.mk.injEq, ha]
    constructor
    · rintro ⟨he, rfl⟩
      exact ⟨e, ⟨rfl, rfl⟩, he⟩
    · rintro ⟨e', ⟨rfl, rfl⟩, he⟩
      exact ⟨he, rfl⟩

/-- A cell is seen until it expires. -/
theorem peek_until {now x : Nat} (v : V) (h : now < x) : peek now (some ⟨v, some x⟩) = some v :=
  peek_eq_some.2 ⟨some x, rfl, by simpa using h⟩

/-- What is seen later is there already. -/
theorem peek_of_later {now now' : Nat} {o : Option (Cell V)} {v : V} (hn : now ≤ now')
    (h : peek now' o = some v) : peek now o = some v := by
  obtain ⟨e, ho, he⟩ := peek_eq_some.1 h
  exact peek_eq_some.2 ⟨e, ho, fun x hx => Nat.lt_of_le_of_lt hn (he x hx)⟩

end Cell

/-- A store of cells under keys. -/
abbrev TtlStore (K V : Type) := K → Option (Cell V)

namespace TtlStore

variable {K V : Type} [DecidableEq K] {m : TtlStore K V} {k k' : K} {c : Cell V}

/-- What a reader sees under a key. -/
def get (m : TtlStore K V) (now : Nat) (k : K) : Option V := Cell.peek now (m k)

/-- `SET`. -/
def set (m : TtlStore K V) (k : K) (c : Cell V) : TtlStore K V := Function.update m k (some c)

/-- `SET … NX`. -/
def setNx (m : TtlStore K V) (now : Nat) (k : K) (c : Cell V) : TtlStore K V :=
  if m.get now k = none then m.set k c else m

/-- `DEL` of several keys. -/
def erase (m : TtlStore K V) (ks : List K) : TtlStore K V := fun k => if k ∈ ks then none else m k

/-- A key that was set has its cell. -/
@[simp] theorem set_self : (m.set k c) k = some c := Function.update_self _ _ _

/-- Setting a key leaves the others alone. -/
@[simp] theorem set_of_ne (h : k' ≠ k) : (m.set k c) k' = m k' := Function.update_of_ne h _ _

/-- What a write leaves present was there, or was written. -/
theorem present_of_set (h : (m.set k c) k' ≠ none) : k' = k ∨ m k' ≠ none := by
  by_cases hk : k' = k
  · exact .inl hk
  · rw [set_of_ne hk] at h
    exact .inr h

/-- Erasing keys leaves the others alone. -/
@[simp] theorem erase_of_notMem {ks : List K} (h : k ∉ ks) : (m.erase ks) k = m k := if_neg h

/-- A key that was erased has no cell. -/
@[simp] theorem erase_of_mem {ks : List K} (h : k ∈ ks) : (m.erase ks) k = none := if_pos h

/-- A guarded write changes nothing, or it writes where nothing was seen. -/
theorem setNx_apply (m : TtlStore K V) (now : Nat) (k : K) (c : Cell V) (k' : K) :
    (m.setNx now k c) k' = m k' ∨ k' = k ∧ m.get now k = none ∧ (m.setNx now k c) k' = some c := by
  unfold setNx
  split
  · next h =>
    by_cases hk : k' = k
    · subst hk
      exact .inr ⟨rfl, h, set_self⟩
    · exact .inl (set_of_ne hk)
  · exact .inl rfl

end TtlStore

end MtShards.Core
