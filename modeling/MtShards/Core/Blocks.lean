import Mathlib.Data.List.Basic

/-!
# Work put off to the commit

Nested transaction blocks, each with what has been put off inside it. Committing an inner
block hands its items to the block around it, committing the outermost one carries them out,
and rolling a block back forgets them. Outside of any block an item is carried out at once.
-/

namespace MtShards.Core

/-- The items put off in the open blocks, innermost first, and those carried out. -/
structure Deferred (κ : Type) where
  blocks : List (List κ)
  done : List κ
  deriving DecidableEq, Repr

namespace Deferred

variable {κ : Type}

/-- No block is open and nothing has been done. -/
def empty : Deferred κ := ⟨[], []⟩

/-- A new block. -/
def enter (d : Deferred κ) : Deferred κ := { d with blocks := [] :: d.blocks }

/-- Puts an item off to the commit. -/
def add (x : κ) (d : Deferred κ) : Deferred κ :=
  match d.blocks with
  | [] => { d with done := d.done ++ [x] }
  | b :: bs => { d with blocks := (b ++ [x]) :: bs }

/-- The innermost block commits. -/
def commit (d : Deferred κ) : Deferred κ :=
  match d.blocks with
  | [] => d
  | [b] => ⟨[], d.done ++ b⟩
  | b :: c :: bs => { d with blocks := (c ++ b) :: bs }

/-- The innermost block is rolled back. -/
def rollback (d : Deferred κ) : Deferred κ := { d with blocks := d.blocks.tail }

end Deferred

/-! ### A value under transaction -/

section Tracked

variable {κ : Type}

/-- In each open block, a value that was there when the block began and is there no more is
among its items. `now` is the value and `starts` the values at the start of each block. -/
def Tracked : Option κ → List (Option κ) → List (List κ) → Prop
  | _, [], [] => True
  | now, start :: starts, items :: blocks =>
      (∀ x, start = some x → now ≠ some x → x ∈ items) ∧ Tracked start starts blocks
  | _, _, _ => False

theorem Tracked.enter {now : Option κ} {starts : List (Option κ)} {d : Deferred κ}
    (h : Tracked now starts d.blocks) : Tracked now (now :: starts) d.enter.blocks :=
  ⟨fun _ hx hne => absurd hx hne, h⟩

/-- A first value replaces nothing. -/
theorem Tracked.appear {next : Option κ} {starts : List (Option κ)} {blocks : List (List κ)}
    (h : Tracked none starts blocks) : Tracked next starts blocks := by
  match starts, blocks with
  | [], [] => trivial
  | start :: starts, items :: blocks => exact ⟨fun x hx _ => h.1 x hx nofun, h.2⟩
  | [], _ :: _ | _ :: _, [] => exact h.elim

/-- A change of the value is tracked by an item for the value it replaces. -/
theorem Tracked.add {now next : Option κ} {starts : List (Option κ)} {d : Deferred κ} {x : κ}
    (h : Tracked now starts d.blocks) (hx : now = some x) :
    Tracked next starts (d.add x).blocks := by
  unfold Deferred.add
  cases hb : d.blocks with
  | nil =>
    rw [hb] at h
    cases starts with
    | nil => simp only [Tracked]
    | cons start starts => exact h.elim
  | cons b bs =>
    rw [hb] at h
    cases starts with
    | nil => exact h.elim
    | cons start starts =>
      obtain ⟨hfirst, hrest⟩ := h
      refine ⟨?_, hrest⟩
      intro y hy hne
      rw [List.mem_append, List.mem_singleton]
      by_cases hnow : now = some y
      · exact .inr (Option.some.inj (hnow.symm.trans hx))
      · exact .inl (hfirst y hy hnow)

theorem Tracked.commit {now : Option κ} {starts : List (Option κ)} {d : Deferred κ}
    (h : Tracked now starts d.blocks) : Tracked now starts.tail d.commit.blocks := by
  unfold Deferred.commit
  match hb : d.blocks, starts with
  | [], [] => simp only [hb, List.tail_nil, Tracked]
  | [b], [start] => simp only [List.tail_cons, Tracked]
  | b :: c :: bs, start :: outer :: starts =>
    rw [hb] at h
    obtain ⟨hfirst, hsecond, hrest⟩ := h
    refine ⟨?_, hrest⟩
    -- The value left the block before the inner one began, or inside it.
    intro x hx hne
    rw [List.mem_append]
    by_cases hstart : start = some x
    · exact .inr (hfirst x hstart hne)
    · exact .inl (hsecond x hx hstart)
  | [], _ :: _ | _ :: _, [] => rw [hb] at h; exact h.elim
  | [_], _ :: _ :: _ | _ :: _ :: _, [_] => rw [hb] at h; exact h.2.elim

theorem Tracked.rollback {now : Option κ} {starts : List (Option κ)} {d : Deferred κ}
    (h : Tracked now starts d.blocks) :
    Tracked (starts.head?.getD now) starts.tail d.rollback.blocks := by
  unfold Deferred.rollback
  match hb : d.blocks, starts with
  | [], [] => simp only [List.tail_nil, Tracked]
  | b :: bs, start :: starts =>
    rw [hb] at h
    exact h.2
  | [], _ :: _ | _ :: _, [] => rw [hb] at h; exact h.elim

/-- Committing the only open block carries out an item for a value that was replaced in it. -/
theorem Tracked.done_commit {now start : Option κ} {d : Deferred κ}
    (h : Tracked now [start] d.blocks) :
    ∃ items, d.commit.done = d.done ++ items ∧ ∀ x, start = some x → now ≠ some x → x ∈ items := by
  match hb : d.blocks with
  | [] =>
    rw [hb] at h
    exact h.elim
  | [b] =>
    rw [hb] at h
    refine ⟨b, ?_, h.1⟩
    simp only [Deferred.commit, hb]
  | _ :: _ :: _ =>
    rw [hb] at h
    exact h.2.elim

end Tracked

end MtShards.Core
