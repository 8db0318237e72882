import Mathlib.Data.Fintype.Card
import Mathlib.Logic.Relation

/-!
# Walks along links

Objects of a finite type, each with at most one link to another. A walk follows the links
from an object until it ends or meets an object it has seen before, so that a cycle does not
keep it going.
-/

namespace MtShards.Core

variable {α : Type} [DecidableEq α] (next : α → Option α)

/-- `y` is found by following the links from `x`. -/
def Reaches (x y : α) : Prop := Relation.ReflTransGen (fun a b => next a = some b) x y

variable {next} in
omit [DecidableEq α] in
/-- Links that agree on what is linked to `x` reach the same from there. -/
theorem Reaches.congr {next' : α → Option α} {x y : α}
    (hsame : ∀ z, Reaches next x z → next' z = next z) : Reaches next' x y ↔ Reaches next x y := by
  constructor
  · intro hreach
    induction hreach with
    | refl => exact .refl
    | tail _ hlink ih =>
      rw [hsame _ ih] at hlink
      exact .tail ih hlink
  · intro hreach
    induction hreach with
    | refl => exact .refl
    | tail hto hlink ih =>
      rw [← hsame _ hto] at hlink
      exact .tail ih hlink

/-- The objects from `x` on, except those of `seen`; `none` when the fuel does not suffice. -/
def walk : Nat → List α → Option α → Option (List α)
  | _, _, none => some []
  | 0, seen, some x => if x ∈ seen then some [] else none
  | fuel + 1, seen, some x =>
      if x ∈ seen then some [] else (walk fuel (x :: seen) (next x)).map (x :: ·)

/-- There is nothing on from no object. -/
@[simp] theorem walk_none (fuel : Nat) (seen : List α) : walk next fuel seen none = some [] := by
  cases fuel <;> rfl

/-- A walk ends at an object that it has seen. -/
theorem walk_of_mem (fuel : Nat) {seen : List α} {x : α} (hx : x ∈ seen) :
    walk next fuel seen (some x) = some [] := by
  cases fuel <;> simp only [walk, if_pos hx]

private theorem walk_zero_of_not_mem {seen : List α} {x : α} (hx : x ∉ seen) :
    walk next 0 seen (some x) = none := by
  simp only [walk, if_neg hx]

/-- A walk goes through an object that it has not seen, and on from there. -/
theorem walk_succ_of_not_mem (fuel : Nat) {seen : List α} {x : α} (hx : x ∉ seen) :
    walk next (fuel + 1) seen (some x) =
      (walk next fuel (x :: seen) (next x)).map (x :: ·) := by
  simp only [walk, if_neg hx]

/-- A list without repetition that is as long as the type is large misses nothing. -/
theorem mem_of_card_le [Fintype α] {seen : List α} (hnd : seen.Nodup)
    (hlen : Fintype.card α ≤ seen.length) (x : α) : x ∈ seen := by
  have hcard : seen.toFinset.card = Fintype.card α := by
    apply Nat.le_antisymm (Finset.card_le_univ _)
    rw [List.toFinset_card_of_nodup hnd]
    exact hlen
  have huniv : seen.toFinset = Finset.univ := (Finset.card_eq_iff_eq_univ _).mp hcard
  have hx : x ∈ seen.toFinset := by
    rw [huniv]
    exact Finset.mem_univ x
  exact List.mem_toFinset.mp hx

/-- Fuel for the objects not yet seen is enough. -/
theorem walk_ends [Fintype α] {fuel : Nat} {seen : List α} {x : Option α} (hnd : seen.Nodup)
    (hfuel : Fintype.card α ≤ seen.length + fuel) : ∃ l, walk next fuel seen x = some l := by
  induction fuel generalizing seen x with
  | zero =>
    cases x with
    | none => exact ⟨[], walk_none next 0 seen⟩
    | some x => exact ⟨[], walk_of_mem next 0 (mem_of_card_le hnd hfuel x)⟩
  | succ fuel ih =>
    cases x with
    | none => exact ⟨[], walk_none next _ seen⟩
    | some x =>
      by_cases hx : x ∈ seen
      · exact ⟨[], walk_of_mem next _ hx⟩
      · have hfuel' : Fintype.card α ≤ (x :: seen).length + fuel := by
          simp only [List.length_cons]
          omega
        obtain ⟨l, hl⟩ := ih (x := next x) (List.nodup_cons.mpr ⟨hx, hnd⟩) hfuel'
        refine ⟨x :: l, ?_⟩
        rw [walk_succ_of_not_mem next fuel hx, hl, Option.map_some]

variable {next}

/-- How a walk that ends begins. -/
theorem walk_cases {fuel : Nat} {seen : List α} {x : Option α} {l : List α}
    (h : walk next fuel seen x = some l) :
    ((∀ y, x = some y → y ∈ seen) ∧ l = []) ∨
      ∃ less y rest, fuel = less + 1 ∧ x = some y ∧ y ∉ seen ∧ l = y :: rest ∧
        walk next less (y :: seen) (next y) = some rest := by
  cases x with
  | none =>
    rw [walk_none] at h
    exact .inl ⟨nofun, (Option.some.inj h).symm⟩
  | some x =>
    by_cases hx : x ∈ seen
    · rw [walk_of_mem next fuel hx] at h
      exact .inl ⟨fun y hy => Option.some.inj hy ▸ hx, (Option.some.inj h).symm⟩
    · cases fuel with
      | zero =>
        rw [walk_zero_of_not_mem next hx] at h
        cases h
      | succ less =>
        rw [walk_succ_of_not_mem next less hx] at h
        obtain ⟨rest, hrest, rfl⟩ := Option.map_eq_some_iff.mp h
        exact .inr ⟨less, x, rest, rfl, rfl, hx, rfl, hrest⟩

/-- What a walk gives does not depend on the fuel. -/
theorem walk_mono {fuel : Nat} {seen : List α} {x : Option α} {l : List α}
    (h : walk next fuel seen x = some l) {more : Nat} (hle : fuel ≤ more) :
    walk next more seen x = some l := by
  induction l generalizing fuel seen x more with
  | nil =>
    obtain ⟨hx, -⟩ | ⟨_, _, _, _, _, _, hl, _⟩ := walk_cases h
    · cases x with
      | none => exact walk_none next more seen
      | some x => exact walk_of_mem next more (hx x rfl)
    · cases hl
  | cons y l ih =>
    obtain ⟨-, hl⟩ | ⟨less, _, _, rfl, rfl, hy, hl, hrest⟩ := walk_cases h
    · cases hl
    · cases hl
      obtain ⟨more, rfl⟩ : ∃ m, more = m + 1 := ⟨more - 1, by omega⟩
      rw [walk_succ_of_not_mem next more hy, ih hrest (Nat.le_of_succ_le_succ hle),
        Option.map_some]

/-- A walk meets only what is linked to its start. -/
theorem reaches_of_mem_walk {fuel : Nat} {seen : List α} {x : Option α} {l : List α}
    (h : walk next fuel seen x = some l) {y : α} (hy : y ∈ l) :
    ∃ x₀, x = some x₀ ∧ Reaches next x₀ y := by
  induction l generalizing fuel seen x with
  | nil => cases hy
  | cons z l ih =>
    obtain ⟨-, hl⟩ | ⟨less, _, _, rfl, rfl, -, hl, hrest⟩ := walk_cases h
    · cases hl
    · cases hl
      refine ⟨z, rfl, ?_⟩
      rcases List.mem_cons.mp hy with rfl | hy
      · exact .refl
      · obtain ⟨x', hx', hreach⟩ := ih hrest hy
        exact .head hx' hreach

/-- With what was seen before, a walk is closed under the links. The links of `seen` may only
lead back into it or to the start. -/
theorem walk_closed {fuel : Nat} {seen : List α} {x : Option α} {l : List α}
    (h : walk next fuel seen x = some l)
    (hseen : ∀ z ∈ seen, ∀ y, next z = some y → y ∈ seen ∨ x = some y) :
    (∀ y, x = some y → y ∈ seen ∨ y ∈ l) ∧
      ∀ z, z ∈ seen ∨ z ∈ l → ∀ y, next z = some y → y ∈ seen ∨ y ∈ l := by
  induction l generalizing fuel seen x with
  | nil =>
    obtain ⟨hx, -⟩ | ⟨_, _, _, _, _, _, hl, _⟩ := walk_cases h
    · refine ⟨fun y hy => .inl (hx y hy), ?_⟩
      intro z hz y hy
      have hz : z ∈ seen := by simpa only [List.not_mem_nil, or_false] using hz
      exact (hseen z hz y hy).elim .inl (fun hy => .inl (hx y hy))
    · cases hl
  | cons w l ih =>
    obtain ⟨-, hl⟩ | ⟨less, _, _, rfl, rfl, -, hl, hrest⟩ := walk_cases h
    · cases hl
    · cases hl
      -- The object just met joins `seen`; its own link is where the rest of the walk starts.
      have hseen' : ∀ z ∈ w :: seen, ∀ y, next z = some y → y ∈ w :: seen ∨ next w = some y := by
        intro z hz y hy
        rcases List.mem_cons.mp hz with rfl | hz
        · exact .inr hy
        · rcases hseen z hz y hy with hy | hy
          · exact .inl (List.mem_cons_of_mem w hy)
          · exact .inl (Option.some.inj hy ▸ List.mem_cons_self)
      obtain ⟨-, hclosed⟩ := ih hrest hseen'
      have hmove : ∀ y, (y ∈ w :: seen ∨ y ∈ l) ↔ (y ∈ seen ∨ y ∈ w :: l) := by
        intro y
        simp only [List.mem_cons]
        tauto
      refine ⟨fun y hy => .inr (Option.some.inj hy ▸ List.mem_cons_self), ?_⟩
      intro z hz y hy
      exact (hmove y).mp (hclosed z ((hmove z).mpr hz) y hy)

variable (next) [Fintype α]

/-- The walk from `x`, with fuel for every object. -/
def chain (x : α) : List α := (walk next (Fintype.card α) [] (some x)).getD []

/-- Any fuel that suffices for every object gives the whole chain. -/
theorem walk_eq_chain (x : α) {fuel : Nat} (hfuel : Fintype.card α ≤ fuel) :
    walk next fuel [] (some x) = some (chain next x) := by
  obtain ⟨l, hl⟩ := walk_ends next (x := some x) List.nodup_nil
    (Nat.le_add_left (Fintype.card α) ([] : List α).length)
  have hchain : chain next x = l := by
    rw [chain, hl, Option.getD_some]
  rw [hchain]
  exact walk_mono hl hfuel

/-- The walk from `x` meets exactly what is linked to it. -/
theorem mem_chain {x y : α} : y ∈ chain next x ↔ Reaches next x y := by
  have hwalk := walk_eq_chain next x (Nat.le_refl _)
  constructor
  · intro hy
    obtain ⟨x₀, hx₀, hreach⟩ := reaches_of_mem_walk hwalk hy
    exact Option.some.inj hx₀ ▸ hreach
  · intro hreach
    obtain ⟨hstart, hclosed⟩ := walk_closed hwalk nofun
    induction hreach with
    | refl => exact (hstart x rfl).resolve_left List.not_mem_nil
    | tail _ hlink ih => exact (hclosed _ (.inr ih) _ hlink).resolve_left List.not_mem_nil

end MtShards.Core
