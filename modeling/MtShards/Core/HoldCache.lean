import MtShards.Core.TtlStore

/-!
# Caches kept coherent by holds

A cache stands in front of a source of truth. A reader that misses reads the truth and, in
less than the hold time, writes what it read where nothing is cached. A writer changes the
truth first and then puts a hold on every key it changed; a hold is an entry that readers do
not overwrite and that lasts longer than any reader takes.

`View` is what coherence depends on: the truth, the cells, the keys that a writer still has
to put a hold on, and what readers in flight have read. `Step` says, key by key, what a step
may do, and `Coherent.step` that coherence is kept.
-/

namespace MtShards.Core

/-- A cached value: a positive answer, a cached absence, a hold, or something unreadable. -/
inductive Cached (V : Type)
  | positive (v : V)
  | negative
  | tombstone
  | corrupt
  deriving DecidableEq, Repr

namespace HoldCache

/-- What coherence depends on. -/
structure View (K V : Type) where
  now : Nat
  truth : K → Option V
  cells : TtlStore K (Cached V)
  /-- A writer changed the key and has not put its hold on it yet. -/
  due : K → Prop
  /-- A reader read the key at a time and may still write what it read. -/
  flight : K → Option V → Nat → Prop

variable {K V : Type} {hold : Nat} {a a' : View K V} {k : K}

/-- What a reader of the cache is told is true. -/
def View.Truthful (a : View K V) (k : K) : Prop :=
  (∀ v, a.cells.get a.now k = some (.positive v) → a.truth k = some v) ∧
    (a.cells.get a.now k = some .negative → a.truth k = none)

/-- A reader in flight holds the truth, is too late, or will meet a hold. -/
def View.Harmless (hold : Nat) (a : View K V) (k : K) (v : Option V) (τ : Nat) : Prop :=
  v = a.truth k ∨ τ + hold ≤ a.now ∨ ∃ e, a.cells k = some ⟨.tombstone, some e⟩ ∧ τ + hold ≤ e

/-- Every key that no hold is due on is truthful and stays so. -/
structure Coherent (hold : Nat) (a : View K V) : Prop where
  past : ∀ k v τ, a.flight k v τ → τ ≤ a.now
  truthful : ∀ k, ¬ a.due k → a.Truthful k
  harmless : ∀ k, ¬ a.due k → ∀ v τ, a.flight k v τ → a.Harmless hold k v τ

/-- What a step may do at one key on which no hold is due afterwards. -/
inductive KeyStep (hold : Nat) (a a' : View K V) (k : K) : Prop
  /-- Nothing but time, and readers that read the truth. -/
  | keep : ¬ a.due k → a'.truth k = a.truth k → a'.cells k = a.cells k →
      (∀ v τ, a'.flight k v τ → a.flight k v τ ∨ v = a.truth k) → KeyStep hold a a' k
  /-- A hold is put on the key. -/
  | hold : a'.cells k = some ⟨.tombstone, some (a'.now + hold)⟩ → KeyStep hold a a' k
  /-- A reader in time writes what it read where nothing is cached. -/
  | fill {v τ e} : ¬ a.due k → a'.truth k = a.truth k → a.flight k v τ → a.now < τ + hold →
      a.cells.get a.now k = none → a'.now = a.now →
      a'.cells k = some ⟨v.elim .negative .positive, e⟩ →
      (∀ v τ, a'.flight k v τ → a.flight k v τ) → KeyStep hold a a' k
  /-- The truth is written over whatever is cached, or the entry is dropped. -/
  | force : (∀ c, a'.cells k = some c → ∃ v, c.value = .positive v ∧ a'.truth k = some v) →
      (∀ v τ, ¬ a'.flight k v τ) → KeyStep hold a a' k

/-- What a step may do. -/
structure Step (hold : Nat) (a a' : View K V) : Prop where
  now : a.now ≤ a'.now
  flight : ∀ k v τ, a'.flight k v τ → a.flight k v τ ∨ τ ≤ a'.now
  key : ∀ k, ¬ a'.due k → KeyStep hold a a' k

/-- A reader that is in time and finds nothing cached holds the truth. -/
theorem Coherent.truth_of_fill (h : Coherent hold a) (hk : ¬ a.due k) {v : Option V} {τ : Nat}
    (hf : a.flight k v τ) (ht : a.now < τ + hold) (hm : a.cells.get a.now k = none) :
    v = a.truth k := by
  rcases h.harmless k hk v τ hf with hv | hlate | ⟨e, he, hle⟩
  · exact hv
  · omega
  · have := Cell.peek_until (.tombstone : Cached V) (Nat.lt_of_lt_of_le ht hle)
    rw [TtlStore.get, he, this] at hm
    cases hm

/-- A step on a key leaves what it caches truthful. -/
theorem KeyStep.truthful (h : Coherent hold a) (hn : a.now ≤ a'.now) (hs : KeyStep hold a a' k) :
    a'.Truthful k := by
  cases hs with
  | keep hk ht hc _ =>
    obtain ⟨hp, hneg⟩ := h.truthful k hk
    rw [View.Truthful, TtlStore.get, hc, ht]
    exact ⟨fun v hv => hp v (Cell.peek_of_later hn hv), fun hv => hneg (Cell.peek_of_later hn hv)⟩
  | hold hc =>
    have hne : ∀ x, Cell.peek a'.now (a'.cells k) = some x → x = .tombstone := by
      intro x hx
      obtain ⟨e, he, _⟩ := Cell.peek_eq_some.1 hx
      rw [hc] at he
      cases he
      rfl
    constructor
    · intro v hv
      cases hne _ hv
    · intro hv
      cases hne _ hv
  | @fill v τ e hk ht hf hlt hm _ hc _ =>
    have hv := h.truth_of_fill hk hf hlt hm
    have hget : ∀ x, a'.cells.get a'.now k = some x → x = v.elim .negative .positive := by
      intro x hx
      rw [TtlStore.get, hc] at hx
      obtain ⟨e', he, _⟩ := Cell.peek_eq_some.1 hx
      cases he
      rfl
    rw [View.Truthful, ht, ← hv]
    cases v with
    | none =>
      refine ⟨fun w hw => ?_, fun _ => rfl⟩
      cases hget _ hw
    | some u =>
      refine ⟨fun w hw => ?_, fun hw => ?_⟩
      · rw [Cached.positive.inj (hget _ hw)]
      · cases hget _ hw
  | force hc _ =>
    have hget : ∀ x, a'.cells.get a'.now k = some x → ∃ v, x = .positive v ∧ a'.truth k = some v := by
      intro x hx
      obtain ⟨e, he, _⟩ := Cell.peek_eq_some.1 hx
      exact hc _ he
    constructor
    · intro v hv
      obtain ⟨w, hw, ht⟩ := hget _ hv
      rw [Cached.positive.inj hw, ht]
    · intro hv
      obtain ⟨w, hw, _⟩ := hget _ hv
      cases hw

/-- A step on a key leaves what is in flight for it harmless. -/
theorem KeyStep.harmless (h : Coherent hold a) (hn : a.now ≤ a'.now)
    (hp : ∀ v τ, a'.flight k v τ → τ ≤ a'.now) (hs : KeyStep hold a a' k) {v : Option V} {τ : Nat}
    (hf : a'.flight k v τ) : a'.Harmless hold k v τ := by
  cases hs with
  | keep hk ht hc hfl =>
    rcases hfl v τ hf with hf | hv
    · rcases h.harmless k hk v τ hf with hv | hlate | ⟨e, he, hle⟩
      · exact .inl (hv.trans ht.symm)
      · exact .inr (.inl (Nat.le_trans hlate hn))
      · exact .inr (.inr ⟨e, hc.trans he, hle⟩)
    · exact .inl (hv.trans ht.symm)
  | hold hc => exact .inr (.inr ⟨_, hc, Nat.add_le_add_right (hp v τ hf) hold⟩)
  | @fill w τ' e hk ht _ _ hm hnow _ hfl =>
    -- The key was free, so a reader that is not too late holds the truth too.
    rcases Nat.lt_or_ge a.now (τ + hold) with hlt | hge
    · exact .inl ((h.truth_of_fill hk (hfl v τ hf) hlt hm).trans ht.symm)
    · exact .inr (.inl (hnow ▸ hge))
  | force _ hfl => exact absurd hf (hfl v τ)

/-- Coherence is kept. -/
theorem Coherent.step (h : Coherent hold a) (hs : Step hold a a') : Coherent hold a' := by
  have hpast : ∀ k v τ, a'.flight k v τ → τ ≤ a'.now := by
    intro k v τ hf
    rcases hs.flight k v τ hf with hf | hτ
    · exact Nat.le_trans (h.past k v τ hf) hs.now
    · exact hτ
  exact ⟨hpast, fun k hk => (hs.key k hk).truthful h hs.now,
    fun k hk _ _ hf => (hs.key k hk).harmless h hs.now (hpast k) hf⟩

end HoldCache

end MtShards.Core
