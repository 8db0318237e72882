import Mathlib.Logic.Basic

/-!
# Machines driven by events

A machine is a partial function from a state and an event to the next state. A trace is a
sequence of events that are all possible and all allowed by a condition on the state before
them; what holds at the start and is kept by every such event holds along every trace.
-/

namespace MtShards.Core

variable {S E : Type} {step : S → E → Option S} {R : S → E → Prop} {s₀ s s' : S}

/-- A state reached from `s₀` by events that the condition `R` allows. -/
inductive Trace (step : S → E → Option S) (R : S → E → Prop) (s₀ : S) : S → Prop
  | start : Trace step R s₀ s₀
  | event {s s' : S} (e : E) : Trace step R s₀ s → R s e → step s e = some s' → Trace step R s₀ s'

/-- What holds at the start and is kept by every allowed step holds at the end of every run. -/
theorem Trace.invariant {I : S → Prop} (h : Trace step R s₀ s) (h₀ : I s₀)
    (hstep : ∀ s e s', I s → R s e → step s e = some s' → I s') : I s := by
  induction h with
  | start => exact h₀
  | event e _ hR hs ih => exact hstep _ e _ ih hR hs

/-- The state after some events, if they are all possible. -/
def runEvents (step : S → E → Option S) : S → List E → Option S
  | s, [] => some s
  | s, e :: es => (step s e).bind fun s' => runEvents step s' es

/-- The condition is met by each event in turn. -/
def Allowed (step : S → E → Option S) (R : S → E → Prop) : S → List E → Prop
  | _, [] => True
  | s, e :: es => R s e ∧ match step s e with
    | some s' => Allowed step R s' es
    | none => True

instance Allowed.decidable [∀ s e, Decidable (R s e)] : ∀ s es, Decidable (Allowed step R s es)
  | _, [] => .isTrue trivial
  | s, e :: es =>
    match hs : step s e with
    | some s' =>
      have := Allowed.decidable s' es
      decidable_of_iff (R s e ∧ Allowed step R s' es) (by rw [Allowed, hs])
    | none => decidable_of_iff (R s e) (by rw [Allowed, hs]; simp)

/-- Events that are allowed in every state are allowed one after the other. -/
theorem Allowed.of_forall_mem {es : List E} (h : ∀ s, ∀ e ∈ es, R s e) : Allowed step R s es := by
  induction es generalizing s with
  | nil => trivial
  | cons e es ih =>
    refine ⟨h s e List.mem_cons_self, ?_⟩
    split
    · exact ih fun s e he => h s e (List.mem_cons_of_mem _ he)
    · trivial

/-- Events that are allowed are allowed by a weaker condition. -/
theorem Allowed.mono {R' : S → E → Prop} {es : List E} (h : Allowed step R s es)
    (hR : ∀ s e, R s e → R' s e) : Allowed step R' s es := by
  induction es generalizing s with
  | nil => trivial
  | cons e es ih =>
    rw [Allowed] at h ⊢
    refine ⟨hR s e h.1, ?_⟩
    cases hs : step s e with
    | none => trivial
    | some s' =>
      rw [hs] at h
      exact ih h.2

/-- Where everything is allowed, every sequence of events is. -/
theorem Allowed.of_forall (h : ∀ s e, R s e) {es : List E} : Allowed step R s es :=
  .of_forall_mem fun s e _ => h s e

/-- Running a list of allowed events continues a run. -/
theorem Trace.of_runEvents {es : List E} (h : Trace step R s₀ s) (hR : Allowed step R s es)
    (hrun : runEvents step s es = some s') : Trace step R s₀ s' := by
  induction es generalizing s with
  | nil =>
    rw [runEvents, Option.some.injEq] at hrun
    exact hrun ▸ h
  | cons e es ih =>
    rw [runEvents, Option.bind_eq_some_iff] at hrun
    obtain ⟨s₁, hs₁, hrest⟩ := hrun
    rw [Allowed, hs₁] at hR
    exact ih (h.event e hR.1 hs₁) hR.2 hrest

/-! ### A machine in a changing world -/

/-- The steps of a machine, and changes of the world around it. -/
def besides {W : Type} (step : S → E → Option S) : S × W → W ⊕ E → Option (S × W)
  | (s, _), .inl w => some (s, w)
  | (s, w), .inr e => (step s e).map fun s' => (s', w)

/-- What holds at the start, whatever the world does, and is kept by every allowed step, holds at
the end of every run beside a world. -/
theorem Trace.invariant_besides {W : Type} {R : S × W → W ⊕ E → Prop} {s₀ s : S × W}
    {I : S → W → Prop} (h : Trace (besides step) R s₀ s) (h₀ : I s₀.1 s₀.2)
    (hworld : ∀ s w w', I s w → R (s, w) (.inl w') → I s w')
    (hstep : ∀ s w e s', I s w → R (s, w) (.inr e) → step s e = some s' → I s' w) : I s.1 s.2 := by
  refine h.invariant (I := fun s => I s.1 s.2) h₀ ?_
  rintro ⟨s, w⟩ e s' hs hR he
  cases e with
  | inl w' =>
    obtain rfl := Option.some.inj he
    exact hworld s w w' hs hR
  | inr e =>
    obtain ⟨s₁, hs₁, rfl⟩ := Option.map_eq_some_iff.mp he
    exact hstep s w e s₁ hs hR hs₁

end MtShards.Core
