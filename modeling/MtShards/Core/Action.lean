import Mathlib.Logic.Function.Basic

/-!
# State-passing actions with exceptions and clean-up

An action runs on a state, changes it, and returns a value or raises. Raising
does not roll the state back, which is what makes clean-up code necessary. An
observation of the state is kept by an action when every run, returning or
raising, ends with the observation it started with; the rules below derive this
for sequences and for `try`/`finally` blocks whose clean-up writes the
observation back.
-/

namespace MtShards.Core

/-- A computation over the state `σ` returning an `α` or raising an `ε`. -/
def Action (σ ε α : Type) : Type := σ → Except ε α × σ

namespace Action

variable {σ ε α β ω : Type}

/-- Return a value without touching the state. -/
def pure (a : α) : Action σ ε α := fun s => (.ok a, s)

/-- Raise an exception without touching the state. -/
def raise (e : ε) : Action σ ε α := fun s => (.error e, s)

/-- Run `m`, then `f` on its value; an exception of `m` skips `f`. -/
def bind (m : Action σ ε α) (f : α → Action σ ε β) : Action σ ε β := fun s =>
  match m s with
  | (.ok a, s') => f a s'
  | (.error e, s') => (.error e, s')

/-- Change the state. -/
def modify (f : σ → σ) : Action σ ε Unit := fun s => (.ok (), f s)

/-- Read from the state. -/
def gets (f : σ → α) : Action σ ε α := fun s => (.ok (f s), s)

/-- `try: body finally: cleanup`. An exception of the clean-up replaces the
outcome of the body, as it does in Python. -/
def tryFinally (body : Action σ ε α) (cleanup : Action σ ε Unit) : Action σ ε α := fun s =>
  match body s with
  | (r, s') =>
    match cleanup s' with
    | (.ok _, s'') => (r, s'')
    | (.error e, s'') => (.error e, s'')

instance : Monad (Action σ ε) where
  pure := pure
  bind := bind

/-- Returning a value leaves the state. -/
@[simp] theorem pure_apply (a : α) (s : σ) : (Pure.pure a : Action σ ε α) s = (.ok a, s) := rfl

/-- Raising leaves the state. -/
@[simp] theorem raise_apply (e : ε) (s : σ) : (raise e : Action σ ε α) s = (.error e, s) := rfl

/-- Modifying the state applies the function to it. -/
@[simp] theorem modify_apply (f : σ → σ) (s : σ) :
    (modify f : Action σ ε Unit) s = (.ok (), f s) := rfl

/-- Reading from the state leaves it. -/
@[simp] theorem gets_apply (f : σ → α) (s : σ) : (gets f : Action σ ε α) s = (.ok (f s), s) := rfl

/-- A sequence goes on from the state that its first part leaves, unless that raised. -/
theorem bind_apply (m : Action σ ε α) (f : α → Action σ ε β) (s : σ) :
    (m >>= f) s = match m s with
      | (.ok a, s') => f a s'
      | (.error e, s') => (.error e, s') := rfl

/-- Every run of `m` ends with the observation it started with. -/
def Keeps (obs : σ → ω) (m : Action σ ε α) : Prop := ∀ s, obs (m s).2 = obs s

/-- Returning a value keeps every observation. -/
theorem Keeps.pure (obs : σ → ω) (a : α) : Keeps obs (Pure.pure a : Action σ ε α) :=
  fun _ => rfl

/-- Raising keeps every observation. -/
theorem Keeps.raise (obs : σ → ω) (e : ε) : Keeps obs (raise e : Action σ ε α) :=
  fun _ => rfl

/-- A sequence keeps what both of its parts keep. -/
theorem Keeps.bind {obs : σ → ω} {m : Action σ ε α} {f : α → Action σ ε β}
    (hm : Keeps obs m) (hf : ∀ a, Keeps obs (f a)) : Keeps obs (m >>= f) := by
  intro s
  have hs := hm s
  rw [bind_apply]
  rcases h : m s with ⟨r, s'⟩
  rw [h] at hs
  cases r with
  | ok a => exact (hf a s').trans hs
  | error e => exact hs

/-- A clean-up that does not raise leaves the outcome of the body alone. -/
theorem tryFinally_modify (body : Action σ ε α) (f : σ → σ) (s : σ) :
    tryFinally body (modify f) s = ((body s).1, f (body s).2) := rfl

end Action

end MtShards.Core
