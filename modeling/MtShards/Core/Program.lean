import Mathlib.Logic.Function.Basic

/-!
# Programs that issue requests, and protocols they follow

A program is a tree of requests: it stops with a value or an exception, or issues
a request and goes on with whatever the answer turns out to be. Every request may
raise. What a request does is not part of the program, so the same text can be run
alone against a chosen list of outcomes or interleaved with other programs.

A protocol is a ghost automaton over the requests of one program: which requests a
phase permits, and the phase that each answer leads to. `Follows` is the weakest
precondition of a program with respect to a protocol; its rules follow the
combinators of the program text.
-/

namespace MtShards.Core

/-- A program over requests `Op` answered in `Ans`, every one of which may raise `ε`. -/
inductive Program (Op : Type) (Ans : Op → Type) (ε α : Type) : Type
  | done (r : Except ε α)
  | call (op : Op) (k : Except ε (Ans op) → Program Op Ans ε α)

namespace Program

variable {Op : Type} {Ans : Op → Type} {ε α β : Type}

/-- Return a value. -/
def pure (a : α) : Program Op Ans ε α := .done (.ok a)

/-- Raise an exception. -/
def raise (e : ε) : Program Op Ans ε α := .done (.error e)

/-- Run `x`, then `f` on its value; an exception of `x` skips `f`. -/
def bind : Program Op Ans ε α → (α → Program Op Ans ε β) → Program Op Ans ε β
  | .done (.ok a), f => f a
  | .done (.error e), _ => .done (.error e)
  | .call op k, f => .call op fun r => (k r).bind f

instance : Monad (Program Op Ans ε) where
  pure := pure
  bind := bind

/-- Issue one request and return its answer. -/
def request (op : Op) : Program Op Ans ε (Ans op) := .call op .done

/-- Run `x` and hand its outcome, value or exception, to what follows. -/
def attempt : Program Op Ans ε α → Program Op Ans ε (Except ε α)
  | .done r => .done (.ok r)
  | .call op k => .call op fun r => (k r).attempt

/-- `try: body finally: cleanup`; an exception of the clean-up replaces the outcome. -/
def tryFinally (body : Program Op Ans ε α) (cleanup : Program Op Ans ε Unit) :
    Program Op Ans ε α := do
  let r ← body.attempt
  cleanup
  .done r

/-- Forget the value a program returns. -/
def void (x : Program Op Ans ε α) : Program Op Ans ε Unit := x >>= fun _ => pure ()

end Program

/-- A ghost automaton over requests and their answers; a phase is what it remembers. -/
structure Protocol (Op : Type) (Ans : Op → Type) (ε Φ : Type) where
  /-- The phase of a program that has issued no request. -/
  init : Φ
  /-- The requests a program may issue in a phase. -/
  permits : Φ → Op → Prop
  /-- The phase after an answer. -/
  next : Φ → (op : Op) → Except ε (Ans op) → Φ
  /-- The phases in which a program may stop. -/
  mayStop : Φ → Prop
  mayStop_init : mayStop init

namespace Program

variable {Op : Type} {Ans : Op → Type} {ε Φ α β : Type}

/-- A condition on an outcome, given separately for a value and for an exception. -/
def onOutcome (ok : α → Prop) (err : ε → Prop) : Except ε α → Prop
  | .ok a => ok a
  | .error e => err e

/-- On a value the first predicate counts. -/
@[simp] theorem onOutcome_ok {ok : α → Prop} {err : ε → Prop} {a : α} :
    onOutcome ok err (.ok a) ↔ ok a := Iff.rfl

/-- On an exception the second predicate counts. -/
@[simp] theorem onOutcome_error {ok : α → Prop} {err : ε → Prop} {e : ε} :
    onOutcome ok err (.error e) ↔ err e := Iff.rfl

/-- From phase `φ` the program issues only permitted requests, whatever the answers,
and stops only in a phase and with an outcome satisfying `Q`. -/
def Follows (P : Protocol Op Ans ε Φ) :
    Program Op Ans ε α → Φ → (Φ → Except ε α → Prop) → Prop
  | .done r, φ, Q => Q φ r
  | .call op k, φ, Q => P.permits φ op ∧ ∀ r, (k r).Follows P (P.next φ op r) Q

variable {P : Protocol Op Ans ε Φ} {φ : Φ}

/-- A program that is done follows the protocol if its outcome is allowed in the phase it ends in.
-/
@[simp] theorem follows_done {r : Except ε α} {Q : Φ → Except ε α → Prop} :
    (done r : Program Op Ans ε α).Follows P φ Q ↔ Q φ r := Iff.rfl

/-- A program follows the protocol if its first request is permitted and the rest follows for every
answer. -/
@[simp] theorem follows_call {op : Op} {k : Except ε (Ans op) → Program Op Ans ε α}
    {Q : Φ → Except ε α → Prop} :
    (call op k).Follows P φ Q ↔ P.permits φ op ∧ ∀ r, (k r).Follows P (P.next φ op r) Q := Iff.rfl

/-- Returning a value follows the protocol if the value is allowed. -/
@[simp] theorem follows_pure {a : α} {Q : Φ → Except ε α → Prop} :
    (Pure.pure a : Program Op Ans ε α).Follows P φ Q ↔ Q φ (.ok a) := Iff.rfl

/-- Raising follows the protocol if the exception is allowed. -/
@[simp] theorem follows_raise {e : ε} {Q : Φ → Except ε α → Prop} :
    (raise e : Program Op Ans ε α).Follows P φ Q ↔ Q φ (.error e) := Iff.rfl

/-- A single request follows the protocol if it is permitted and its answers are allowed. -/
@[simp] theorem follows_request {op : Op} {Q : Φ → Except ε (Ans op) → Prop} :
    (request op : Program Op Ans ε (Ans op)).Follows P φ Q ↔
      P.permits φ op ∧ ∀ r, Q (P.next φ op r) r := Iff.rfl

/-- What a sequence asks: its second part follows from wherever the first one stops. -/
@[simp] theorem follows_bind {x : Program Op Ans ε α} {f : α → Program Op Ans ε β}
    {Q : Φ → Except ε β → Prop} :
    (x >>= f).Follows P φ Q ↔ x.Follows P φ fun φ' =>
      onOutcome (fun a => (f a).Follows P φ' Q) fun e => Q φ' (.error e) := by
  change (x.bind f).Follows P φ Q ↔ _
  induction x generalizing φ with
  | done r => cases r <;> rfl
  | call op k ih => exact and_congr_right fun _ => forall_congr' fun r => ih r

/-- Catching an exception does not change what is requested. -/
@[simp] theorem follows_attempt {x : Program Op Ans ε α}
    {Q : Φ → Except ε (Except ε α) → Prop} :
    x.attempt.Follows P φ Q ↔ x.Follows P φ fun φ' r => Q φ' (.ok r) := by
  induction x generalizing φ with
  | done r => rfl
  | call op k ih => exact and_congr_right fun _ => forall_congr' fun r => ih r

/-- A weaker postcondition is easier to meet. -/
theorem Follows.mono {x : Program Op Ans ε α} {Q Q' : Φ → Except ε α → Prop}
    (h : x.Follows P φ Q) (hQ : ∀ φ' r, Q φ' r → Q' φ' r) : x.Follows P φ Q' := by
  induction x generalizing φ with
  | done r => exact hQ φ r h
  | call op k ih => exact ⟨h.1, fun r => ih r (h.2 r)⟩

/-- Where a program stops does not change when its value is dropped. -/
theorem Follows.void {x : Program Op Ans ε α} {R : Φ → Prop}
    (h : x.Follows P φ fun φ' _ => R φ') : x.void.Follows P φ fun φ' _ => R φ' := by
  rw [Program.void, follows_bind]
  refine h.mono fun φ' r hr => ?_
  cases r <;> exact hr

/-- What a `try`/`finally` asks: the clean-up follows from wherever the body stops. -/
theorem follows_tryFinally {x : Program Op Ans ε α} {c : Program Op Ans ε Unit}
    {Q : Φ → Except ε α → Prop} :
    (tryFinally x c).Follows P φ Q ↔ x.Follows P φ fun φ' r =>
      c.Follows P φ' fun φ'' => onOutcome (fun _ => Q φ'' r) fun e => Q φ'' (.error e) := by
  simp only [tryFinally, follows_bind, follows_attempt, follows_done, onOutcome_ok]

/-! ### Which requests a program can issue -/

/-- Every request the program can issue satisfies `Q`, whatever the answers. -/
def Only (Q : Op → Prop) : Program Op Ans ε α → Prop
  | .done _ => True
  | .call op k => Q op ∧ ∀ r, (k r).Only Q

variable {Q : Op → Prop}

/-- A program that is done makes no request. -/
@[simp] theorem only_done {r : Except ε α} : (done r : Program Op Ans ε α).Only Q := trivial

/-- Returning a value makes no request. -/
@[simp] theorem only_pure {a : α} : (Pure.pure a : Program Op Ans ε α).Only Q := trivial

/-- Raising makes no request. -/
@[simp] theorem only_raise {e : ε} : (raise e : Program Op Ans ε α).Only Q := trivial

/-- A single request is the only one that it makes. -/
@[simp] theorem only_request {op : Op} : (request op : Program Op Ans ε (Ans op)).Only Q ↔ Q op :=
  and_iff_left fun _ => trivial

/-- A sequence makes only requests of its parts. -/
theorem Only.bind {x : Program Op Ans ε α} {f : α → Program Op Ans ε β} (hx : x.Only Q)
    (hf : ∀ a, (f a).Only Q) : (x >>= f).Only Q := by
  change (x.bind f).Only Q
  induction x with
  | done r =>
    cases r with
    | ok a => exact hf a
    | error e => trivial
  | call op k ih => exact ⟨hx.1, fun r => ih r (hx.2 r)⟩

/-- Catching an exception makes no further request. -/
theorem Only.attempt {x : Program Op Ans ε α} (hx : x.Only Q) : x.attempt.Only Q := by
  induction x with
  | done r => trivial
  | call op k ih => exact ⟨hx.1, fun r => ih r (hx.2 r)⟩

/-- A program with a cleanup makes only requests of the two. -/
theorem Only.tryFinally {x : Program Op Ans ε α} {c : Program Op Ans ε Unit} (hx : x.Only Q)
    (hc : c.Only Q) : (tryFinally x c).Only Q :=
  hx.attempt.bind fun _ => hc.bind fun _ => trivial

/-- A program that makes only some requests makes only requests of a larger kind. -/
theorem Only.mono {Q' : Op → Prop} {x : Program Op Ans ε α} (hx : x.Only Q)
    (hQ : ∀ op, Q op → Q' op) : x.Only Q' := by
  induction x with
  | done r => trivial
  | call op k ih => exact ⟨hQ op hx.1, fun r => ih r (hx.2 r)⟩

/-- What a program is restricted to twice, it is restricted to at once. -/
theorem Only.and {Q' : Op → Prop} {x : Program Op Ans ε α} (hx : x.Only Q) (hx' : x.Only Q') :
    x.Only fun op => Q op ∧ Q' op := by
  induction x with
  | done r => trivial
  | call op k ih => exact ⟨⟨hx.1, hx'.1⟩, fun r => ih r (hx.2 r) (hx'.2 r)⟩

/-- Requests that leave a phase as it is leave it so for as long as nothing else is issued. -/
theorem Only.follows {x : Program Op Ans ε α} (hx : x.Only Q)
    (hφ : ∀ op, Q op → P.permits φ op ∧ ∀ r, P.next φ op r = φ) :
    x.Follows P φ fun φ' _ => φ' = φ := by
  induction x with
  | done r => rfl
  | call op k ih =>
    refine ⟨(hφ op hx.1).1, fun r => ?_⟩
    rw [(hφ op hx.1).2 r]
    exact ih r (hx.2 r)

/-- Requests that every phase permits may be issued from any phase. -/
theorem Only.follows_anywhere {x : Program Op Ans ε α} (hx : x.Only Q)
    (hQ : ∀ φ op, Q op → P.permits φ op) : x.Follows P φ fun _ _ => True := by
  induction x generalizing φ with
  | done r => trivial
  | call op k ih => exact ⟨hQ φ op hx.1, fun r => ih r (hx.2 r)⟩

/-- Every program makes requests of some kind. -/
theorem only_true (x : Program Op Ans ε α) : x.Only fun _ => True := by
  induction x with
  | done r => trivial
  | call op k ih => exact ⟨trivial, ih⟩

/-! ### Which values a program can return -/

/-- Every request the program can issue satisfies `Q`, and every value it can return
satisfies `V`, whatever the answers. -/
def Within (Q : Op → Prop) (V : α → Prop) : Program Op Ans ε α → Prop
  | .done r => onOutcome V (fun _ => True) r
  | .call op k => Q op ∧ ∀ r, (k r).Within Q V

variable {V : α → Prop}

/-- Returning a value is within bounds if the value is. -/
@[simp] theorem within_pure {a : α} :
    (Pure.pure a : Program Op Ans ε α).Within Q V ↔ V a := Iff.rfl

/-- Raising returns no value. -/
@[simp] theorem within_raise {e : ε} : (raise e : Program Op Ans ε α).Within Q V := trivial

/-- The bound on the requests of a bounded program. -/
theorem Within.only {x : Program Op Ans ε α} (hx : x.Within Q V) : x.Only Q := by
  induction x with
  | done r => trivial
  | call op k ih => exact ⟨hx.1, fun r => ih r (hx.2 r)⟩

/-- A program with bounded requests, without a bound on its value. -/
theorem Only.within {x : Program Op Ans ε α} (hx : x.Only Q) : x.Within Q fun _ => True := by
  induction x with
  | done r => cases r <;> trivial
  | call op k ih => exact ⟨hx.1, fun r => ih r (hx.2 r)⟩

/-- A sequence is within bounds if the rest is for every value that the first part can return. -/
theorem Within.bind {U : α → Prop} {V : β → Prop} {x : Program Op Ans ε α}
    {f : α → Program Op Ans ε β} (hx : x.Within Q U) (hf : ∀ a, U a → (f a).Within Q V) :
    (x >>= f).Within Q V := by
  change (x.bind f).Within Q V
  induction x with
  | done r =>
    cases r with
    | ok a => exact hf a hx
    | error e => trivial
  | call op k ih => exact ⟨hx.1, fun r => ih r (hx.2 r)⟩

/-- A caught exception leaves the bound on the value. -/
theorem Within.attempt {x : Program Op Ans ε α} (hx : x.Within Q V) :
    x.attempt.Within Q (onOutcome V fun _ => True) := by
  induction x with
  | done r => exact hx
  | call op k ih => exact ⟨hx.1, fun r => ih r (hx.2 r)⟩

/-- Requests that keep to a set of phases keep a program in it, and its value is as said. -/
theorem Within.follows {x : Program Op Ans ε α} {S : Φ → Prop} (hx : x.Within Q V)
    (hS : ∀ φ op, S φ → Q op → P.permits φ op ∧ ∀ r, S (P.next φ op r)) (h : S φ) :
    x.Follows P φ fun φ' r => S φ' ∧ onOutcome V (fun _ => True) r := by
  induction x generalizing φ with
  | done r => exact ⟨h, hx⟩
  | call op k ih =>
    refine ⟨(hS φ op h hx.1).1, fun r => ?_⟩
    exact ih r (hx.2 r) ((hS φ op h hx.1).2 r)

/-- The bound on the value can be loosened. -/
theorem Within.mono {V' : α → Prop} {x : Program Op Ans ε α} (hx : x.Within Q V)
    (hV : ∀ a, V a → V' a) : x.Within Q V' := by
  induction x with
  | done r =>
    cases r with
    | ok a => exact hV a hx
    | error e => trivial
  | call op k ih => exact ⟨hx.1, fun r => ih r (hx.2 r)⟩

/-- A larger set of requests is kept to as well. -/
theorem Within.widen {Q' : Op → Prop} {x : Program Op Ans ε α} (hx : x.Within Q V)
    (hQ : ∀ op, Q op → Q' op) : x.Within Q' V := by
  induction x with
  | done r => exact hx
  | call op k ih => exact ⟨hQ op hx.1, fun r => ih r (hx.2 r)⟩

/-! ### Which exceptions a program can end with -/

/-- Every request the program can issue satisfies `Q`, and an exception that it ends with satisfies
`E` as long as those of its requests do. -/
def Raising (Q : Op → Prop) (E : ε → Prop) : Program Op Ans ε α → Prop
  | .done r => onOutcome (fun _ => True) E r
  | .call op k => Q op ∧ ∀ r, onOutcome (fun _ => True) E r → (k r).Raising Q E

variable {E : ε → Prop}

/-- Returning a value raises nothing. -/
@[simp] theorem raising_pure {a : α} : (Pure.pure a : Program Op Ans ε α).Raising Q E := trivial

/-- Raising is allowed for an exception of the kind. -/
@[simp] theorem raising_raise {e : ε} : (raise e : Program Op Ans ε α).Raising Q E ↔ E e := Iff.rfl

/-- A single request can raise what its kind allows. -/
@[simp] theorem raising_request {op : Op} :
    (request op : Program Op Ans ε (Ans op)).Raising Q E ↔ Q op :=
  and_iff_left fun _ hr => hr

/-- A sequence raises what one of its parts can raise. -/
theorem Raising.bind {x : Program Op Ans ε α} {f : α → Program Op Ans ε β} (hx : x.Raising Q E)
    (hf : ∀ a, (f a).Raising Q E) : (x >>= f).Raising Q E := by
  change (x.bind f).Raising Q E
  induction x with
  | done r =>
    cases r with
    | ok a => exact hf a
    | error e => exact hx
  | call op k ih => exact ⟨hx.1, fun r hr => ih r (hx.2 r hr)⟩

/-- What is caught is as said, too. -/
theorem Raising.attempt_bind {x : Program Op Ans ε α} {f : Except ε α → Program Op Ans ε β}
    (hx : x.Raising Q E) (hf : ∀ r, onOutcome (fun _ => True) E r → (f r).Raising Q E) :
    (x.attempt >>= f).Raising Q E := by
  change (x.attempt.bind f).Raising Q E
  induction x with
  | done r => exact hf r hx
  | call op k ih => exact ⟨hx.1, fun r hr => ih r (hx.2 r hr)⟩

end Program

end MtShards.Core
