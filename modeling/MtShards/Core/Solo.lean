import MtShards.Core.Interleaving

/-!
# One program run on its own

A program runs against a relation that says which answers each request may get and what
it does to a state; what other processes do in between is part of that relation. The log
keeps the requests taken so far, newest first, with the state before and after each.

`Ensures` is the weakest precondition of a program with respect to such a relation: a
condition on every log it reaches, and one on the log, the state and the outcome it stops
with. Its rules follow the combinators of the program text, and `Exec.ensures` says that
it speaks of every execution. `Run.exec` finds the execution of one process inside an
interleaved run.
-/

namespace MtShards.Core

variable {Op : Type} {Ans : Op → Type} {ε σ α β : Type}

/-- A request that was answered, and the state before and after it. -/
structure Taken (Op : Type) (Ans : Op → Type) (ε σ : Type) where
  op : Op
  answer : Except ε (Ans op)
  pre : σ
  post : σ

/-- The request raised. -/
def Taken.Raised (x : Taken Op Ans ε σ) : Prop := ∃ e, x.answer = .error e

/-- Which answers a request may get in a state, and the state it leads to. -/
abbrev Semantics (Op : Type) (Ans : Op → Type) (ε σ : Type) :=
  (op : Op) → σ → Except ε (Ans op) → σ → Prop

/-- An execution from `s₀`: the requests taken, what is left to run, and the state. -/
inductive Exec (sem : Semantics Op Ans ε σ) (x : Program Op Ans ε α) (s₀ : σ) :
    List (Taken Op Ans ε σ) → Program Op Ans ε α → σ → Prop
  | start : Exec sem x s₀ [] x s₀
  | call {l : List (Taken Op Ans ε σ)} {op : Op} {k : Except ε (Ans op) → Program Op Ans ε α}
      {s s' : σ} (r : Except ε (Ans op)) : Exec sem x s₀ l (.call op k) s → sem op s r s' →
      Exec sem x s₀ (⟨op, r, s, s'⟩ :: l) (k r) s'

/-- An execution goes on with an answer to its next request. -/
theorem Exec.answer {sem : Semantics Op Ans ε σ} {x y : Program Op Ans ε α} {s₀ s : σ}
    {l : List (Taken Op Ans ε σ)} (h : Exec sem x s₀ l y s) (op : Op) (r : Except ε (Ans op))
    (s' : σ) {k : Except ε (Ans op) → Program Op Ans ε α} (hsem : sem op s r s')
    (hy : y = .call op k) : Exec sem x s₀ (⟨op, r, s, s'⟩ :: l) (k r) s' := by
  subst hy
  exact .call r h hsem

namespace Program

/-- From a log and a state, every log the program reaches satisfies `R`, and it stops only
with a log, a state and an outcome satisfying `Q`. -/
def Ensures (sem : Semantics Op Ans ε σ) (R : List (Taken Op Ans ε σ) → σ → Prop) :
    Program Op Ans ε α → List (Taken Op Ans ε σ) → σ →
      (List (Taken Op Ans ε σ) → σ → Except ε α → Prop) → Prop
  | .done r, l, s, Q => Q l s r
  | .call op k, l, s, Q => ∀ r s', sem op s r s' →
      R (⟨op, r, s, s'⟩ :: l) s' ∧ (k r).Ensures sem R (⟨op, r, s, s'⟩ :: l) s' Q

variable {sem : Semantics Op Ans ε σ} {R : List (Taken Op Ans ε σ) → σ → Prop}
  {l : List (Taken Op Ans ε σ)} {s : σ}

/-- A program that is done ensures what holds where it stops. -/
@[simp] theorem ensures_done {r : Except ε α}
    {Q : List (Taken Op Ans ε σ) → σ → Except ε α → Prop} :
    (done r : Program Op Ans ε α).Ensures sem R l s Q ↔ Q l s r := Iff.rfl

/-- Returning a value ensures what holds of it. -/
@[simp] theorem ensures_pure {a : α} {Q : List (Taken Op Ans ε σ) → σ → Except ε α → Prop} :
    (Pure.pure a : Program Op Ans ε α).Ensures sem R l s Q ↔ Q l s (.ok a) := Iff.rfl

/-- Raising ensures what holds of the exception. -/
@[simp] theorem ensures_raise {e : ε} {Q : List (Taken Op Ans ε σ) → σ → Except ε α → Prop} :
    (raise e : Program Op Ans ε α).Ensures sem R l s Q ↔ Q l s (.error e) := Iff.rfl

/-- A single request ensures what holds of each of its answers. -/
theorem ensures_request {op : Op}
    {Q : List (Taken Op Ans ε σ) → σ → Except ε (Ans op) → Prop} :
    (request op : Program Op Ans ε (Ans op)).Ensures sem R l s Q ↔ ∀ r s', sem op s r s' →
      R (⟨op, r, s, s'⟩ :: l) s' ∧ Q (⟨op, r, s, s'⟩ :: l) s' r := Iff.rfl

/-- What a sequence asks: its second part does its share from wherever the first stops. -/
@[simp] theorem ensures_bind {x : Program Op Ans ε α} {f : α → Program Op Ans ε β}
    {Q : List (Taken Op Ans ε σ) → σ → Except ε β → Prop} :
    (x >>= f).Ensures sem R l s Q ↔ x.Ensures sem R l s fun l' s' =>
      onOutcome (fun a => (f a).Ensures sem R l' s' Q) fun e => Q l' s' (.error e) := by
  change (x.bind f).Ensures sem R l s Q ↔ _
  induction x generalizing l s with
  | done r => cases r <;> rfl
  | call op k ih =>
    refine forall_congr' fun r => forall_congr' fun s' => ?_
    exact imp_congr_right fun _ => and_congr_right fun _ => ih r

/-- A program that is caught ensures what it did, of its outcome as a value. -/
@[simp] theorem ensures_attempt {x : Program Op Ans ε α}
    {Q : List (Taken Op Ans ε σ) → σ → Except ε (Except ε α) → Prop} :
    x.attempt.Ensures sem R l s Q ↔ x.Ensures sem R l s fun l' s' r => Q l' s' (.ok r) := by
  induction x generalizing l s with
  | done r => rfl
  | call op k ih =>
    refine forall_congr' fun r => forall_congr' fun s' => ?_
    exact imp_congr_right fun _ => and_congr_right fun _ => ih r

/-- What a `try`/`finally` asks: the clean-up does its share from wherever the body stops. -/
theorem ensures_tryFinally {x : Program Op Ans ε α} {c : Program Op Ans ε Unit}
    {Q : List (Taken Op Ans ε σ) → σ → Except ε α → Prop} :
    (tryFinally x c).Ensures sem R l s Q ↔ x.Ensures sem R l s fun l' s' r =>
      c.Ensures sem R l' s' fun l'' s'' =>
        onOutcome (fun _ => Q l'' s'' r) fun e => Q l'' s'' (.error e) := by
  simp only [tryFinally, ensures_bind, ensures_attempt, ensures_done, onOutcome_ok]

/-- A weaker postcondition is easier to meet. -/
theorem Ensures.mono {x : Program Op Ans ε α}
    {Q Q' : List (Taken Op Ans ε σ) → σ → Except ε α → Prop} (h : x.Ensures sem R l s Q)
    (hQ : ∀ l' s' r, Q l' s' r → Q' l' s' r) : x.Ensures sem R l s Q' := by
  induction x generalizing l s with
  | done r => exact hQ l s r h
  | call op k ih =>
    intro r s' hsem
    exact ⟨(h r s' hsem).1, ih r (h r s' hsem).2⟩

/-- What a program ensures twice over, it ensures at once. -/
theorem Ensures.and {x : Program Op Ans ε α} {R' : List (Taken Op Ans ε σ) → σ → Prop}
    {Q Q' : List (Taken Op Ans ε σ) → σ → Except ε α → Prop} (h : x.Ensures sem R l s Q)
    (h' : x.Ensures sem R' l s Q') : x.Ensures sem R l s fun l' s' r => Q l' s' r ∧ Q' l' s' r := by
  induction x generalizing l s with
  | done r => exact ⟨h, h'⟩
  | call op k ih =>
    intro r s' hsem
    exact ⟨(h r s' hsem).1, ih r (h r s' hsem).2 (h' r s' hsem).2⟩

/-- What every allowed request keeps, a program made of allowed requests keeps. -/
theorem Only.ensures {x : Program Op Ans ε α} {A : Op → Prop} (hx : x.Only A)
    {I : List (Taken Op Ans ε σ) → σ → Prop}
    (hI : ∀ l s op r s', A op → I l s → sem op s r s' →
      R (⟨op, r, s, s'⟩ :: l) s' ∧ I (⟨op, r, s, s'⟩ :: l) s')
    (h : I l s) : x.Ensures sem R l s fun l' s' _ => I l' s' := by
  induction x generalizing l s with
  | done r => exact h
  | call op k ih =>
    intro r s' hsem
    obtain ⟨hR, hnext⟩ := hI l s op r s' hx.1 h hsem
    exact ⟨hR, ih r (hx.2 r) hnext⟩

/-- The same, with what is known of the value. -/
theorem Within.ensures {x : Program Op Ans ε α} {A : Op → Prop} {V : α → Prop}
    (hx : x.Within A V) {I : List (Taken Op Ans ε σ) → σ → Prop}
    (hI : ∀ l s op r s', A op → I l s → sem op s r s' →
      R (⟨op, r, s, s'⟩ :: l) s' ∧ I (⟨op, r, s, s'⟩ :: l) s')
    (h : I l s) : x.Ensures sem R l s fun l' s' r => I l' s' ∧ onOutcome V (fun _ => True) r := by
  induction x generalizing l s with
  | done r => exact ⟨h, hx⟩
  | call op k ih =>
    intro r s' hsem
    obtain ⟨hR, hnext⟩ := hI l s op r s' hx.1 h hsem
    exact ⟨hR, ih r (hx.2 r) hnext⟩

/-- The same, with what is known of an exception. -/
theorem Raising.ensures {x : Program Op Ans ε α} {A : Op → Prop} {E : ε → Prop}
    (hx : x.Raising A E) {I : List (Taken Op Ans ε σ) → σ → Prop}
    (hI : ∀ l s op r s', A op → I l s → sem op s r s' →
      R (⟨op, r, s, s'⟩ :: l) s' ∧ I (⟨op, r, s, s'⟩ :: l) s')
    (hE : ∀ op s r s', A op → sem op s r s' → onOutcome (fun _ => True) E r)
    (h : I l s) : x.Ensures sem R l s fun l' s' r => I l' s' ∧ onOutcome (fun _ => True) E r := by
  induction x generalizing l s with
  | done r => exact ⟨h, hx⟩
  | call op k ih =>
    intro r s' hsem
    obtain ⟨hR, hnext⟩ := hI l s op r s' hx.1 h hsem
    exact ⟨hR, ih r (hx.2 r (hE op s r s' hx.1 hsem)) hnext⟩

end Program

section Adequacy

variable {sem : Semantics Op Ans ε σ} {R : List (Taken Op Ans ε σ) → σ → Prop}
  {x y : Program Op Ans ε α} {s₀ s : σ} {l : List (Taken Op Ans ε σ)}
  {Q : List (Taken Op Ans ε σ) → σ → Except ε α → Prop}

/-- What a program ensures holds along each of its executions. -/
theorem Exec.ensures (h : Exec sem x s₀ l y s) (hR : R [] s₀) (hx : x.Ensures sem R [] s₀ Q) :
    R l s ∧ y.Ensures sem R l s Q := by
  induction h with
  | start => exact ⟨hR, hx⟩
  | call r _ hsem ih => exact ih.2 r _ hsem

/-- What a program ensures holds where an execution of it stops. -/
theorem Exec.outcome {r : Except ε α} (h : Exec sem x s₀ l (.done r) s) (hR : R [] s₀)
    (hx : x.Ensures sem R [] s₀ Q) : Q l s r := (h.ensures hR hx).2

/-- A program whose value is dropped takes the same requests. -/
theorem Exec.of_void {x : Program Op Ans ε α} {y : Program Op Ans ε Unit}
    (h : Exec sem x.void s₀ l y s) : ∃ y', y = y'.void ∧ Exec sem x s₀ l y' s := by
  generalize hv : x.void = v at h
  induction h with
  | start => exact ⟨x, hv.symm, .start⟩
  | @call l op k s s' r _ hsem ih =>
    obtain ⟨y', hy', hexec⟩ := ih
    cases y' with
    | done r' => cases r' <;> cases hy'
    | call op' k' =>
      cases hy'
      exact ⟨k' r, rfl, .call r hexec hsem⟩

/-- An execution whose answers all meet another relation is one under that relation. -/
theorem Exec.of_forall {sem' : Semantics Op Ans ε σ} (h : Exec sem x s₀ l y s)
    (hl : ∀ z ∈ l, sem' z.op z.pre z.answer z.post) : Exec sem' x s₀ l y s := by
  induction h with
  | start => exact .start
  | call r _ _ ih =>
    refine .call r (ih fun z hz => hl z (List.mem_cons_of_mem _ hz)) ?_
    exact hl _ List.mem_cons_self

/-- An execution under a relation is one under each weaker relation. -/
theorem Exec.mono {sem' : Semantics Op Ans ε σ} (h : Exec sem x s₀ l y s)
    (hsem : ∀ op s r s', sem op s r s' → sem' op s r s') : Exec sem' x s₀ l y s := by
  induction h with
  | start => exact .start
  | call r _ hs ih => exact .call r ih (hsem _ _ r _ hs)

/-- What every request of an execution meets besides its relation. -/
theorem Exec.split {P : Taken Op Ans ε σ → Prop}
    (h : Exec (fun op s r s' => sem op s r s' ∧ P ⟨op, r, s, s'⟩) x s₀ l y s) :
    Exec sem x s₀ l y s ∧ ∀ z ∈ l, P z := by
  induction h with
  | start => exact ⟨.start, fun z hz => absurd hz List.not_mem_nil⟩
  | call r _ hsem ih =>
    refine ⟨.call r ih.1 hsem.1, fun z hz => ?_⟩
    rcases List.mem_cons.mp hz with rfl | hz
    · exact hsem.2
    · exact ih.2 z hz

/-- Every request of a log is one that the program can issue. -/
theorem Exec.only {A : Op → Prop} (h : Exec sem x s₀ l y s) (hx : x.Only A) :
    (∀ z ∈ l, A z.op) ∧ y.Only A := by
  induction h with
  | start => exact ⟨fun z hz => absurd hz List.not_mem_nil, hx⟩
  | call r _ _ ih =>
    refine ⟨fun z hz => ?_, ih.2.2 r⟩
    rcases List.mem_cons.mp hz with rfl | hz
    · exact ih.2.1
    · exact ih.1 z hz

/-- An execution goes on to its end when, in every state that satisfies `I`, each request that
the program may issue has an answer that keeps `I`. -/
theorem Exec.finishes {A : Op → Prop} {I : σ → Prop} (hx : y.Only A)
    (hI : ∀ op s, A op → I s → ∃ r s', sem op s r s' ∧ I s') (h : Exec sem x s₀ l y s) (hs : I s) :
    ∃ l' r s', Exec sem x s₀ l' (.done r) s' ∧ I s' := by
  induction y generalizing l s with
  | done r => exact ⟨l, r, s, h, hs⟩
  | call op k ih =>
    obtain ⟨r, s', hsem, hs'⟩ := hI op s hx.1 hs
    exact ih r (hx.2 r) (.call r h hsem) hs'

end Adequacy

section Phases

variable {Φ : Type} {P : Protocol Op Ans ε Φ} {φ : Φ}

/-- The phase after a log. -/
def phaseOf (P : Protocol Op Ans ε Φ) (φ : Φ) : List (Taken Op Ans ε σ) → Φ
  | [] => φ
  | x :: l => P.next (phaseOf P φ l) x.op x.answer

variable {sem : Semantics Op Ans ε σ} {x y : Program Op Ans ε α} {s₀ s : σ}
  {l : List (Taken Op Ans ε σ)} {Q : Φ → Except ε α → Prop}

/-- What a program has left follows the protocol from where its log has led. -/
theorem Exec.follows (h : Exec sem x s₀ l y s) (hx : x.Follows P φ Q) :
    y.Follows P (phaseOf P φ l) Q := by
  induction h with
  | start => exact hx
  | call r _ _ ih => exact ih.2 r

/-- Every request of a log was permitted when it was issued. -/
theorem Exec.permits (h : Exec sem x s₀ l y s) (hx : x.Follows P φ Q)
    {later earlier : List (Taken Op Ans ε σ)} {z : Taken Op Ans ε σ}
    (hl : l = later ++ z :: earlier) : P.permits (phaseOf P φ earlier) z.op := by
  induction h generalizing later with
  | start => simp at hl
  | @call l op k s s' r hexec _ ih =>
    cases later with
    | nil =>
      cases hl
      exact (hexec.follows hx).1
    | cons z' later =>
      cases hl
      exact ih rfl

end Phases

section Interleaved

variable {Pid St : Type} [DecidableEq Pid]

/-- The requests of a process since it was last started, newest first. -/
def takenBy (p : Pid) : List (Entry Pid Op Ans ε St) → List (Taken Op Ans ε St)
  | [] => []
  | ⟨.start q, _, _⟩ :: t => if q = p then [] else takenBy p t
  | ⟨.answer q op r, s, s'⟩ :: t =>
    if q = p then ⟨op, r, s, s'⟩ :: takenBy p t else takenBy p t
  | ⟨.kill q, _, _⟩ :: t => if q = p then [] else takenBy p t
  | _ :: t => takenBy p t

/-- Every request of a log is a step of the trace. -/
theorem mem_of_mem_takenBy {p : Pid} {t : List (Entry Pid Op Ans ε St)} {z : Taken Op Ans ε St}
    (hz : z ∈ takenBy p t) : ⟨.answer p z.op z.answer, z.pre, z.post⟩ ∈ t := by
  induction t with
  | nil => cases hz
  | cons e t ih =>
    obtain ⟨l, s, s'⟩ := e
    cases l with
    | start q =>
      by_cases hq : q = p
      · rw [takenBy, if_pos hq] at hz
        cases hz
      · rw [takenBy, if_neg hq] at hz
        exact List.mem_cons_of_mem _ (ih hz)
    | answer q op r =>
      by_cases hq : q = p
      · subst hq
        rw [takenBy, if_pos rfl] at hz
        rcases List.mem_cons.mp hz with rfl | hz
        · exact List.mem_cons_self
        · exact List.mem_cons_of_mem _ (ih hz)
      · rw [takenBy, if_neg hq] at hz
        exact List.mem_cons_of_mem _ (ih hz)
    | kill q =>
      by_cases hq : q = p
      · rw [takenBy, if_pos hq] at hz
        cases hz
      · rw [takenBy, if_neg hq] at hz
        exact List.mem_cons_of_mem _ (ih hz)
    | inner q op => exact List.mem_cons_of_mem _ (ih hz)
    | env => exact List.mem_cons_of_mem _ (ih hz)

/-- The log without its states. -/
def answers (l : List (Taken Op Ans ε σ)) : List (Taken Op Ans ε Unit) :=
  l.map fun x => ⟨x.op, x.answer, (), ()⟩

/-- Any answer to any request. -/
def anyAnswer : Semantics Op Ans ε Unit := fun _ _ _ _ => True

variable {M : Machine Pid Op Ans ε St} {starts : Pid → Program Op Ans ε Unit → Prop}
  {s₀ : St} {t : List (Entry Pid Op Ans ε St)} {c : Config Pid Op Ans ε St}

/-- What a process of an interleaved run has left is what an execution of a program it may
be started with has left; or it has not been started. -/
theorem Run.exec (h : Run M starts (.idle s₀) t c) (p : Pid) {y : Program Op Ans ε Unit}
    (hp : c.proc p = some y) :
    y = .done (.ok ()) ∨ ∃ x, starts p x ∧ Exec anyAnswer x () (answers (takenBy p t)) y () := by
  induction h generalizing p y with
  | nil =>
    obtain rfl := Option.some.inj hp
    exact .inl rfl
  | @cons t c l c' _ hs ih =>
    cases hs with
    | @start q r prog _ hstart =>
      by_cases hq : q = p
      · subst hq
        simp only [Function.update_self, Option.some.injEq] at hp
        refine .inr ⟨prog, hstart, ?_⟩
        simp only [takenBy, if_true, answers, List.map_nil, hp]
        exact .start
      · have hp' : c.proc p = some y := by
          simpa only [Function.update_of_ne (Ne.symm hq)] using hp
        simpa only [takenBy, hq, if_false] using ih p hp'
    | inner _ _ => exact ih p hp
    | @answer q op k r s' hcall _ =>
      by_cases hq : q = p
      · subst hq
        simp only [Function.update_self, Option.some.injEq] at hp
        subst hp
        rcases ih q hcall with hidle | ⟨x, hx, hexec⟩
        · cases hidle
        · refine .inr ⟨x, hx, ?_⟩
          simp only [takenBy, if_true, answers, List.map_cons]
          exact .call r hexec trivial
      · have hp' : c.proc p = some y := by
          simpa only [Function.update_of_ne (Ne.symm hq)] using hp
        simpa only [takenBy, hq, if_false] using ih p hp'
    | env _ => exact ih p hp
    | @kill q prog s' _ _ =>
      by_cases hq : q = p
      · subst hq
        simp only [Function.update_self, reduceCtorEq] at hp
      · have hp' : c.proc p = some y := by
          simpa only [Function.update_of_ne (Ne.symm hq)] using hp
        simpa only [takenBy, hq, if_false] using ih p hp'

/-- What a step adds to the requests and the phase of a process: nothing, an answer of its own,
or a new start of both. -/
theorem phaseAt_takenBy_cases {Φ : Type} (P : Protocol Op Ans ε Φ) (p : Pid)
    (l : Label Pid Op Ans ε) (s s' : St) (t : List (Entry Pid Op Ans ε St)) :
    (phaseAt P p (⟨l, s, s'⟩ :: t) = phaseAt P p t ∧ takenBy p (⟨l, s, s'⟩ :: t) = takenBy p t) ∨
    (phaseAt P p (⟨l, s, s'⟩ :: t) = P.init ∧ takenBy p (⟨l, s, s'⟩ :: t) = []) ∨
    ∃ op r, l = .answer p op r ∧ phaseAt P p (⟨l, s, s'⟩ :: t) = P.next (phaseAt P p t) op r ∧
      takenBy p (⟨l, s, s'⟩ :: t) = ⟨op, r, s, s'⟩ :: takenBy p t := by
  cases l with
  | start q =>
    by_cases hq : q = p
    · exact .inr (.inl ⟨if_pos hq, if_pos hq⟩)
    · exact .inl ⟨if_neg hq, if_neg hq⟩
  | answer q op r =>
    by_cases hq : q = p
    · subst hq
      exact .inr (.inr ⟨op, r, rfl, if_pos rfl, if_pos rfl⟩)
    · exact .inl ⟨if_neg hq, if_neg hq⟩
  | kill q =>
    by_cases hq : q = p
    · exact .inr (.inl ⟨if_pos hq, if_pos hq⟩)
    · exact .inl ⟨if_neg hq, if_neg hq⟩
  | inner q op => exact .inl ⟨rfl, rfl⟩
  | env => exact .inl ⟨rfl, rfl⟩

section Each

variable {Φ : Type} {P : Protocol Op Ans ε Φ} {t : List (Entry Pid Op Ans ε St)} {q : Pid}
  {C : Pid → Φ → List (Taken Op Ans ε St) → Prop} {s s' : St}

/-- What holds of a process that starts, and of the others as they were, holds of each. -/
theorem each_start (hself : C q P.init []) (hother : ∀ p, q ≠ p → C p (phaseAt P p t) (takenBy p t))
    (p : Pid) : C p (phaseAt P p (⟨.start q, s, s'⟩ :: t)) (takenBy p (⟨.start q, s, s'⟩ :: t)) := by
  by_cases hp : q = p
  · subst hp
    rw [phaseAt_start_self, takenBy, if_pos rfl]
    exact hself
  · rw [phaseAt_start_of_ne hp, takenBy, if_neg hp]
    exact hother p hp

/-- What holds of a process after its answer, and of the others as they were, holds of each. -/
theorem each_answer {op : Op} {r : Except ε (Ans op)}
    (hself : C q (P.next (phaseAt P q t) op r) (⟨op, r, s, s'⟩ :: takenBy q t))
    (hother : ∀ p, q ≠ p → C p (phaseAt P p t) (takenBy p t)) (p : Pid) :
    C p (phaseAt P p (⟨.answer q op r, s, s'⟩ :: t)) (takenBy p (⟨.answer q op r, s, s'⟩ :: t)) := by
  by_cases hp : q = p
  · subst hp
    rw [phaseAt_answer_self, takenBy, if_pos rfl]
    exact hself
  · rw [phaseAt_answer_of_ne hp, takenBy, if_neg hp]
    exact hother p hp

end Each

/-- The phase of a process is the one its own requests have led to. -/
theorem phaseAt_eq_phaseOf {Φ : Type} (P : Protocol Op Ans ε Φ) (p : Pid)
    (t : List (Entry Pid Op Ans ε St)) : phaseAt P p t = phaseOf P P.init (takenBy p t) := by
  induction t with
  | nil => rfl
  | cons e t ih =>
    rcases phaseAt_takenBy_cases P p e.label e.pre e.post t with
      ⟨hphase, hlog⟩ | ⟨hphase, hlog⟩ | ⟨op, r, _, hphase, hlog⟩
    · rw [hphase, hlog, ih]
    · rw [hphase, hlog]
      rfl
    · rw [hphase, hlog, ih]
      rfl

/-- From any configuration, what a process that is not started again has left is what an
execution of its program has left. -/
theorem Run.exec_from {c₁ : Config Pid Op Ans ε St} (h : Run M starts c₁ t c) {p : Pid}
    {x y : Program Op Ans ε Unit} (hx : c₁.proc p = some x)
    (hsame : ∀ e ∈ t, e.label ≠ .start p) (hp : c.proc p = some y) :
    Exec anyAnswer x () (answers (takenBy p t)) y () := by
  induction h generalizing y with
  | nil =>
    obtain rfl := Option.some.inj (hx.symm.trans hp)
    exact .start
  | @cons t c l c' _ hs ih =>
    have ih := fun y => ih (y := y) fun e he => hsame e (List.mem_cons_of_mem _ he)
    cases hs with
    | @start q r prog _ _ =>
      have hq : q ≠ p := fun hq => hsame _ List.mem_cons_self (by rw [hq])
      have hp' : c.proc p = some y := by
        simpa only [Function.update_of_ne (Ne.symm hq)] using hp
      simpa only [takenBy, hq, if_false] using ih y hp'
    | inner _ _ => exact ih y hp
    | @answer q op k r s' hcall _ =>
      by_cases hq : q = p
      · subst hq
        simp only [Function.update_self, Option.some.injEq] at hp
        subst hp
        simp only [takenBy, if_true, answers, List.map_cons]
        exact .call r (ih _ hcall) trivial
      · have hp' : c.proc p = some y := by
          simpa only [Function.update_of_ne (Ne.symm hq)] using hp
        simpa only [takenBy, hq, if_false] using ih y hp'
    | env _ => exact ih y hp
    | @kill q prog s' _ _ =>
      by_cases hq : q = p
      · subst hq
        simp only [Function.update_self, reduceCtorEq] at hp
      · have hp' : c.proc p = some y := by
          simpa only [Function.update_of_ne (Ne.symm hq)] using hp
        simpa only [takenBy, hq, if_false] using ih y hp'

end Interleaved

end MtShards.Core
