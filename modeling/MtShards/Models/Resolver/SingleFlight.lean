import MtShards.Core.Solo

/-!
# Coalescing concurrent calls

`tenants.resolver.throttle.single_flight`, for any number of callers with any keys and resolvers. A
caller that finds no slot under its key leads: it runs its resolver and leaves what came of it in
the slot. The others wait for the slot's event, or give up and run their own. The slot is taken away
before its event is set, so that a new leader may run while followers still read the old slot.
-/

namespace MtShards.SingleFlight

open MtShards.Core

variable {Pid Key Value Exn Base α : Type}

/-! ### Slots -/

/-- What a resolver can raise. -/
inductive Raised (Exn Base : Type)
  | exception (e : Exn)
  /-- A `BaseException` that is no `Exception`. -/
  | control (b : Base)

/-- How a resolver, or a call, ends. -/
abbrev Outcome (Value Exn Base : Type) := Except (Raised Exn Base) Value

/-- A slot: its event, its result (`none` is `_UNSET`) and its exception. -/
structure Slot (Value Exn : Type) where
  event : Bool
  result : Option Value
  exc : Option Exn

/-- `_inflight`, and the slots by the order of their creation. -/
structure Flights (Key Value Exn : Type) where
  inflight : Key → Option Nat
  slot : Nat → Slot Value Exn
  created : Nat

/-- What a caller finds under the lock. -/
inductive Joined
  | leader (n : Nat)
  | follower (n : Nat)

/-! ### The function -/

/-- An atomic step of a call. -/
inductive Req (Key Value Exn Base : Type)
  /-- The slot is looked up, or made, under `_inflight_lock`. -/
  | join (k : Key)
  /-- `resolver()`, run for a slot or for the caller alone. -/
  | resolver (k : Key) (slot : Option Nat)
  | storeResult (n : Nat) (v : Value)
  | storeExc (n : Nat) (e : Exn)
  /-- `_inflight.pop(key, None)`, under the lock. -/
  | pop (k : Key)
  | setEvent (n : Nat)
  /-- `slot["event"].wait(timeout=wait_timeout)`. -/
  | wait (n : Nat)
  | readExc (n : Nat)
  | readResult (n : Nat)
  /-- The call is over. -/
  | finish (k : Key) (r : Outcome Value Exn Base)

/-- What a step answers. -/
@[reducible] def Req.Ans : Req Key Value Exn Base → Type
  | join _ => Joined
  | resolver _ _ => Value
  | wait _ => Bool
  | readExc _ => Option Exn
  | readResult _ => Option Value
  | storeResult _ _ | storeExc _ _ | pop _ | setEvent _ | finish _ _ => Unit

/-- A program over these steps. -/
abbrev Prog (Key Value Exn Base α : Type) :=
  Program (Req Key Value Exn Base) Req.Ans (Raised Exn Base) α

/-- Take one step and return its answer. -/
def call (op : Req Key Value Exn Base) : Prog Key Value Exn Base op.Ans := Program.request op

/-- The end of `single_flight`, with the slot filled or left empty. -/
def readSlot (k : Key) (n : Nat) : Prog Key Value Exn Base Value := do
  match ← call (.readExc n) with
  | some e => Program.raise (.exception e)
  | none =>
    match ← call (.readResult n) with
    | none => call (.resolver k none)
    | some v => pure v

/-- The `try` of the leader. -/
def lead (k : Key) (n : Nat) : Prog Key Value Exn Base Unit :=
  Program.tryFinally
    (do
      match ← (call (.resolver k (some n))).attempt with
      | .ok v => call (.storeResult n v)
      | .error (.exception e) => call (.storeExc n e)
      | .error (.control b) => Program.raise (.control b))
    (do
      call (.pop k)
      call (.setEvent n))

/-- `single_flight`. -/
def singleFlight (k : Key) : Prog Key Value Exn Base Value := do
  match ← call (.join k) with
  | .leader n => do
    lead k n
    readSlot k n
  | .follower n =>
    if ← call (.wait n) then readSlot k n else call (.resolver k none)

/-- A call, and its caller. -/
def serve (k : Key) : Prog Key Value Exn Base Unit := do
  let r ← (singleFlight k).attempt
  call (.finish k r)

/-! ### Phases of a call -/

/-- Where a call is. -/
inductive Phase (Key Value Exn Base : Type)
  | fresh
  /-- It leads a slot, and runs its resolver. -/
  | leading (k : Key) (n : Nat)
  | storing (k : Key) (n : Nat) (r : Outcome Value Exn Base)
  | popping (k : Key) (n : Nat) (r : Outcome Value Exn Base)
  | setting (k : Key) (n : Nat) (r : Outcome Value Exn Base)
  | following (k : Key) (n : Nat)
  /-- It reads a slot: the leader, of what it came to, or a follower. -/
  | reading (k : Key) (n : Nat) (own : Option (Outcome Value Exn Base))
  | readingResult (k : Key) (n : Nat) (own : Option (Outcome Value Exn Base))
  /-- It runs its resolver for itself. -/
  | resolving (k : Key)
  /-- It has its outcome: its own, or that of a slot. -/
  | ended (k : Key) (r : Outcome Value Exn Base) (slot : Option Nat)
  | closed
  /-- A step has raised that never does. -/
  | lost

/-- The phase once the resolver of a leader has ended. -/
def resolvedPhase (k : Key) (n : Nat) : Outcome Value Exn Base → Phase Key Value Exn Base
  | .error (.control b) => .popping k n (.error (.control b))
  | r => .storing k n r

/-- The phase once the event of a leader is set. -/
def wokenPhase (k : Key) (n : Nat) : Outcome Value Exn Base → Phase Key Value Exn Base
  | .error (.control b) => .ended k (.error (.control b)) none
  | r => .reading k n (some r)

/-- The slot whose outcome a reader ends with, unless it is its own. -/
def slotOf (n : Nat) : Option (Outcome Value Exn Base) → Option Nat
  | some _ => none
  | none => some n

/-- The steps of `single_flight`, in its order. -/
def protocol : Protocol (Req Key Value Exn Base) Req.Ans (Raised Exn Base)
    (Phase Key Value Exn Base) where
  init := .fresh
  permits
    | .fresh, .join _ => True
    | .leading k n, .resolver k' slot => k' = k ∧ slot = some n
    | .storing _ n r, .storeResult m v => m = n ∧ r = .ok v
    | .storing _ n r, .storeExc m e => m = n ∧ r = .error (.exception e)
    | .popping k _ _, .pop k' => k' = k
    | .setting _ n _, .setEvent m => m = n
    | .following _ n, .wait m => m = n
    | .reading _ n _, .readExc m => m = n
    | .readingResult _ n _, .readResult m => m = n
    | .resolving k, .resolver k' slot => k' = k ∧ slot = none
    | .ended k r _, .finish k' r' => k' = k ∧ r' = r
    | .lost, _ => True
    | _, _ => False
  next
    | .fresh, .join k, .ok (.leader n) => .leading k n
    | .fresh, .join k, .ok (.follower n) => .following k n
    | .leading k n, .resolver _ _, r => resolvedPhase k n r
    | .storing k n r, .storeResult _ _, .ok _ => .popping k n r
    | .storing k n r, .storeExc _ _, .ok _ => .popping k n r
    | .popping k n r, .pop _, .ok _ => .setting k n r
    | .setting k n r, .setEvent _, .ok _ => wokenPhase k n r
    | .following k n, .wait _, .ok true => .reading k n none
    | .following k _, .wait _, .ok false => .resolving k
    | .reading k n own, .readExc _, .ok (some e) =>
      .ended k (.error (.exception e)) (slotOf n own)
    | .reading k n own, .readExc _, .ok none => .readingResult k n own
    | .readingResult k n own, .readResult _, .ok (some v) => .ended k (.ok v) (slotOf n own)
    | .readingResult k _ _, .readResult _, .ok none => .resolving k
    | .resolving k, .resolver _ _, r => .ended k r none
    | .ended _ _ _, .finish _ _, .ok _ => .closed
    | _, _, _ => .lost
  mayStop φ := φ = .fresh ∨ φ = .closed ∨ φ = .lost
  mayStop_init := .inl rfl

/-- A call that is lost stays so. -/
theorem follows_lost (x : Prog Key Value Exn Base α) :
    x.Follows protocol .lost fun φ _ => φ = .lost :=
  (Program.only_true x).follows fun _ _ => ⟨trivial, fun _ => rfl⟩

/-- The call is lost, or has this outcome. -/
def Ends (k : Key) (φ : Phase Key Value Exn Base) (r : Outcome Value Exn Base) : Prop :=
  φ = .lost ∨ ∃ slot, φ = .ended k r slot

private theorem follows_lost_ends {k : Key} (x : Prog Key Value Exn Base Value) :
    x.Follows protocol .lost fun φ r => Ends k φ r :=
  (follows_lost x).mono fun _ _ h => .inl h

theorem resolver_follows (k : Key) :
    (call (.resolver k none) : Prog Key Value Exn Base Value).Follows protocol (.resolving k)
      fun φ r => Ends k φ r :=
  ⟨⟨rfl, rfl⟩, fun _ => .inr ⟨none, rfl⟩⟩

theorem readSlot_follows (k : Key) (n : Nat) (own : Option (Outcome Value Exn Base)) :
    (readSlot k n : Prog Key Value Exn Base Value).Follows protocol (.reading k n own)
      fun φ r => Ends k φ r := by
  unfold readSlot
  rw [Program.follows_bind]
  refine ⟨rfl, fun a => ?_⟩
  rcases a with e | _ | e
  · exact .inl rfl
  · refine ⟨rfl, fun b => ?_⟩
    rcases b with e | _ | v
    · exact .inl rfl
    · exact resolver_follows k
    · exact .inr ⟨_, rfl⟩
  · exact .inr ⟨_, rfl⟩

/-- The `finally` of the leader. -/
theorem finally_follows (k : Key) (n : Nat) (r : Outcome Value Exn Base) :
    (do
      call (.pop k)
      call (.setEvent n) : Prog Key Value Exn Base Unit).Follows protocol (.popping k n r)
      fun φ b => φ = .lost ∨ b = .ok () ∧ φ = wokenPhase k n r := by
  rw [Program.follows_bind]
  refine ⟨rfl, fun a => ?_⟩
  cases a with
  | error e => exact .inl rfl
  | ok _ =>
    refine ⟨rfl, fun b => ?_⟩
    cases b with
    | error e => exact .inl rfl
    | ok _ => exact .inr ⟨rfl, rfl⟩

/-- Where the leader is after its `try`: it reads its slot, or raises what it did not catch. -/
def Left (k : Key) (n : Nat) (φ : Phase Key Value Exn Base) : Except (Raised Exn Base) Unit → Prop
  | .ok _ => ∃ own, φ = .reading k n own
  | .error e => φ = .ended k (.error e) none

private theorem lead_follows (k : Key) (n : Nat) :
    (lead k n : Prog Key Value Exn Base Unit).Follows protocol (.leading k n) fun φ r =>
      φ = .lost ∨ Left k n φ r := by
  have hpopping (r : Outcome Value Exn Base) (body : Except (Raised Exn Base) Unit)
      (hbody : Left k n (wokenPhase k n r) body) :
      Program.Follows protocol (do
          call (.pop k)
          call (.setEvent n) : Prog Key Value Exn Base Unit) (.popping k n r) fun φ =>
        Program.onOutcome (fun _ => φ = .lost ∨ Left k n φ body)
          fun e => φ = .lost ∨ Left k n φ (.error e) := by
    refine (finally_follows k n r).mono ?_
    rintro φ b (rfl | ⟨rfl, rfl⟩)
    · cases b with
      | error e => exact .inl rfl
      | ok _ => exact .inl rfl
    · exact .inr hbody
  have hlost (body : Except (Raised Exn Base) Unit) :
      Program.Follows protocol (do
          call (.pop k)
          call (.setEvent n) : Prog Key Value Exn Base Unit) .lost fun φ =>
        Program.onOutcome (fun _ => φ = .lost ∨ Left k n φ body)
          fun e => φ = .lost ∨ Left k n φ (.error e) := by
    refine (follows_lost _).mono ?_
    rintro φ b rfl
    cases b with
    | error e => exact .inl rfl
    | ok _ => exact .inl rfl
  rw [lead, Program.follows_tryFinally, Program.follows_bind, Program.follows_attempt]
  refine ⟨⟨rfl, rfl⟩, fun a => ?_⟩
  rcases a with (e | b) | v
  · refine ⟨⟨rfl, rfl⟩, fun stored => ?_⟩
    cases stored with
    | error e' => exact hlost _
    | ok _ => exact hpopping (.error (.exception e)) (.ok ()) ⟨_, rfl⟩
  · exact hpopping (.error (.control b)) (.error (.control b)) rfl
  · refine ⟨⟨rfl, rfl⟩, fun stored => ?_⟩
    cases stored with
    | error e' => exact hlost _
    | ok _ => exact hpopping (.ok v) (.ok ()) ⟨_, rfl⟩

private theorem singleFlight_follows (k : Key) :
    (singleFlight k : Prog Key Value Exn Base Value).Follows protocol .fresh
      fun φ r => Ends k φ r := by
  unfold singleFlight
  rw [Program.follows_bind]
  refine ⟨trivial, fun a => ?_⟩
  rcases a with e | n | n
  · exact .inl rfl
  · rw [Program.follows_done, Program.onOutcome_ok, Program.follows_bind]
    refine (lead_follows k n).mono fun φ r h => ?_
    cases r with
    | error e => exact h.imp_right fun hφ => ⟨none, hφ⟩
    | ok _ =>
      obtain rfl | ⟨own, rfl⟩ := h
      · exact follows_lost_ends _
      · exact readSlot_follows k n own
  · rw [Program.follows_done, Program.onOutcome_ok, Program.follows_bind]
    refine ⟨rfl, fun b => ?_⟩
    rcases b with e | _ | _
    · exact .inl rfl
    · exact resolver_follows k
    · exact readSlot_follows k n none

private theorem serve_follows (k : Key) :
    (serve k : Prog Key Value Exn Base Unit).Follows protocol protocol.init
      fun φ _ => protocol.mayStop φ := by
  unfold serve
  rw [Program.follows_bind, Program.follows_attempt]
  refine (singleFlight_follows k).mono fun φ r h => ?_
  obtain rfl | ⟨slot, rfl⟩ := h
  · exact (follows_lost _).mono fun φ _ hφ => .inr (.inr hφ)
  · refine ⟨⟨rfl, rfl⟩, fun a => ?_⟩
    cases a with
    | error e => exact .inr (.inr rfl)
    | ok _ => exact .inr (.inl rfl)

/-! ### Callers -/

/-- A caller makes one call after another, with any keys. -/
def Starts (_ : Pid) (prog : Prog Key Value Exn Base Unit) : Prop := ∃ k, prog = serve k

theorem allFollow : AllFollow protocol
    (Starts : Pid → Prog Key Value Exn Base Unit → Prop) := by
  rintro p prog ⟨k, rfl⟩
  exact serve_follows k

section Steps

variable [DecidableEq Key]

/-- What a step does to the slots, with its answer. -/
def Req.Acts (s : Flights Key Value Exn) :
    (op : Req Key Value Exn Base) → op.Ans → Flights Key Value Exn → Prop
  | join k, a, s' =>
    match s.inflight k with
    | some n => a = .follower n ∧ s' = s
    | none => a = .leader s.created ∧ s' = { s with
        inflight := Function.update s.inflight k (some s.created)
        slot := Function.update s.slot s.created ⟨false, none, none⟩
        created := s.created + 1 }
  | storeResult n v, _, s' => s' = { s with
      slot := Function.update s.slot n { s.slot n with result := some v } }
  | storeExc n e, _, s' => s' = { s with
      slot := Function.update s.slot n { s.slot n with exc := some e } }
  | pop k, _, s' => s' = { s with inflight := Function.update s.inflight k none }
  | setEvent n, _, s' => s' = { s with
      slot := Function.update s.slot n { s.slot n with event := true } }
  -- A wait can time out at any time, also when the event is about to be set.
  | wait n, a, s' => s' = s ∧ (a = true → (s.slot n).event = true)
  | readExc n, a, s' => s' = s ∧ a = (s.slot n).exc
  | readResult n, a, s' => s' = s ∧ a = (s.slot n).result
  | resolver _ _, _, s' | finish _ _, _, s' => s' = s

/-- Only a resolver raises. -/
def Req.Raises : Req Key Value Exn Base → Prop
  | resolver _ _ => True
  | _ => False

/-- Callers over the slots of one process. -/
def machine : Machine Pid (Req Key Value Exn Base) Req.Ans (Raised Exn Base)
    (Flights Key Value Exn) where
  exec _ op s r s' := match r with
    | .ok a => op.Acts s a s'
    | .error _ => op.Raises ∧ s' = s
  inner _ _ _ _ := False
  env _ _ := False
  kill _ _ _ := False

/-- Nothing is in flight. -/
def Flights.none : Flights Key Value Exn := ⟨fun _ => .none, fun _ => ⟨false, .none, .none⟩, 0⟩

/-- The meaning of the steps. -/
abbrev exec (q : Pid) (op : Req Key Value Exn Base) (s : Flights Key Value Exn)
    (r : Except (Raised Exn Base) op.Ans) (s' : Flights Key Value Exn) : Prop :=
  (machine : Machine Pid (Req Key Value Exn Base) Req.Ans (Raised Exn Base)
    (Flights Key Value Exn)).exec q op s r s'

/-- Nothing but a resolver keeps a caller waiting. -/
theorem exec_ready (q : Pid) (s : Flights Key Value Exn) (op : Req Key Value Exn Base) :
    (∃ k slot, op = .resolver k slot) ∨ ∃ a s', exec q op s (.ok a) s' := by
  cases op with
  | join k =>
    cases hin : s.inflight k with
    | some n =>
      refine .inr ⟨.follower n, s, ?_⟩
      simp only [exec, machine, Req.Acts, hin, true_and]
    | none =>
      refine .inr ⟨.leader s.created, { s with
        inflight := Function.update s.inflight k (some s.created)
        slot := Function.update s.slot s.created ⟨false, none, none⟩
        created := s.created + 1 }, ?_⟩
      simp only [exec, machine, Req.Acts, hin, true_and]
  | resolver k slot => exact .inl ⟨k, slot, rfl⟩
  | storeResult n v | storeExc n e | pop k | setEvent n | finish k r =>
    exact .inr ⟨(), _, rfl⟩
  | wait n => exact .inr ⟨false, s, rfl, nofun⟩
  | readExc n => exact .inr ⟨_, s, rfl, rfl⟩
  | readResult n => exact .inr ⟨_, s, rfl, rfl⟩

/-! ### One step -/

/-- A step writes into a slot. -/
def Req.Touches (n : Nat) : Req Key Value Exn Base → Prop
  | storeResult m _ | storeExc m _ | setEvent m => m = n
  | _ => False

/-- The slot that a caller has become the leader of. -/
def ledNow : (op : Req Key Value Exn Base) → Except (Raised Exn Base) op.Ans → Option (Key × Nat)
  | .join k, .ok (.leader n) => some (k, n)
  | _, _ => none

/-- What a step can do to the slots. -/
inductive Change (s : Flights Key Value Exn) : (op : Req Key Value Exn Base) →
    Except (Raised Exn Base) op.Ans → Flights Key Value Exn → Prop
  | still {op : Req Key Value Exn Base} {r : Except (Raised Exn Base) op.Ans} :
      ledNow op r = none → Change s op r s
  | made {k : Key} : s.inflight k = none → Change s (.join k) (.ok (.leader s.created))
      { s with
        inflight := Function.update s.inflight k (some s.created)
        slot := Function.update s.slot s.created ⟨false, none, none⟩
        created := s.created + 1 }
  | touched {op : Req Key Value Exn Base} {r : Except (Raised Exn Base) op.Ans} {n : Nat}
      (slot : Slot Value Exn) : op.Touches n → Change s op r
        { s with slot := Function.update s.slot n slot }
  | popped {k : Key} {r : Except (Raised Exn Base) (Req.Ans (.pop k : Req Key Value Exn Base))} :
      Change s (.pop k) r { s with inflight := Function.update s.inflight k none }

variable {s s' : Flights Key Value Exn} {p q : Pid} {k k' : Key} {n : Nat}
  {op : Req Key Value Exn Base} {r : Except (Raised Exn Base) op.Ans}

theorem change_of_exec (h : exec q op s r s') : Change s op r s' := by
  cases r with
  | error e =>
    obtain ⟨hraises, rfl⟩ := h
    cases op with
    | resolver k slot => exact .still rfl
    | _ => exact hraises.elim
  | ok a =>
    have hacts : op.Acts s a s' := h
    cases op with
    | join k =>
      simp only [Req.Acts] at hacts
      split at hacts
      · obtain ⟨rfl, rfl⟩ := hacts
        exact .still rfl
      · obtain ⟨rfl, rfl⟩ := hacts
        exact .made ‹_›
    | storeResult n v =>
      obtain rfl := hacts
      exact .touched _ rfl
    | storeExc n e =>
      obtain rfl := hacts
      exact .touched _ rfl
    | pop k =>
      obtain rfl := hacts
      exact .popped
    | setEvent n =>
      obtain rfl := hacts
      exact .touched _ rfl
    | wait n =>
      obtain ⟨rfl, -⟩ := hacts
      exact .still rfl
    | readExc n =>
      obtain ⟨rfl, -⟩ := hacts
      exact .still rfl
    | readResult n =>
      obtain ⟨rfl, -⟩ := hacts
      exact .still rfl
    | resolver k slot =>
      obtain rfl := hacts
      exact .still rfl
    | finish k r =>
      obtain rfl := hacts
      exact .still rfl

theorem Change.created_le (h : Change s op r s') : s.created ≤ s'.created := by
  cases h with
  | made _ => exact Nat.le_succ _
  | _ => exact Nat.le_refl _

/-- A slot changes only where the step writes. -/
theorem Change.slot_eq (h : Change s op r s') (hn : n < s.created) (htouch : ¬op.Touches n) :
    s'.slot n = s.slot n := by
  cases h with
  | still _ => rfl
  | made _ => exact Function.update_of_ne (Nat.ne_of_lt hn) _ _
  | touched slot hm =>
    refine Function.update_of_ne ?_ _ _
    rintro rfl
    exact htouch hm
  | popped => rfl

/-- A slot stays in flight until it is popped. -/
theorem Change.inflight_eq (h : Change s op r s') (hin : s.inflight k = some n)
    (hpop : op ≠ .pop k) : s'.inflight k = some n := by
  cases h with
  | still _ => exact hin
  | @made k₁ hnone =>
    refine (Function.update_of_ne ?_ _ _).trans hin
    rintro rfl
    rw [hnone] at hin
    cases hin
  | touched _ _ => exact hin
  | @popped k₁ =>
    refine (Function.update_of_ne ?_ _ _).trans hin
    rintro rfl
    exact hpop rfl

/-- What is in flight was so, or has just been made. -/
theorem Change.inflight_cases (h : Change s op r s') (hin : s'.inflight k = some n) :
    s.inflight k = some n ∨ ledNow op r = some (k, n) ∧ n = s.created := by
  cases h with
  | still _ => exact .inl hin
  | @made k₁ hnone =>
    by_cases hk : k = k₁
    · subst hk
      simp only [Function.update_self, Option.some.injEq] at hin
      subst hin
      exact .inr ⟨rfl, rfl⟩
    · simp only [Function.update_of_ne hk] at hin
      exact .inl hin
  | touched _ _ => exact .inl hin
  | @popped k₁ =>
    by_cases hk : k = k₁
    · subst hk
      simp only [Function.update_self] at hin
      cases hin
    · simp only [Function.update_of_ne hk] at hin
      exact .inl hin

/-- A leader's slot is new, and in flight. -/
theorem Change.ledNow (h : Change s op r s') (hled : ledNow op r = some (k, n)) :
    n = s.created ∧ s'.created = s.created + 1 ∧ s'.inflight k = some n := by
  cases h with
  | still hnone =>
    rw [hnone] at hled
    cases hled
  | made _ =>
    cases hled
    exact ⟨rfl, rfl, Function.update_self _ _ _⟩
  | touched _ htouch =>
    cases op with
    | storeResult m v | storeExc m e | setEvent m => cases hled
    | _ => exact htouch.elim
  | popped => cases hled

/-- Nothing else makes a slot. -/
theorem Change.created_eq (h : Change s op r s') (hled : SingleFlight.ledNow op r = none) :
    s'.created = s.created := by
  cases h with
  | made _ => cases hled
  | _ => rfl

end Steps

end MtShards.SingleFlight
