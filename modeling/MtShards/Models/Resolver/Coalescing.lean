import MtShards.Models.Resolver.SingleFlight

/-!
# Coalescing is safe

What holds in every interleaving of any number of callers: a slot has one leader, who alone takes it
away, and its event is set once what the leader came to is in it, for good. A caller that reads a
slot then ends with an outcome that the leader under the same key had come to before the caller
stopped waiting.
-/

namespace MtShards.SingleFlight

open MtShards.Core

variable {Pid Key Value Exn Base : Type}

/-! ### What a run shows -/

/-- A step of a run. -/
abbrev Event (Pid Key Value Exn Base : Type) :=
  Entry Pid (Req Key Value Exn Base) Req.Ans (Raised Exn Base) (Flights Key Value Exn)

/-- Where a run stands. -/
abbrev Stand (Pid Key Value Exn Base : Type) :=
  Config Pid (Req Key Value Exn Base) Req.Ans (Raised Exn Base) (Flights Key Value Exn)

/-- A run of any number of callers. -/
abbrev SysRun [DecidableEq Pid] [DecidableEq Key] (t : List (Event Pid Key Value Exn Base))
    (c : Stand Pid Key Value Exn Base) : Prop :=
  Run machine Starts (.idle .none) t c

/-- A step takes a slot away. -/
def Removes (e : Event Pid Key Value Exn Base) (n : Nat) : Prop :=
  ∃ k, e.pre.inflight k = some n ∧ e.post.inflight k ≠ some n

/-- A caller has become the leader of a slot. -/
def LedBy (t : List (Event Pid Key Value Exn Base)) (p : Pid) (k : Key) (n : Nat) : Prop :=
  ∃ s s', (⟨.answer p (.join k) (.ok (.leader n)), s, s'⟩ : Event Pid Key Value Exn Base) ∈ t

/-- The resolver of a leader has ended so. -/
def Ran (t : List (Event Pid Key Value Exn Base)) (p : Pid) (k : Key) (n : Nat)
    (r : Outcome Value Exn Base) : Prop :=
  ∃ s s', (⟨.answer p (.resolver k (some n)) r, s, s'⟩ : Event Pid Key Value Exn Base) ∈ t

/-- In its present call, a caller has seen the event of a slot, whose leader had come to an outcome
by then. -/
def Awaited (t : List (Event Pid Key Value Exn Base)) (p : Pid) (k : Key) (n : Nat)
    (r : Outcome Value Exn Base) : Prop :=
  ∃ later before s s', t = later ++ ⟨.answer p (.wait n) (.ok true), s, s'⟩ :: before ∧
    (∀ e ∈ later, e.label ≠ .start p) ∧ ∃ q, LedBy before q k n ∧ Ran before q k n r

/-- The requests of a call, newest first. -/
abbrev Log (Key Value Exn Base : Type) :=
  List (Taken (Req Key Value Exn Base) Req.Ans (Raised Exn Base) (Flights Key Value Exn))

/-- The call has taken this step, with this answer. -/
def Did (l : Log Key Value Exn Base) (op : Req Key Value Exn Base)
    (r : Except (Raised Exn Base) op.Ans) : Prop :=
  ∃ s s', ⟨op, r, s, s'⟩ ∈ l

/-- A run of the caller's resolver. -/
def runOf : Taken (Req Key Value Exn Base) Req.Ans (Raised Exn Base) (Flights Key Value Exn) →
    Option (Outcome Value Exn Base)
  | ⟨.resolver _ _, r, _, _⟩ => some r
  | _ => none

/-- How the caller's resolver has ended, as often as the call ran it. -/
def runs (l : Log Key Value Exn Base) : List (Outcome Value Exn Base) := l.filterMap runOf

/-- An outcome that a leader shares. -/
def Shares (r : Outcome Value Exn Base) : Prop := ∀ b, r ≠ .error (.control b)

/-- A slot with what its leader leaves there. -/
def filled (event : Bool) : Outcome Value Exn Base → Slot Value Exn
  | .ok v => ⟨event, some v, none⟩
  | .error (.exception e) => ⟨event, none, some e⟩
  | .error (.control _) => ⟨event, none, none⟩

/-- The caller leads a slot that is in flight. -/
def Phase.Holds (k : Key) (n : Nat) : Phase Key Value Exn Base → Prop
  | leading k' n' | storing k' n' _ | popping k' n' _ => k' = k ∧ n' = n
  | _ => False

/-- The caller leads a slot whose event it has not set. -/
def Phase.Leads (k : Key) (n : Nat) : Phase Key Value Exn Base → Prop
  | leading k' n' | storing k' n' _ | popping k' n' _ | setting k' n' _ => k' = k ∧ n' = n
  | _ => False

/-- What the slots and the run say about a call. -/
def OnState (t : List (Event Pid Key Value Exn Base)) (p : Pid) (s : Flights Key Value Exn) :
    Phase Key Value Exn Base → Prop
  | .leading k n => s.inflight k = some n ∧ s.slot n = ⟨false, none, none⟩
  | .storing k n r => s.inflight k = some n ∧ s.slot n = ⟨false, none, none⟩ ∧ Ran t p k n r
  | .popping k n r => s.inflight k = some n ∧ s.slot n = filled false r ∧ Ran t p k n r
  | .setting k n r => s.slot n = filled false r ∧ Ran t p k n r
  | .following k n => ∃ q, LedBy t q k n
  | .reading _ n (some r) => s.slot n = filled true r ∧ Shares r
  | .reading k n none => ∃ r, s.slot n = filled true r ∧ Awaited t p k n r
  | .readingResult _ n (some r) => s.slot n = filled true r ∧ Shares r ∧ (s.slot n).exc = none
  | .readingResult k n none =>
    ∃ r, s.slot n = filled true r ∧ Awaited t p k n r ∧ (s.slot n).exc = none
  | .ended k r (some n) => Awaited t p k n r ∧ Shares r
  | .lost => False
  | _ => True

/-- What a call's own steps say about it. -/
def OnLog (l : Log Key Value Exn Base) : Phase Key Value Exn Base → Prop
  | .leading k n => runs l = [] ∧ Did l (.join k) (.ok (.leader n))
  | .storing k n r | .popping k n r | .setting k n r =>
    runs l = [r] ∧ Did l (.join k) (.ok (.leader n))
  | .reading _ _ (some r) | .readingResult _ _ (some r) | .ended _ r none => runs l = [r]
  | .following k n | .reading k n none | .readingResult k n none | .ended k _ (some n) =>
    runs l = [] ∧ Did l (.join k) (.ok (.follower n))
  | .fresh | .resolving _ => runs l = []
  | .closed | .lost => True

/-- How many steps a call has taken at most. -/
def Phase.steps : Phase Key Value Exn Base → Nat
  | fresh | lost => 0
  | leading _ _ | following _ _ => 1
  | storing _ _ _ => 2
  | popping _ _ _ => 3
  | setting _ _ _ => 4
  | reading _ _ _ => 5
  | readingResult _ _ _ => 6
  | resolving _ => 7
  | ended _ _ _ => 8
  | closed => 9

/-- What holds along every run. -/
structure Inv [DecidableEq Pid] (t : List (Event Pid Key Value Exn Base))
    (s : Flights Key Value Exn) : Prop where
  phase : ∀ p, OnState t p s (phaseAt protocol p t)
  log : ∀ p, OnLog (takenBy p t) (phaseAt protocol p t)
  steps : ∀ p, (takenBy p t).length ≤ (phaseAt protocol p t).steps
  led : ∀ p k n, LedBy t p k n → n < s.created
  /-- A slot has one leader, under one key. -/
  once : ∀ p q k k' n, LedBy t p k n → LedBy t q k' n → p = q ∧ k = k'
  /-- A slot in flight has its leader. -/
  holder : ∀ k n, s.inflight k = some n → ∃ p, (phaseAt protocol p t).Holds k n
  kept : ∀ n, n < s.created → (∃ k, s.inflight k = some n) ∨ ∃ e ∈ t, Removes e n
  gone : ∀ e ∈ t, ∀ n, Removes e n → n < s.created ∧ ∀ k, s.inflight k ≠ some n
  /-- An event is set once its leader's outcome is in the slot. -/
  event : ∀ n, (s.slot n).event = true →
    ∃ q k r, LedBy t q k n ∧ Ran t q k n r ∧ s.slot n = filled true r

section Invariant

variable {s s' : Flights Key Value Exn} {p q : Pid} {k k' : Key} {n : Nat}
  {op : Req Key Value Exn Base} {r : Except (Raised Exn Base) op.Ans}
  {t : List (Event Pid Key Value Exn Base)} {e : Event Pid Key Value Exn Base}
  {φ : Phase Key Value Exn Base} {l : Log Key Value Exn Base} {o : Outcome Value Exn Base}

/-- A leader has become one also in a longer run. -/
theorem LedBy.cons (h : LedBy t p k n) : LedBy (e :: t) p k n := by
  obtain ⟨s, s', hmem⟩ := h
  exact ⟨s, s', List.mem_cons_of_mem e hmem⟩

/-- A resolver has ended also in a longer run. -/
theorem Ran.cons (h : Ran t p k n o) : Ran (e :: t) p k n o := by
  obtain ⟨s, s', hmem⟩ := h
  exact ⟨s, s', List.mem_cons_of_mem e hmem⟩

/-- A caller has seen the event as long as it has not started another call. -/
theorem Awaited.cons (h : Awaited t p k n o) (he : e.label ≠ .start p) :
    Awaited (e :: t) p k n o := by
  obtain ⟨later, before, s, s', rfl, hlater, hrest⟩ := h
  exact ⟨e :: later, before, s, s', rfl, List.forall_mem_cons.mpr ⟨he, hlater⟩, hrest⟩

/-- A leader has become one before, or by the last answer. -/
theorem LedBy.of_cons (h : LedBy (⟨.answer q op r, s, s'⟩ :: t) p k n) :
    LedBy t p k n ∨ q = p ∧ ledNow op r = some (k, n) := by
  obtain ⟨s₁, s₂, hmem⟩ := h
  obtain heq | hmem := List.mem_cons.mp hmem
  · cases heq
    exact .inr ⟨rfl, rfl⟩
  · exact .inl ⟨s₁, s₂, hmem⟩

/-- A step that a call has taken stays taken. -/
theorem Did.cons {x : Taken (Req Key Value Exn Base) Req.Ans (Raised Exn Base)
    (Flights Key Value Exn)} (h : Did l op r) : Did (x :: l) op r := by
  obtain ⟨s, s', hmem⟩ := h
  exact ⟨s, s', List.mem_cons_of_mem x hmem⟩

/-- A caller whose slot is in flight leads it. -/
theorem Phase.Holds.leads (h : φ.Holds k n) : φ.Leads k n := by
  cases φ with
  | leading k' m | storing k' m o | popping k' m o => exact h
  | _ => exact h.elim

/-- A caller that leads a slot was told so when it joined. -/
theorem OnLog.did_of_leads (h : OnLog l φ) (hφ : φ.Leads k n) :
    Did l (.join k) (.ok (.leader n)) := by
  cases φ with
  | leading k' m | storing k' m o | popping k' m o | setting k' m o =>
    obtain ⟨rfl, rfl⟩ := hφ
    exact h.2
  | _ => exact hφ.elim

/-- The slot that a caller holds is in flight. -/
theorem OnState.inflight (h : OnState t p s φ) (hφ : φ.Holds k n) : s.inflight k = some n := by
  cases φ with
  | leading k' m | storing k' m o | popping k' m o =>
    obtain ⟨rfl, rfl⟩ := hφ
    exact h.1
  | _ => exact hφ.elim

/-- Leaving an outcome in a slot does not touch its event. -/
theorem filled_event (event : Bool) (o : Outcome Value Exn Base) :
    (filled event o).event = event := by
  rcases o with (e | b) | v <;> rfl

/-- A slot that has a leader has its event not set. -/
theorem OnState.event_of_leads (h : OnState t p s φ) (hφ : φ.Leads k n) :
    (s.slot n).event = false := by
  cases φ with
  | leading k' m =>
    obtain ⟨rfl, rfl⟩ := hφ
    rw [h.2]
  | storing k' m o =>
    obtain ⟨rfl, rfl⟩ := hφ
    rw [h.2.1]
  | popping k' m o =>
    obtain ⟨rfl, rfl⟩ := hφ
    rw [h.2.1, filled_event]
  | setting k' m o =>
    obtain ⟨rfl, rfl⟩ := hφ
    rw [h.1, filled_event]
  | _ => exact hφ.elim

/-- What the slots say of a call stays true when its slot, the slots with an event, and the slots in
flight stay. -/
theorem OnState.mono (h : OnState t p s φ) (he : e.label ≠ .start p)
    (hhold : ∀ k n, φ.Holds k n → s.inflight k = some n → s'.inflight k = some n)
    (hlead : ∀ k n, φ.Leads k n → s'.slot n = s.slot n)
    (hset : ∀ n, (s.slot n).event = true → s'.slot n = s.slot n) : OnState (e :: t) p s' φ := by
  have hfilled {n : Nat} {o : Outcome Value Exn Base} (hslot : s.slot n = filled true o) :
      s'.slot n = s.slot n := hset n (by rw [hslot, filled_event])
  cases φ with
  | leading k n =>
    exact ⟨hhold k n ⟨rfl, rfl⟩ h.1, (hlead k n ⟨rfl, rfl⟩).trans h.2⟩
  | storing k n o =>
    exact ⟨hhold k n ⟨rfl, rfl⟩ h.1, (hlead k n ⟨rfl, rfl⟩).trans h.2.1, h.2.2.cons⟩
  | popping k n o =>
    exact ⟨hhold k n ⟨rfl, rfl⟩ h.1, (hlead k n ⟨rfl, rfl⟩).trans h.2.1, h.2.2.cons⟩
  | setting k n o => exact ⟨(hlead k n ⟨rfl, rfl⟩).trans h.1, h.2.cons⟩
  | following k n =>
    obtain ⟨q, hled⟩ := h
    exact ⟨q, hled.cons⟩
  | reading k n own =>
    cases own with
    | some o => exact ⟨(hfilled h.1).trans h.1, h.2⟩
    | none =>
      obtain ⟨o, hslot, hawait⟩ := h
      exact ⟨o, (hfilled hslot).trans hslot, hawait.cons he⟩
  | readingResult k n own =>
    cases own with
    | some o => exact ⟨(hfilled h.1).trans h.1, h.2.1, (hfilled h.1) ▸ h.2.2⟩
    | none =>
      obtain ⟨o, hslot, hawait, hexc⟩ := h
      exact ⟨o, (hfilled hslot).trans hslot, hawait.cons he, (hfilled hslot) ▸ hexc⟩
  | ended k o slot =>
    cases slot with
    | none => trivial
    | some n => exact ⟨h.1.cons he, h.2⟩
  | fresh | resolving k | closed => trivial
  | lost => exact h

/-- What a caller writes into is its own slot. -/
theorem leads_of_touches (hpermit : protocol.permits φ op) (htouch : op.Touches n)
    (hlost : φ ≠ .lost) : ∃ k, φ.Leads k n := by
  cases op with
  | storeResult m v | storeExc m v =>
    obtain rfl := htouch
    cases φ with
    | storing k n o =>
      obtain ⟨rfl, -⟩ := hpermit
      exact ⟨k, rfl, rfl⟩
    | lost => exact absurd rfl hlost
    | _ => exact hpermit.elim
  | setEvent m =>
    obtain rfl := htouch
    cases φ with
    | setting k n o =>
      obtain rfl := hpermit
      exact ⟨k, rfl, rfl⟩
    | lost => exact absurd rfl hlost
    | _ => exact hpermit.elim
  | _ => exact htouch.elim

/-- A call takes at most nine steps. -/
theorem Phase.steps_le (φ : Phase Key Value Exn Base) : φ.steps ≤ 9 := by
  cases φ <;> exact Nat.le_of_ble_eq_true rfl

/-- A call goes forward. -/
theorem steps_next (hpermit : protocol.permits φ op) (hlost : φ ≠ .lost)
    (hnext : protocol.next φ op r ≠ .lost) : φ.steps < (protocol.next φ op r).steps := by
  cases φ with
  | fresh =>
    cases op with
    | join k =>
      rcases r with e | n | n
      · exact absurd rfl hnext
      · exact Nat.lt_succ_self 0
      · exact Nat.lt_succ_self 0
    | _ => exact hpermit.elim
  | leading k n =>
    cases op with
    | resolver k' slot =>
      rcases r with (e | b) | v
      · exact Nat.lt_succ_self 1
      · exact Nat.lt_add_of_pos_right Nat.two_pos
      · exact Nat.lt_succ_self 1
    | _ => exact hpermit.elim
  | storing k n o =>
    cases op with
    | storeResult m v | storeExc m e =>
      cases r with
      | error e => exact absurd rfl hnext
      | ok _ => exact Nat.lt_succ_self 2
    | _ => exact hpermit.elim
  | popping k n o =>
    cases op with
    | pop k' =>
      cases r with
      | error e => exact absurd rfl hnext
      | ok _ => exact Nat.lt_succ_self 3
    | _ => exact hpermit.elim
  | setting k n o =>
    cases op with
    | setEvent m =>
      cases r with
      | error e => exact absurd rfl hnext
      | ok _ =>
        rcases o with (e | b) | v
        · exact Nat.lt_succ_self 4
        · exact Nat.lt_add_of_pos_right (show 0 < 4 by decide)
        · exact Nat.lt_succ_self 4
    | _ => exact hpermit.elim
  | following k n =>
    cases op with
    | wait m =>
      rcases r with e | _ | _
      · exact absurd rfl hnext
      · exact Nat.lt_add_of_pos_right (show 0 < 6 by decide)
      · exact Nat.lt_add_of_pos_right (show 0 < 4 by decide)
    | _ => exact hpermit.elim
  | reading k n own =>
    cases op with
    | readExc m =>
      rcases r with e | _ | e
      · exact absurd rfl hnext
      · exact Nat.lt_succ_self 5
      · exact Nat.lt_add_of_pos_right (show 0 < 3 by decide)
    | _ => exact hpermit.elim
  | readingResult k n own =>
    cases op with
    | readResult m =>
      rcases r with e | _ | v
      · exact absurd rfl hnext
      · exact Nat.lt_succ_self 6
      · exact Nat.lt_add_of_pos_right (show 0 < 2 by decide)
    | _ => exact hpermit.elim
  | resolving k =>
    cases op with
    | resolver k' slot => exact Nat.lt_succ_self 7
    | _ => exact hpermit.elim
  | ended k o slot =>
    cases op with
    | finish k' o' =>
      cases r with
      | error e => exact absurd rfl hnext
      | ok _ => exact Nat.lt_succ_self 8
    | _ => exact hpermit.elim
  | closed => cases op <;> exact hpermit.elim
  | lost => exact absurd rfl hlost

variable [DecidableEq Pid]

/-- A caller that was told that it leads has become the leader. -/
theorem Did.ledBy (h : Did (takenBy p t) (.join k) (.ok (.leader n))) : LedBy t p k n := by
  obtain ⟨s, s', hmem⟩ := h
  exact ⟨s, s', mem_of_mem_takenBy hmem⟩

/-- What a call has logged of its caller. -/
theorem Inv.logged (hI : Inv t s) (hφ : phaseAt protocol q t = φ) : OnLog (takenBy q t) φ :=
  hφ ▸ hI.log q

/-- What the slots say of its caller. -/
theorem Inv.stands (hI : Inv t s) (hφ : phaseAt protocol q t = φ) : OnState t q s φ :=
  hφ ▸ hI.phase q

/-- A caller that leads a slot has become its leader. -/
theorem Inv.ledBy (hI : Inv t s) (h : (phaseAt protocol p t).Leads k n) : LedBy t p k n :=
  ((hI.log p).did_of_leads h).ledBy

/-- Two callers that lead one slot are one. -/
theorem Inv.leads_unique (hI : Inv t s) (hp : (phaseAt protocol p t).Leads k n)
    (hq : (phaseAt protocol q t).Leads k' n) : p = q ∧ k = k' :=
  hI.once p q k k' n (hI.ledBy hp) (hI.ledBy hq)

/-- A slot in flight has been made. -/
theorem Inv.made (hI : Inv t s) (h : s.inflight k = some n) : n < s.created := by
  obtain ⟨p, hp⟩ := hI.holder k n h
  exact hI.led p k n (hI.ledBy hp.leads)

/-- One slot is in flight under one key. -/
theorem Inv.inflight_unique (hI : Inv t s) (h : s.inflight k = some n)
    (h' : s.inflight k' = some n) : k = k' := by
  obtain ⟨p, hp⟩ := hI.holder k n h
  obtain ⟨q, hq⟩ := hI.holder k' n h'
  exact (hI.leads_unique hp.leads hq.leads).2

/-- Two callers that hold a slot under one key are one. -/
theorem Inv.holds_unique (hI : Inv t s) {m : Nat} (hp : (phaseAt protocol p t).Holds k n)
    (hq : (phaseAt protocol q t).Holds k m) : p = q := by
  have hin := ((hI.phase p).inflight hp).symm.trans ((hI.phase q).inflight hq)
  obtain rfl := Option.some.inj hin
  exact (hI.leads_unique hp.leads hq.leads).1

/-- No caller leaves the protocol. -/
theorem Inv.not_lost (hI : Inv t s) (p : Pid) : phaseAt protocol p t ≠ .lost := by
  intro h
  have hphase := hI.phase p
  rw [h] at hphase
  exact hphase

/-- The invariant holds before anything was called. -/
theorem Inv.init : Inv ([] : List (Event Pid Key Value Exn Base)) .none where
  phase _ := trivial
  log _ := rfl
  steps _ := Nat.le_refl 0
  led _ _ _ h := by
    obtain ⟨s, s', hmem⟩ := h
    cases hmem
  once _ _ _ _ _ h := by
    obtain ⟨s, s', hmem⟩ := h
    cases hmem
  holder _ _ h := by cases h
  kept _ h := absurd h (Nat.not_lt_zero _)
  gone _ h := by cases h
  event _ h := by cases h

/-- A caller that makes a call has none. -/
theorem Inv.start (hI : Inv t s) (hstop : protocol.mayStop (phaseAt protocol q t)) :
    Inv (⟨.start q, s, s⟩ :: t) s := by
  have hled {p : Pid} {k : Key} {n : Nat}
      (h : LedBy (⟨.start q, s, s⟩ :: t) p k n) : LedBy t p k n := by
    obtain ⟨s₁, s₂, hmem⟩ := h
    obtain heq | hmem := List.mem_cons.mp hmem
    · cases heq
    · exact ⟨s₁, s₂, hmem⟩
  have hremoves {n : Nat} : ¬Removes (⟨.start q, s, s⟩ : Event Pid Key Value Exn Base) n :=
    fun ⟨_, hin, hout⟩ => hout hin
  constructor
  case phase =>
    refine each_start (C := fun p φ _ => OnState (⟨.start q, s, s⟩ :: t) p s φ) trivial ?_
    intro p hp
    refine (hI.phase p).mono ?_ (fun _ _ _ h => h) (fun _ _ _ => rfl) fun _ _ => rfl
    rintro ⟨⟩
    exact hp rfl
  case log => exact each_start (C := fun _ φ l => OnLog l φ) rfl fun p _ => hI.log p
  case steps =>
    exact each_start (C := fun _ φ l => l.length ≤ Phase.steps φ) (Nat.zero_le _) fun p _ => hI.steps p
  case led => exact fun p k n h => hI.led p k n (hled h)
  case once => exact fun p p' k k' n h h' => hI.once p p' k k' n (hled h) (hled h')
  case holder =>
    intro k n hin
    obtain ⟨p, hp⟩ := hI.holder k n hin
    refine ⟨p, ?_⟩
    rw [phaseAt_start_of_ne ?_]
    · exact hp
    · rintro rfl
      obtain h | h | h := hstop
      all_goals
        rw [h] at hp
        exact hp
  case kept =>
    intro n hn
    obtain hin | ⟨e, he, hgone⟩ := hI.kept n hn
    · exact .inl hin
    · exact .inr ⟨e, List.mem_cons_of_mem _ he, hgone⟩
  case gone =>
    intro e he n hgone
    obtain rfl | he := List.mem_cons.mp he
    · exact absurd hgone hremoves
    · exact hI.gone e he n hgone
  case event =>
    intro n hn
    obtain ⟨p, k, o, hl, hran, hslot⟩ := hI.event n hn
    exact ⟨p, k, o, hl.cons, hran.cons, hslot⟩

/-- Where the outcome of a call comes from. -/
inductive Explained (earlier : List (Event Pid Key Value Exn Base)) (p : Pid) (k : Key)
    (r : Outcome Value Exn Base) : Prop
  /-- From its own resolver, which it ran once. -/
  | own : runs (takenBy p earlier) = [r] → Explained earlier p k r
  /-- From the leader of the slot that it joined, and it ran no resolver. -/
  | joined {n : Nat} : runs (takenBy p earlier) = [] →
      Did (takenBy p earlier) (.join k) (.ok (.follower n)) → Awaited earlier p k n r →
      Shares r → Explained earlier p k r

/-- How a step treats the slots, and what a call ends with. -/
def Orderly (earlier : List (Event Pid Key Value Exn Base)) (e : Event Pid Key Value Exn Base) :
    Prop :=
  (∀ n, Removes e n → (∀ e' ∈ earlier, ¬Removes e' n) ∧ ∃ p k, e.label = .answer p (.pop k) (.ok ())
    ∧ Did (takenBy p earlier) (.join k) (.ok (.leader n))) ∧
  match e with
  | ⟨.answer _ (.join _) (.ok (.leader n)), _, _⟩ => ∀ q k', ¬LedBy earlier q k' n
  | ⟨.answer p (.pop k) _, s, s'⟩ => ∃ n, Did (takenBy p earlier) (.join k) (.ok (.leader n)) ∧
    s.inflight k = some n ∧ s'.inflight k = none
  | ⟨.answer p (.finish k r) _, _, _⟩ => Explained earlier p k r ∧
    ∀ k' n, Did (takenBy p earlier) (.join k') (.ok (.leader n)) → ∃ e' ∈ earlier, Removes e' n
  | _ => True

/-- Once a leader has its outcome, its slot is away. -/
theorem Inv.removed {o : Outcome Value Exn Base} {slot : Option Nat} (hI : Inv t s)
    (hφ : phaseAt protocol q t = .ended k o slot) (hled : LedBy t q k' n) :
    ∃ e ∈ t, Removes e n := by
  obtain ⟨k₁, hin⟩ | hremoved := hI.kept n (hI.led q k' n hled)
  · obtain ⟨p, hp⟩ := hI.holder k₁ n hin
    obtain ⟨rfl, -⟩ := hI.once p q k₁ k' n (hI.ledBy hp.leads) hled
    rw [hφ] at hp
    exact hp.elim
  · exact hremoved

/-- What a call ends with has one of the explanations. -/
theorem Inv.explained {o : Outcome Value Exn Base} {slot : Option Nat} (hI : Inv t s)
    (hφ : phaseAt protocol q t = .ended k o slot) : Explained t q k o := by
  cases slot with
  | none => exact .own (hI.logged hφ)
  | some n =>
    obtain ⟨hruns, hdid⟩ := hI.logged hφ
    obtain ⟨hawait, hshares⟩ := hI.stands hφ
    exact .joined hruns hdid hawait hshares

/-- Two leaders that run a resolver under one key are one. -/
theorem Inv.one_leader (hI : Inv t s) {m : Nat}
    (hp : protocol.permits (phaseAt protocol p t) (.resolver k (some n)))
    (hq : protocol.permits (phaseAt protocol q t) (.resolver k (some m))) : p = q := by
  have hholds {p : Pid} {n : Nat}
      (h : protocol.permits (phaseAt protocol p t) (.resolver k (some n))) :
      (phaseAt protocol p t).Holds k n := by
    generalize hφ : phaseAt protocol p t = φ at h
    cases φ with
    | leading k' n' =>
      obtain ⟨rfl, hn⟩ := h
      exact ⟨rfl, (Option.some.inj hn).symm⟩
    | resolving k' => cases h.2
    | lost => exact absurd hφ (hI.not_lost p)
    | _ => exact h.elim
  exact hI.holds_unique (hholds hp) (hholds hq)

variable [DecidableEq Key]

/-- A slot whose event is set does not change. -/
theorem Inv.slot_of_event (hI : Inv t s) (hc : Change s op r s')
    (hpermit : protocol.permits (phaseAt protocol q t) op) (hevent : (s.slot n).event = true) :
    s'.slot n = s.slot n := by
  obtain ⟨p, k, o, hled, -⟩ := hI.event n hevent
  refine hc.slot_eq (hI.led p k n hled) fun htouch => ?_
  obtain ⟨k', hleads⟩ := leads_of_touches hpermit htouch (hI.not_lost q)
  rw [(hI.phase q).event_of_leads hleads] at hevent
  cases hevent

/-- A step leaves what the slots say of the other callers. -/
theorem Inv.others (hI : Inv t s) (hc : Change s op r s')
    (hpermit : protocol.permits (phaseAt protocol q t) op) (hp : p ≠ q) :
    OnState (⟨.answer q op r, s, s'⟩ :: t) p s' (phaseAt protocol p t) := by
  refine (hI.phase p).mono nofun ?_ ?_ fun n => hI.slot_of_event hc hpermit
  · intro k n hholds hin
    refine hc.inflight_eq hin ?_
    rintro rfl
    generalize hφ : phaseAt protocol q t = φ at hpermit
    cases φ with
    | popping k' m o =>
      obtain rfl := hpermit
      refine hp (hI.holds_unique hholds (m := m) ?_)
      rw [hφ]
      exact ⟨rfl, rfl⟩
    | lost => exact hI.not_lost q hφ
    | _ => exact hpermit.elim
  · intro k n hleads
    refine hc.slot_eq (hI.led p k n (hI.ledBy hleads)) fun htouch => ?_
    obtain ⟨k', hleads'⟩ := leads_of_touches hpermit htouch (hI.not_lost q)
    exact hp (hI.leads_unique hleads hleads').1

/-- The invariant after a step, from what the step does to its caller and to the events. -/
theorem Inv.next (hI : Inv t s) (hφ : phaseAt protocol q t = φ) (hc : Change s op r s')
    (hpermit : protocol.permits φ op)
    (hphase : OnState (⟨.answer q op r, s, s'⟩ :: t) q s' (protocol.next φ op r))
    (hlog : OnLog (⟨op, r, s, s'⟩ :: takenBy q t) (protocol.next φ op r))
    (hhold : ∀ k n, s'.inflight k = some n → φ.Holds k n ∨ ledNow op r = some (k, n) →
      (protocol.next φ op r).Holds k n)
    (hevent : ∀ n, (s'.slot n).event = true → (s.slot n).event = true ∨
      ∃ q k o, LedBy t q k n ∧ Ran t q k n o ∧ s'.slot n = filled true o) :
    Inv (⟨.answer q op r, s, s'⟩ :: t) s' := by
  subst hφ
  have hold {n : Nat} (hn : n < s.created) : (∃ k, s'.inflight k = some n) ∨
      ∃ e ∈ ⟨.answer q op r, s, s'⟩ :: t, Removes e n := by
    obtain ⟨k, hin⟩ | ⟨e, he, hremoves⟩ := hI.kept n hn
    · by_cases hin' : s'.inflight k = some n
      · exact .inl ⟨k, hin'⟩
      · exact .inr ⟨_, List.mem_cons_self, k, hin, hin'⟩
    · exact .inr ⟨e, List.mem_cons_of_mem _ he, hremoves⟩
  constructor
  case phase =>
    exact each_answer (C := fun p φ _ => OnState (⟨.answer q op r, s, s'⟩ :: t) p s' φ) hphase
      fun p hp => hI.others hc hpermit (Ne.symm hp)
  case log => exact each_answer (C := fun _ φ l => OnLog l φ) hlog fun p _ => hI.log p
  case steps =>
    refine each_answer (C := fun _ φ l => l.length ≤ Phase.steps φ) ?_ fun p _ => hI.steps p
    have hnext : protocol.next (phaseAt protocol q t) op r ≠ .lost := by
      intro hlost
      rw [hlost] at hphase
      exact hphase
    exact Nat.lt_of_le_of_lt (hI.steps q) (steps_next hpermit (hI.not_lost q) hnext)
  case led =>
    intro p k n h
    obtain h | ⟨-, hnow⟩ := h.of_cons
    · exact Nat.lt_of_lt_of_le (hI.led p k n h) hc.created_le
    · obtain ⟨rfl, hcreated, -⟩ := hc.ledNow hnow
      rw [hcreated]
      exact Nat.lt_succ_self _
  case once =>
    intro p p' k k' n h h'
    have hnew {p : Pid} {k : Key} (hled : LedBy t p k n) (hnow : n = s.created) : False :=
      absurd (hI.led p k n hled) (by rw [hnow]; exact Nat.lt_irrefl _)
    obtain h | ⟨rfl, hnow⟩ := h.of_cons
    · obtain h' | ⟨-, hnow'⟩ := h'.of_cons
      · exact hI.once p p' k k' n h h'
      · exact (hnew h (hc.ledNow hnow').1).elim
    · obtain h' | ⟨rfl, hnow'⟩ := h'.of_cons
      · exact (hnew h' (hc.ledNow hnow).1).elim
      · rw [hnow] at hnow'
        exact ⟨rfl, (Prod.mk.inj (Option.some.inj hnow')).1⟩
  case holder =>
    intro k n hin
    obtain hthere | ⟨hnow, -⟩ := hc.inflight_cases hin
    · obtain ⟨p, hp⟩ := hI.holder k n hthere
      by_cases hpq : p = q
      · subst hpq
        refine ⟨p, ?_⟩
        rw [phaseAt_answer_self]
        exact hhold k n hin (.inl hp)
      · refine ⟨p, ?_⟩
        rw [phaseAt_answer_of_ne (Ne.symm hpq)]
        exact hp
    · refine ⟨q, ?_⟩
      rw [phaseAt_answer_self]
      exact hhold k n hin (.inr hnow)
  case kept =>
    intro n hn
    cases hnow : ledNow op r with
    | none =>
      rw [hc.created_eq hnow] at hn
      exact hold hn
    | some kn =>
      obtain ⟨hnew, hcreated, hin⟩ := hc.ledNow (k := kn.1) (n := kn.2) hnow
      rw [hcreated] at hn
      obtain hlt | heq := Nat.lt_succ_iff_lt_or_eq.mp hn
      · exact hold hlt
      · rw [hnew, ← heq] at hin
        exact .inl ⟨kn.1, hin⟩
  case gone =>
    intro e he n hremoves
    have hstays (hn : n < s.created)
        (hout : ∀ k, s'.inflight k = some n → s.inflight k ≠ some n) :
        n < s'.created ∧ ∀ k, s'.inflight k ≠ some n := by
      refine ⟨Nat.lt_of_lt_of_le hn hc.created_le, fun k hin => ?_⟩
      obtain hthere | ⟨-, rfl⟩ := hc.inflight_cases hin
      · exact hout k hin hthere
      · exact Nat.lt_irrefl _ hn
    obtain rfl | he := List.mem_cons.mp he
    · obtain ⟨k, hin, hout⟩ := hremoves
      refine hstays (hI.made hin) fun k' hin' hthere => hout ?_
      rwa [hI.inflight_unique hin hthere]
    · obtain ⟨hn, hout⟩ := hI.gone e he n hremoves
      exact hstays hn fun k _ => hout k
  case event =>
    intro n hn
    obtain hset | ⟨p, k, o, hled, hran, hslot⟩ := hevent n hn
    · obtain ⟨p, k, o, hled, hran, hslot⟩ := hI.event n hset
      exact ⟨p, k, o, hled.cons, hran.cons, (hI.slot_of_event hc hpermit hset).trans hslot⟩
    · exact ⟨p, k, o, hled.cons, hran.cons, hslot⟩

/-- The same, after a step that leaves the slots as they are. -/
theorem Inv.still (hI : Inv t s) (hφ : phaseAt protocol q t = φ) (hled : ledNow op r = none)
    (hpermit : protocol.permits φ op)
    (hphase : OnState (⟨.answer q op r, s, s⟩ :: t) q s (protocol.next φ op r))
    (hlog : OnLog (⟨op, r, s, s⟩ :: takenBy q t) (protocol.next φ op r))
    (hhold : ∀ k n, φ.Holds k n → (protocol.next φ op r).Holds k n) :
    Inv (⟨.answer q op r, s, s⟩ :: t) s := by
  refine hI.next hφ (.still hled) hpermit hphase hlog (fun k n _ h => ?_) fun n h => .inl h
  obtain h | hnow := h
  · exact hhold k n h
  · rw [hled] at hnow
    cases hnow

/-- The same, after a step of a leader that writes into its slot. -/
theorem Inv.writes {slot : Slot Value Exn} (hI : Inv t s) (hφ : phaseAt protocol q t = φ)
    (htouch : op.Touches n) (hpermit : protocol.permits φ op)
    (hphase : OnState (⟨.answer q op r, s, { s with slot := Function.update s.slot n slot }⟩ :: t) q
      { s with slot := Function.update s.slot n slot } (protocol.next φ op r))
    (hlog : OnLog (⟨op, r, s, { s with slot := Function.update s.slot n slot }⟩ :: takenBy q t)
      (protocol.next φ op r))
    (hhold : ∀ k n, φ.Holds k n → (protocol.next φ op r).Holds k n)
    (hevent : slot.event = true →
      ∃ q k o, LedBy t q k n ∧ Ran t q k n o ∧ slot = filled true o) :
    Inv (⟨.answer q op r, s, { s with slot := Function.update s.slot n slot }⟩ :: t)
      { s with slot := Function.update s.slot n slot } := by
  refine hI.next hφ (.touched slot htouch) hpermit hphase hlog (fun k n _ h => ?_) fun m hm => ?_
  · obtain h | hnow := h
    · exact hhold k n h
    · cases op with
      | storeResult m v | storeExc m e | setEvent m => cases hnow
      | _ => exact htouch.elim
  · by_cases hmn : m = n
    · subst hmn
      simp only [Function.update_self] at hm ⊢
      exact .inr (hevent hm)
    · simp only [Function.update_of_ne hmn] at hm
      exact .inl hm

/-! ### The steps of a call -/

/-- Joining keeps the invariant, as a leader or as a follower. -/
theorem Inv.join {r : Except (Raised Exn Base) Joined} (hI : Inv t s)
    (hφ : phaseAt protocol q t = .fresh) (h : exec q (.join k : Req Key Value Exn Base) s r s') :
    Inv (⟨.answer q (.join k) r, s, s'⟩ :: t) s' := by
  have hruns := hI.logged hφ
  cases r with
  | error e => exact h.1.elim
  | ok a =>
    cases hin : s.inflight k with
    | some n =>
      obtain ⟨rfl, rfl⟩ : a = .follower n ∧ s' = s := by
        simpa only [exec, machine, Req.Acts, hin] using h
      obtain ⟨p, hp⟩ := hI.holder k n hin
      exact hI.still hφ rfl trivial ⟨p, (hI.ledBy hp.leads).cons⟩
        ⟨hruns, _, _, List.mem_cons_self⟩ (fun _ _ h => by cases h)
    | none =>
      have hacts : a = .leader s.created ∧ s' = { s with
          inflight := Function.update s.inflight k (some s.created)
          slot := Function.update s.slot s.created ⟨false, none, none⟩
          created := s.created + 1 } := by
        simpa only [exec, machine, Req.Acts, hin] using h
      obtain ⟨rfl, rfl⟩ := hacts
      refine hI.next hφ (.made hin) trivial ⟨Function.update_self _ _ _, Function.update_self _ _ _⟩
        ⟨hruns, _, _, List.mem_cons_self⟩ (fun k' n _ hnow => ?_) fun n hn => ?_
      · obtain hnow | hnow := hnow
        · exact hnow.elim
        · cases hnow
          exact ⟨rfl, rfl⟩
      · by_cases hnew : n = s.created
        · simp only [hnew, Function.update_self] at hn
          cases hn
        · simp only [Function.update_of_ne hnew] at hn
          exact .inl hn

/-- A run of a leader's resolver keeps the invariant. -/
theorem Inv.resolve (hI : Inv t s) (hφ : phaseAt protocol q t = .leading k n)
    (o : Outcome Value Exn Base) :
    Inv (⟨.answer q (.resolver k (some n)) o, s, s⟩ :: t) s := by
  obtain ⟨hin, hslot⟩ := hI.stands hφ
  obtain ⟨hruns, hdid⟩ := hI.logged hφ
  have hran : Ran (⟨.answer q (.resolver k (some n)) o, s, s⟩ :: t) q k n o :=
    ⟨s, s, List.mem_cons_self⟩
  have hlog : runs (⟨.resolver k (some n), o, s, s⟩ :: takenBy q t) = [o] :=
    congrArg (o :: ·) hruns
  rcases o with (e | b) | v
  · exact hI.still hφ rfl ⟨rfl, rfl⟩ ⟨hin, hslot, hran⟩ ⟨hlog, hdid.cons⟩ fun _ _ h => h
  · exact hI.still hφ rfl ⟨rfl, rfl⟩ ⟨hin, hslot, hran⟩ ⟨hlog, hdid.cons⟩ fun _ _ h => h
  · exact hI.still hφ rfl ⟨rfl, rfl⟩ ⟨hin, hslot, hran⟩ ⟨hlog, hdid.cons⟩ fun _ _ h => h

/-- A leader that writes to its slot keeps the invariant. -/
theorem Inv.stores {o : Outcome Value Exn Base} (hI : Inv t s)
    (hφ : phaseAt protocol q t = .storing k n o) (op : Req Key Value Exn Base)
    (r : Except (Raised Exn Base) op.Ans) (htouch : op.Touches n)
    (hpermit : protocol.permits (.storing k n o) op)
    (hnext : protocol.next (.storing k n o) op r = .popping k n o) {slot : Slot Value Exn}
    (hslot : slot = filled false o) :
    Inv (⟨.answer q op r, s, { s with slot := Function.update s.slot n slot }⟩ :: t)
      { s with slot := Function.update s.slot n slot } := by
  obtain ⟨hin, -, hran⟩ := hI.stands hφ
  obtain ⟨hruns, hdid⟩ := hI.logged hφ
  refine hI.writes hφ htouch hpermit ?_ ?_ ?_ ?_
  · rw [hnext]
    exact ⟨hin, (Function.update_self _ _ _).trans hslot, hran.cons⟩
  · rw [hnext]
    refine ⟨?_, hdid.cons⟩
    cases op with
    | storeResult m v | storeExc m e | setEvent m => exact hruns
    | _ => exact htouch.elim
  · rw [hnext]
    exact fun _ _ h => h
  · rw [hslot, filled_event]
    nofun

/-- Storing the result keeps the invariant. -/
theorem Inv.storeResult {r : Except (Raised Exn Base) Unit} {v : Value} (hI : Inv t s)
    (hφ : phaseAt protocol q t = .storing k n (.ok v))
    (h : exec q (.storeResult n v : Req Key Value Exn Base) s r s') :
    Inv (⟨.answer q (.storeResult n v) r, s, s'⟩ :: t) s' := by
  cases r with
  | error e => exact h.1.elim
  | ok _ =>
    obtain rfl : s' = _ := h
    refine hI.stores hφ (.storeResult n v) (.ok ()) rfl ⟨rfl, rfl⟩ rfl ?_
    rw [(hI.stands hφ).2.1]
    rfl

/-- Storing the exception keeps the invariant. -/
theorem Inv.storeExc {r : Except (Raised Exn Base) Unit} {e : Exn} (hI : Inv t s)
    (hφ : phaseAt protocol q t = .storing k n (.error (.exception e)))
    (h : exec q (.storeExc n e : Req Key Value Exn Base) s r s') :
    Inv (⟨.answer q (.storeExc n e) r, s, s'⟩ :: t) s' := by
  cases r with
  | error e => exact h.1.elim
  | ok _ =>
    obtain rfl : s' = _ := h
    refine hI.stores hφ (.storeExc n e) (.ok ()) rfl ⟨rfl, rfl⟩ rfl ?_
    rw [(hI.stands hφ).2.1]
    rfl

/-- What a leader pops is its own slot. -/
theorem Inv.pop {r : Except (Raised Exn Base) Unit} {o : Outcome Value Exn Base} (hI : Inv t s)
    (hφ : phaseAt protocol q t = .popping k n o)
    (h : exec q (.pop k : Req Key Value Exn Base) s r s') :
    Inv (⟨.answer q (.pop k) r, s, s'⟩ :: t) s' := by
  obtain ⟨hin, hslot, hran⟩ := hI.stands hφ
  obtain ⟨hruns, hdid⟩ := hI.logged hφ
  cases r with
  | error e => exact h.1.elim
  | ok _ =>
    obtain rfl : s' = _ := h
    refine hI.next hφ .popped rfl ⟨hslot, hran.cons⟩ ⟨hruns, hdid.cons⟩ (fun k' m hthere hm => ?_)
      fun m hm => .inl hm
    obtain ⟨rfl, rfl⟩ | hnow := hm
    · simp only [Function.update_self] at hthere
      cases hthere
    · cases hnow

/-- Setting the event keeps the invariant. -/
theorem Inv.setEvent {r : Except (Raised Exn Base) Unit} {o : Outcome Value Exn Base}
    (hI : Inv t s) (hφ : phaseAt protocol q t = .setting k n o)
    (h : exec q (.setEvent n : Req Key Value Exn Base) s r s') :
    Inv (⟨.answer q (.setEvent n) r, s, s'⟩ :: t) s' := by
  obtain ⟨hslot, hran⟩ := hI.stands hφ
  obtain ⟨hruns, hdid⟩ := hI.logged hφ
  have hled : LedBy t q k n := hI.ledBy (by rw [hφ]; exact ⟨rfl, rfl⟩)
  cases r with
  | error e => exact h.1.elim
  | ok _ =>
    obtain rfl : s' = _ := h
    have hfilled : { s.slot n with event := true } = filled true o := by
      rw [hslot]
      rcases o with (e | b) | v <;> rfl
    refine hI.writes hφ rfl rfl ?_ ?_ ?_ fun _ => ⟨q, k, o, hled, hran, hfilled⟩
    · rcases o with (e | b) | v
      · exact ⟨(Function.update_self _ _ _).trans hfilled, nofun⟩
      · trivial
      · exact ⟨(Function.update_self _ _ _).trans hfilled, nofun⟩
    · rcases o with (e | b) | v <;> exact hruns
    · rintro _ _ ⟨⟩

/-- Waiting for the event keeps the invariant. -/
theorem Inv.wait {r : Except (Raised Exn Base) Bool} (hI : Inv t s)
    (hφ : phaseAt protocol q t = .following k n)
    (h : exec q (.wait n : Req Key Value Exn Base) s r s') :
    Inv (⟨.answer q (.wait n) r, s, s'⟩ :: t) s' := by
  obtain ⟨p, hled⟩ := hI.stands hφ
  obtain ⟨hruns, hdid⟩ := hI.logged hφ
  cases r with
  | error e => exact h.1.elim
  | ok woken =>
    obtain ⟨rfl, hevent⟩ := h
    cases woken with
    | false => exact hI.still hφ rfl rfl trivial hruns nofun
    | true =>
      obtain ⟨p', k', o, hled', hran, hslot⟩ := hI.event n (hevent rfl)
      obtain ⟨rfl, rfl⟩ := hI.once p p' k k' n hled hled'
      refine hI.still hφ rfl rfl ⟨o, hslot, ?_⟩ ⟨hruns, hdid.cons⟩ nofun
      exact ⟨[], t, _, _, rfl, List.forall_mem_nil _, p, hled, hran⟩

/-- An exception in a slot is its leader's. -/
theorem filled_exc {event : Bool} {o : Outcome Value Exn Base} {e : Exn}
    (h : (filled event o).exc = some e) : o = .error (.exception e) := by
  rcases o with (e' | b) | v
  · cases h
    rfl
  · cases h
  · cases h

/-- So is a result. -/
theorem filled_result {event : Bool} {o : Outcome Value Exn Base} {v : Value}
    (h : (filled event o).result = some v) : o = .ok v := by
  rcases o with (e | b) | v'
  · cases h
  · cases h
  · cases h
    rfl

/-- A leader that shares its outcome leaves something in its slot. -/
theorem filled_ne_empty {event : Bool} {o : Outcome Value Exn Base} (ho : Shares o)
    (hexc : (filled event o).exc = none) : (filled event o).result ≠ none := by
  rcases o with (e | b) | v
  · cases hexc
  · exact absurd rfl (ho b)
  · nofun

/-- Reading the exception from the slot keeps the invariant. -/
theorem Inv.readExc {r : Except (Raised Exn Base) (Option Exn)}
    {own : Option (Outcome Value Exn Base)} (hI : Inv t s)
    (hφ : phaseAt protocol q t = .reading k n own)
    (h : exec q (.readExc n : Req Key Value Exn Base) s r s') :
    Inv (⟨.answer q (.readExc n) r, s, s'⟩ :: t) s' := by
  cases r with
  | error e => exact h.1.elim
  | ok a =>
    obtain ⟨rfl, ha⟩ := h
    cases own with
    | some o =>
      obtain ⟨hslot, hshares⟩ := hI.stands hφ
      have hruns := hI.logged hφ
      cases a with
      | none => exact hI.still hφ rfl rfl ⟨hslot, hshares, ha.symm⟩ hruns nofun
      | some e =>
        rw [hslot] at ha
        obtain rfl := filled_exc ha.symm
        exact hI.still hφ rfl rfl trivial hruns nofun
    | none =>
      obtain ⟨o, hslot, hawait⟩ := hI.stands hφ
      obtain ⟨hruns, hdid⟩ := hI.logged hφ
      cases a with
      | none =>
        exact hI.still hφ rfl rfl ⟨o, hslot, hawait.cons nofun, ha.symm⟩ ⟨hruns, hdid.cons⟩ nofun
      | some e =>
        rw [hslot] at ha
        obtain rfl := filled_exc ha.symm
        exact hI.still hφ rfl rfl ⟨hawait.cons nofun, nofun⟩ ⟨hruns, hdid.cons⟩ nofun

/-- Reading the result from the slot keeps the invariant. -/
theorem Inv.readResult {r : Except (Raised Exn Base) (Option Value)}
    {own : Option (Outcome Value Exn Base)} (hI : Inv t s)
    (hφ : phaseAt protocol q t = .readingResult k n own)
    (h : exec q (.readResult n : Req Key Value Exn Base) s r s') :
    Inv (⟨.answer q (.readResult n) r, s, s'⟩ :: t) s' := by
  cases r with
  | error e => exact h.1.elim
  | ok a =>
    obtain ⟨rfl, ha⟩ := h
    cases own with
    | some o =>
      obtain ⟨hslot, hshares, hexc⟩ := hI.stands hφ
      have hruns := hI.logged hφ
      rw [hslot] at ha hexc
      cases a with
      | none => exact absurd ha.symm (filled_ne_empty hshares hexc)
      | some v =>
        obtain rfl := filled_result ha.symm
        exact hI.still hφ rfl rfl trivial hruns nofun
    | none =>
      obtain ⟨o, hslot, hawait, -⟩ := hI.stands hφ
      obtain ⟨hruns, hdid⟩ := hI.logged hφ
      cases a with
      | none => exact hI.still hφ rfl rfl trivial hruns nofun
      | some v =>
        rw [hslot] at ha
        obtain rfl := filled_result ha.symm
        exact hI.still hφ rfl rfl ⟨hawait.cons nofun, nofun⟩ ⟨hruns, hdid.cons⟩ nofun

/-- Every step of a call keeps the invariant. -/
theorem Inv.answer (hI : Inv t s) (hpermit : protocol.permits (phaseAt protocol q t) op)
    (h : exec q op s r s') : Inv (⟨.answer q op r, s, s'⟩ :: t) s' := by
  generalize hφ : phaseAt protocol q t = φ at hpermit
  cases φ with
  | fresh =>
    cases op with
    | join k => exact hI.join hφ h
    | _ => exact hpermit.elim
  | leading k n =>
    cases op with
    | resolver k' slot =>
      obtain ⟨rfl, rfl⟩ := hpermit
      obtain rfl : s' = s := by
        cases r with
        | ok a => exact h
        | error e => exact h.2
      exact hI.resolve hφ r
    | _ => exact hpermit.elim
  | storing k n o =>
    cases op with
    | storeResult m v =>
      obtain ⟨rfl, rfl⟩ := hpermit
      exact hI.storeResult hφ h
    | storeExc m e =>
      obtain ⟨rfl, rfl⟩ := hpermit
      exact hI.storeExc hφ h
    | _ => exact hpermit.elim
  | popping k n o =>
    cases op with
    | pop k' =>
      obtain rfl := hpermit
      exact hI.pop hφ h
    | _ => exact hpermit.elim
  | setting k n o =>
    cases op with
    | setEvent m =>
      obtain rfl := hpermit
      exact hI.setEvent hφ h
    | _ => exact hpermit.elim
  | following k n =>
    cases op with
    | wait m =>
      obtain rfl := hpermit
      exact hI.wait hφ h
    | _ => exact hpermit.elim
  | reading k n own =>
    cases op with
    | readExc m =>
      obtain rfl := hpermit
      exact hI.readExc hφ h
    | _ => exact hpermit.elim
  | readingResult k n own =>
    cases op with
    | readResult m =>
      obtain rfl := hpermit
      exact hI.readResult hφ h
    | _ => exact hpermit.elim
  | resolving k =>
    cases op with
    | resolver k' slot =>
      obtain ⟨rfl, rfl⟩ := hpermit
      obtain rfl : s' = s := by
        cases r with
        | ok a => exact h
        | error e => exact h.2
      exact hI.still hφ rfl ⟨rfl, rfl⟩ trivial (congrArg (r :: ·) (hI.logged hφ)) nofun
    | _ => exact hpermit.elim
  | ended k o slot =>
    cases op with
    | finish k' o' =>
      obtain ⟨rfl, rfl⟩ := hpermit
      cases r with
      | error e => exact h.1.elim
      | ok _ =>
        obtain rfl : s' = s := h
        exact hI.still hφ rfl ⟨rfl, rfl⟩ trivial trivial nofun
    | _ => exact hpermit.elim
  | closed => cases op <;> exact hpermit.elim
  | lost => exact absurd hφ (hI.not_lost q)

variable {c : Stand Pid Key Value Exn Base}

/-- The invariant holds along every run. -/
theorem inv_of_run (hrun : SysRun t c) : Inv t c.shared := by
  refine hrun.invariant allFollow Inv .init fun t s l s' hI hmove => ?_
  cases hmove with
  | start hstop => exact hI.start hstop
  | inner _ h => exact h.elim
  | answer hpermit h => exact hI.answer hpermit h
  | env h => exact h.elim
  | kill h => exact h.elim

/-! ### Every call -/

/-- A slot is taken away by its leader's pop. -/
theorem Inv.pops (hI : Inv t s) (hpermit : protocol.permits (phaseAt protocol q t) op)
    (h : exec q op s r s')
    (hremoves : Removes (⟨.answer q op r, s, s'⟩ : Event Pid Key Value Exn Base) n) :
    ∃ k, (⟨.answer q op r, s, s'⟩ : Event Pid Key Value Exn Base).label =
        .answer q (.pop k) (.ok ()) ∧ Did (takenBy q t) (.join k) (.ok (.leader n)) := by
  obtain ⟨k, hin, hout⟩ := hremoves
  have hpop : op = .pop k := by
    by_contra hne
    exact hout ((change_of_exec h).inflight_eq hin hne)
  subst hpop
  cases r with
  | error e => exact h.1.elim
  | ok _ =>
    refine ⟨k, rfl, ?_⟩
    generalize hφ : phaseAt protocol q t = φ at hpermit
    cases φ with
    | popping k' m o =>
      obtain rfl := hpermit
      obtain rfl : m = n := Option.some.inj ((hI.stands hφ).1.symm.trans hin)
      exact (hI.logged hφ).2
    | lost => exact absurd hφ (hI.not_lost q)
    | _ => exact hpermit.elim

/-- Every step from where the invariant holds is orderly. -/
theorem Inv.orderly {l : Label Pid (Req Key Value Exn Base) Req.Ans (Raised Exn Base)}
    (hI : Inv t s) (hmove : Move machine protocol t s l s') : Orderly t ⟨l, s, s'⟩ := by
  have hfirst {n : Nat} (hremoves : Removes (⟨l, s, s'⟩ : Event Pid Key Value Exn Base) n) :
      ∀ e' ∈ t, ¬Removes e' n := by
    intro e' he' hremoved
    obtain ⟨k, hin, -⟩ := hremoves
    exact (hI.gone e' he' n hremoved).2 k hin
  cases hmove with
  | start _ =>
    refine ⟨fun n hremoves => ?_, trivial⟩
    obtain ⟨k, hin, hout⟩ := hremoves
    exact absurd hin hout
  | inner _ h => exact h.elim
  | env h => exact h.elim
  | kill h => exact h.elim
  | @answer q op r _ hpermit h =>
    refine ⟨fun n hremoves => ⟨hfirst hremoves, q, hI.pops hpermit h hremoves⟩, ?_⟩
    generalize hφ : phaseAt protocol q t = φ at hpermit
    cases op with
    | join k =>
      rcases r with e | n | n
      · trivial
      · intro p k' hled
        obtain ⟨rfl, -⟩ := (change_of_exec h).ledNow rfl
        exact Nat.lt_irrefl _ (hI.led p k' _ hled)
      · trivial
    | pop k =>
      cases φ with
      | popping k' n o =>
        obtain rfl := hpermit
        refine ⟨n, (hI.logged hφ).2, (hI.stands hφ).1, ?_⟩
        cases r with
        | error e => exact h.1.elim
        | ok _ =>
          obtain rfl : s' = _ := h
          exact Function.update_self _ _ _
      | lost => exact absurd hφ (hI.not_lost q)
      | _ => exact hpermit.elim
    | finish k o =>
      cases φ with
      | ended k' o' slot =>
        obtain ⟨rfl, rfl⟩ := hpermit
        exact ⟨hI.explained hφ, fun _ _ hdid => hI.removed hφ hdid.ledBy⟩
      | lost => exact absurd hφ (hI.not_lost q)
      | _ => exact hpermit.elim
    | _ => trivial

/-- Coalescing is safe. In every run of any number of callers: at most one leader runs its resolver
under a key; a slot has one leader, whose pop takes it away, before the leader's call ends and only
once; a call ends with what its own resolver came to, which it ran once, or with what the leader of
the slot that it joined had come to before the call stopped waiting, unless that is a
`BaseException`; and a call takes nine steps at most, none of which but a resolver keeps it
waiting. -/
theorem single_flight_coalesces (hrun : SysRun t c) :
    (∀ p q k n m kont kont', c.proc p = some (.call (.resolver k (some n)) kont) →
      c.proc q = some (.call (.resolver k (some m)) kont') → p = q) ∧
    Throughout Orderly t ∧
    (∀ p, (takenBy p t).length ≤ 9) ∧
    ∀ p op kont, c.proc p = some (.call op kont) →
      (∃ k slot, op = .resolver k slot) ∨ ∃ a s', exec p op c.shared (.ok a) s' := by
  have hI := inv_of_run hrun
  refine ⟨fun p q k n m _ _ hp hq => ?_, ?_, fun p => ?_, fun p op _ _ => exec_ready p c.shared op⟩
  · exact hI.one_leader (hrun.permits_call allFollow hp) (hrun.permits_call allFollow hq)
  · clear hI
    induction hrun with
    | nil => trivial
    | cons hr hs ih => exact ⟨(inv_of_run hr).orderly (hr.move allFollow hs), ih⟩
  · exact Nat.le_trans (hI.steps p) (Phase.steps_le _)

end Invariant

/-! ### A leader that is shut down -/

/-- A leader is interrupted. While a new leader runs under its key, the follower of the first one
reads the slot that it left empty, and resolves for itself. -/
theorem interrupted_run : ∃ (t : List (Event Nat String Nat Unit Unit)) (c : _), SysRun t c ∧
    (∃ e ∈ t, e.label = .answer 1 (.finish "acme" (.error (.control ()))) (.ok ())) ∧
    (∃ e ∈ t, e.label = .answer 2 (.finish "acme" (.ok 7)) (.ok ())) ∧
    ∃ kont, c.proc 3 = some (.call (.resolver "acme" (some 1)) kont) := by
  have r0 : SysRun ([] : List (Event Nat String Nat Unit Unit)) _ := .nil
  have r1 := r0.start 1 ⟨"acme", rfl⟩ rfl
  have r2 := r1.start 2 ⟨"acme", rfl⟩ rfl
  have r3 := r2.start 3 ⟨"acme", rfl⟩ rfl
  have r4 := r3.answer 1 (.join "acme") (.ok (.leader 0)) ⟨rfl, rfl⟩ rfl
  have r5 := r4.answer 2 (.join "acme") (.ok (.follower 0)) ⟨rfl, rfl⟩ rfl
  have r6 := r5.answer 1 (.resolver "acme" (some 0)) (.error (.control ())) ⟨trivial, rfl⟩ rfl
  have r7 := r6.answer 1 (.pop "acme") (.ok ()) rfl rfl
  have r8 := r7.answer 3 (.join "acme") (.ok (.leader 1)) ⟨rfl, rfl⟩ rfl
  have r9 := r8.answer 1 (.setEvent 0) (.ok ()) rfl rfl
  have r10 := r9.answer 2 (.wait 0) (.ok true) ⟨rfl, fun _ => rfl⟩ rfl
  have r11 := r10.answer 2 (.readExc 0) (.ok none) ⟨rfl, rfl⟩ rfl
  have r12 := r11.answer 2 (.readResult 0) (.ok none) ⟨rfl, rfl⟩ rfl
  have r13 := r12.answer 2 (.resolver "acme" none) (.ok 7) rfl rfl
  have r14 := r13.answer 1 (.finish "acme" (.error (.control ()))) (.ok ()) rfl rfl
  have r15 := r14.answer 2 (.finish "acme" (.ok 7)) (.ok ()) rfl rfl
  exact ⟨_, _, r15, ⟨_, List.mem_cons_of_mem _ List.mem_cons_self, rfl⟩,
    ⟨_, List.mem_cons_self, rfl⟩, _, rfl⟩

/-- In a run whose leader is interrupted, the follower calls the resolver itself, and every step is
orderly. -/
theorem single_flight_coalesces_interrupted :
    ∃ (t : List (Event Nat String Nat Unit Unit)) (c : _), SysRun t c ∧
      (∃ e ∈ t, e.label = .answer 1 (.finish "acme" (.error (.control ()))) (.ok ())) ∧
      (∃ e ∈ t, e.label = .answer 2 (.finish "acme" (.ok 7)) (.ok ())) ∧ Throughout Orderly t := by
  obtain ⟨t, c, hrun, hfirst, hsecond, -⟩ := interrupted_run
  exact ⟨t, c, hrun, hfirst, hsecond, (single_flight_coalesces hrun).2.1⟩

end MtShards.SingleFlight
