import Mathlib.Data.List.Basic
import MtShards.Core.Program

/-!
# Interleaved runs of programs over a shared state

Any number of processes run programs over one shared state. A step starts a program
on a process that has none, lets the outstanding request of a process make partial
progress or complete with an answer, moves the environment, or kills a process. A run
keeps its trace, newest step first, with the shared state before and after each step.

`phaseAt` replays a protocol along a trace. When every program that may be started
follows the protocol, each request completed in a run was permitted in the phase of its
process (`Run.permits_call`), and an invariant of traces and shared states has to be
checked only against permitted requests (`Run.invariant`).
-/

namespace MtShards.Core

open Program

/-- The meaning of requests over a shared state. -/
structure Machine (Pid Op : Type) (Ans : Op → Type) (ε St : Type) where
  /-- A request completes with an answer. -/
  exec : Pid → (op : Op) → St → Except ε (Ans op) → St → Prop
  /-- A request that has not completed makes progress. -/
  inner : Pid → Op → St → St → Prop
  /-- A step of the environment. -/
  env : St → St → Prop
  /-- What killing a process does to the shared state. -/
  kill : Pid → St → St → Prop

/-- The shared state, and what each process has left to run; `none` once killed. -/
structure Config (Pid Op : Type) (Ans : Op → Type) (ε St : Type) where
  shared : St
  proc : Pid → Option (Program Op Ans ε Unit)

/-- What a step was. -/
inductive Label (Pid Op : Type) (Ans : Op → Type) (ε : Type)
  | start (p : Pid)
  | inner (p : Pid) (op : Op)
  | answer (p : Pid) (op : Op) (r : Except ε (Ans op))
  | env
  | kill (p : Pid)

/-- One step of a trace. -/
structure Entry (Pid Op : Type) (Ans : Op → Type) (ε St : Type) where
  label : Label Pid Op Ans ε
  pre : St
  post : St

variable {Pid Op : Type} {Ans : Op → Type} {ε St Φ : Type} [DecidableEq Pid]

/-- One step of the interleaving. -/
inductive Step (M : Machine Pid Op Ans ε St) (starts : Pid → Program Op Ans ε Unit → Prop) :
    Config Pid Op Ans ε St → Label Pid Op Ans ε → Config Pid Op Ans ε St → Prop
  | start {c p r prog} : c.proc p = some (.done r) → starts p prog →
      Step M starts c (.start p) ⟨c.shared, Function.update c.proc p (some prog)⟩
  | inner {c p op k s'} : c.proc p = some (.call op k) → M.inner p op c.shared s' →
      Step M starts c (.inner p op) ⟨s', c.proc⟩
  | answer {c p op k r s'} : c.proc p = some (.call op k) → M.exec p op c.shared r s' →
      Step M starts c (.answer p op r) ⟨s', Function.update c.proc p (some (k r))⟩
  | env {c s'} : M.env c.shared s' → Step M starts c .env ⟨s', c.proc⟩
  | kill {c p prog s'} : c.proc p = some prog → M.kill p c.shared s' →
      Step M starts c (.kill p) ⟨s', Function.update c.proc p none⟩

/-- A finite run from `c₀`: its trace, newest step first, and where it stands. -/
inductive Run (M : Machine Pid Op Ans ε St) (starts : Pid → Program Op Ans ε Unit → Prop)
    (c₀ : Config Pid Op Ans ε St) : List (Entry Pid Op Ans ε St) → Config Pid Op Ans ε St → Prop
  | nil : Run M starts c₀ [] c₀
  | cons {t c l c'} : Run M starts c₀ t c → Step M starts c l c' →
      Run M starts c₀ (⟨l, c.shared, c'.shared⟩ :: t) c'

section Extend

variable {M : Machine Pid Op Ans ε St} {starts : Pid → Program Op Ans ε Unit → Prop}
  {c₀ c : Config Pid Op Ans ε St} {t : List (Entry Pid Op Ans ε St)}

/-- A run goes on with a program that is started. -/
theorem Run.start (h : Run M starts c₀ t c) (p : Pid) {r : Except ε Unit}
    {prog : Program Op Ans ε Unit} (hs : starts p prog) (hp : c.proc p = some (.done r)) :
    Run M starts c₀ (⟨.start p, c.shared, c.shared⟩ :: t)
      ⟨c.shared, Function.update c.proc p (some prog)⟩ :=
  .cons h (.start hp hs)

/-- A run goes on with an answer to an outstanding request. -/
theorem Run.answer (h : Run M starts c₀ t c) (p : Pid) (op : Op) (r : Except ε (Ans op)) {s' : St}
    {k : Except ε (Ans op) → Program Op Ans ε Unit} (he : M.exec p op c.shared r s')
    (hp : c.proc p = some (.call op k)) :
    Run M starts c₀ (⟨.answer p op r, c.shared, s'⟩ :: t)
      ⟨s', Function.update c.proc p (some (k r))⟩ :=
  .cons h (.answer hp he)

/-- A run goes on with partial progress of an outstanding request. -/
theorem Run.inner (h : Run M starts c₀ t c) (p : Pid) (op : Op) {s' : St}
    {k : Except ε (Ans op) → Program Op Ans ε Unit} (hi : M.inner p op c.shared s')
    (hp : c.proc p = some (.call op k)) :
    Run M starts c₀ (⟨.inner p op, c.shared, s'⟩ :: t) ⟨s', c.proc⟩ :=
  .cons h (.inner hp hi)

/-- A run goes on with a step of the environment. -/
theorem Run.env (h : Run M starts c₀ t c) {s' : St} (he : M.env c.shared s') :
    Run M starts c₀ (⟨.env, c.shared, s'⟩ :: t) ⟨s', c.proc⟩ :=
  .cons h (.env he)

end Extend

/-- No process has a program, and none has been killed. -/
def Config.idle (s : St) : Config Pid Op Ans ε St := ⟨s, fun _ => some (.done (.ok ()))⟩

/-- The phase of a process after a trace; a killed process is back where it began. -/
def phaseAt (P : Protocol Op Ans ε Φ) (p : Pid) : List (Entry Pid Op Ans ε St) → Φ
  | [] => P.init
  | ⟨.start q, _, _⟩ :: t => if q = p then P.init else phaseAt P p t
  | ⟨.answer q op r, _, _⟩ :: t =>
    if q = p then P.next (phaseAt P p t) op r else phaseAt P p t
  | ⟨.kill q, _, _⟩ :: t => if q = p then P.init else phaseAt P p t
  | _ :: t => phaseAt P p t

section Phases

variable {P : Protocol Op Ans ε Φ} {p q : Pid} {t : List (Entry Pid Op Ans ε St)} {s s' : St}

/-- A run that has not begun has everyone in the first phase. -/
@[simp] theorem phaseAt_nil : phaseAt P p ([] : List (Entry Pid Op Ans ε St)) = P.init := rfl

/-- A process that starts is in the first phase. -/
@[simp] theorem phaseAt_start_self : phaseAt P p (⟨.start p, s, s'⟩ :: t) = P.init :=
  if_pos rfl

/-- The start of another process leaves the phase. -/
@[simp] theorem phaseAt_start_of_ne (h : q ≠ p) :
    phaseAt P p (⟨.start q, s, s'⟩ :: t) = phaseAt P p t := if_neg h

/-- An answer takes its process to the next phase. -/
@[simp] theorem phaseAt_answer_self {op : Op} {r : Except ε (Ans op)} :
    phaseAt P p (⟨.answer p op r, s, s'⟩ :: t) = P.next (phaseAt P p t) op r := if_pos rfl

/-- An answer to another process leaves the phase. -/
@[simp] theorem phaseAt_answer_of_ne {op : Op} {r : Except ε (Ans op)} (h : q ≠ p) :
    phaseAt P p (⟨.answer q op r, s, s'⟩ :: t) = phaseAt P p t := if_neg h

/-- Inner steps leave every phase. -/
@[simp] theorem phaseAt_inner {op : Op} :
    phaseAt P p (⟨.inner q op, s, s'⟩ :: t) = phaseAt P p t := rfl

/-- Steps of the environment leave every phase. -/
@[simp] theorem phaseAt_env : phaseAt P p (⟨.env, s, s'⟩ :: t) = phaseAt P p t := rfl

/-- A process that was killed begins anew. -/
@[simp] theorem phaseAt_kill_self : phaseAt P p (⟨.kill p, s, s'⟩ :: t) = P.init :=
  if_pos rfl

/-- The end of another process leaves the phase. -/
@[simp] theorem phaseAt_kill_of_ne (h : q ≠ p) :
    phaseAt P p (⟨.kill q, s, s'⟩ :: t) = phaseAt P p t := if_neg h

end Phases

/-- What a step does to the shared state, whoever's turn it was. -/
def Machine.Acts (M : Machine Pid Op Ans ε St) : Label Pid Op Ans ε → St → St → Prop
  | .start _, s, s' => s' = s
  | .inner p op, s, s' => M.inner p op s s'
  | .answer p op r, s, s' => M.exec p op s r s'
  | .env, s, s' => M.env s s'
  | .kill p, s, s' => M.kill p s s'

/-- Every startable program keeps to the protocol. -/
def AllFollow (P : Protocol Op Ans ε Φ) (starts : Pid → Program Op Ans ε Unit → Prop) : Prop :=
  ∀ p prog, starts p prog → prog.Follows P P.init fun φ _ => P.mayStop φ

/-- A step seen through a protocol: what the trace so far permits. -/
inductive Move (M : Machine Pid Op Ans ε St) (P : Protocol Op Ans ε Φ)
    (t : List (Entry Pid Op Ans ε St)) (s : St) : Label Pid Op Ans ε → St → Prop
  | start {p} : P.mayStop (phaseAt P p t) → Move M P t s (.start p) s
  | inner {p op s'} : P.permits (phaseAt P p t) op → M.inner p op s s' →
      Move M P t s (.inner p op) s'
  | answer {p op r s'} : P.permits (phaseAt P p t) op → M.exec p op s r s' →
      Move M P t s (.answer p op r) s'
  | env {s'} : M.env s s' → Move M P t s .env s'
  | kill {p s'} : M.kill p s s' → Move M P t s (.kill p) s'

variable {M : Machine Pid Op Ans ε St} {starts : Pid → Program Op Ans ε Unit → Prop}
  {P : Protocol Op Ans ε Φ} {s₀ : St} {t : List (Entry Pid Op Ans ε St)}
  {c c' : Config Pid Op Ans ε St}

/-- A move acts as its label says. -/
theorem Move.acts {l : Label Pid Op Ans ε} {s s' : St} (h : Move M P t s l s') :
    M.Acts l s s' := by
  cases h with
  | start _ => rfl
  | inner _ hi => exact hi
  | answer _ he => exact he
  | env he => exact he
  | kill hk => exact hk

/-- A request that was answered was permitted. -/
theorem Move.permits {p : Pid} {op : Op} {r : Except ε (Ans op)} {s s' : St}
    (h : Move M P t s (.answer p op r) s') : P.permits (phaseAt P p t) op := by
  cases h with
  | answer hp _ => exact hp

/-- What a process has left to run follows the protocol from its phase. -/
theorem Run.follows (hP : AllFollow P starts) (h : Run M starts (.idle s₀) t c) (p : Pid)
    {prog : Program Op Ans ε Unit} (hp : c.proc p = some prog) :
    prog.Follows P (phaseAt P p t) fun φ _ => P.mayStop φ := by
  induction h generalizing p prog with
  | nil =>
    obtain rfl := Option.some.inj hp
    exact P.mayStop_init
  | @cons t c l c' _ hs ih =>
    cases hs with
    | @start q r prog' _ hstart =>
      by_cases hq : q = p
      · subst hq
        simp only [Function.update_self, Option.some.injEq] at hp
        rw [phaseAt_start_self, ← hp]
        exact hP q prog' hstart
      · rw [phaseAt_start_of_ne hq]
        exact ih p (by simpa only [Function.update_of_ne (Ne.symm hq)] using hp)
    | inner _ _ => exact ih p hp
    | @answer q op k r s' hcall _ =>
      by_cases hq : q = p
      · subst hq
        simp only [Function.update_self, Option.some.injEq] at hp
        rw [phaseAt_answer_self, ← hp]
        exact (ih q hcall).2 r
      · rw [phaseAt_answer_of_ne hq]
        exact ih p (by simpa only [Function.update_of_ne (Ne.symm hq)] using hp)
    | env _ => exact ih p hp
    | @kill q prog' s' _ _ =>
      by_cases hq : q = p
      · subst hq
        simp only [Function.update_self, reduceCtorEq] at hp
      · rw [phaseAt_kill_of_ne hq]
        exact ih p (by simpa only [Function.update_of_ne (Ne.symm hq)] using hp)

/-- An outstanding request was permitted in the phase of its process. -/
theorem Run.permits_call (hP : AllFollow P starts) (h : Run M starts (.idle s₀) t c) {p : Pid}
    {op : Op} {k : Except ε (Ans op) → Program Op Ans ε Unit}
    (hp : c.proc p = some (.call op k)) : P.permits (phaseAt P p t) op :=
  (h.follows hP p hp).1

/-- Every step of a run is a move that the protocol permits. -/
theorem Run.move (hP : AllFollow P starts) (h : Run M starts (.idle s₀) t c)
    {l : Label Pid Op Ans ε} (hs : Step M starts c l c') :
    Move M P t c.shared l c'.shared := by
  cases hs with
  | start hdone _ => exact .start (h.follows hP _ hdone)
  | inner hcall hi => exact .inner (h.permits_call hP hcall) hi
  | answer hcall he => exact .answer (h.permits_call hP hcall) he
  | env he => exact .env he
  | kill _ hk => exact .kill hk

/-- A property of traces and shared states that holds at the start and is kept by every
permitted move holds along every run. -/
theorem Run.invariant (hP : AllFollow P starts)
    (I : List (Entry Pid Op Ans ε St) → St → Prop) (h₀ : I [] s₀)
    (hmove : ∀ t s l s', I t s → Move M P t s l s' → I (⟨l, s, s'⟩ :: t) s')
    (h : Run M starts (.idle s₀) t c) : I t c.shared := by
  induction h with
  | nil => exact h₀
  | cons hr hs ih => exact hmove _ _ _ _ ih (hr.move hP hs)

/-- Every step of a trace meets a condition on it and on the trace before it. -/
def Throughout (R : List (Entry Pid Op Ans ε St) → Entry Pid Op Ans ε St → Prop) :
    List (Entry Pid Op Ans ε St) → Prop
  | [] => True
  | e :: t => R t e ∧ Throughout R t

omit [DecidableEq Pid] in
/-- What holds throughout a run holds of each step and of the run before it. -/
theorem Throughout.split {R : List (Entry Pid Op Ans ε St) → Entry Pid Op Ans ε St → Prop}
    {later earlier : List (Entry Pid Op Ans ε St)} {e : Entry Pid Op Ans ε St}
    (h : Throughout R (later ++ e :: earlier)) : R earlier e ∧ Throughout R earlier := by
  induction later with
  | nil => exact h
  | cons _ later ih => exact ih h.2

omit [DecidableEq Pid] in
/-- Conditions that every step meets are met together. -/
theorem Throughout.and {R R' : List (Entry Pid Op Ans ε St) → Entry Pid Op Ans ε St → Prop}
    {t : List (Entry Pid Op Ans ε St)} (h : Throughout R t) (h' : Throughout R' t) :
    Throughout (fun t e => R t e ∧ R' t e) t := by
  induction t with
  | nil => trivial
  | cons e t ih => exact ⟨⟨h.1, h'.1⟩, ih h.2 h'.2⟩

omit [DecidableEq Pid] in
/-- What holds throughout can be loosened. -/
theorem Throughout.mono {R R' : List (Entry Pid Op Ans ε St) → Entry Pid Op Ans ε St → Prop}
    {t : List (Entry Pid Op Ans ε St)} (h : Throughout R t) (hR : ∀ t e, R t e → R' t e) :
    Throughout R' t := by
  induction t with
  | nil => trivial
  | cons e t ih => exact ⟨hR t e h.1, ih h.2⟩

/-- An invariant that is kept by every permitted move which meets a condition holds along
every run whose steps all meet it. -/
theorem Run.invariant_throughout (hP : AllFollow P starts)
    (R : List (Entry Pid Op Ans ε St) → Entry Pid Op Ans ε St → Prop)
    (I : List (Entry Pid Op Ans ε St) → St → Prop) (h₀ : I [] s₀)
    (hmove : ∀ t c l s', Run M starts (.idle s₀) t c → I t c.shared → R t ⟨l, c.shared, s'⟩ →
      Move M P t c.shared l s' → I (⟨l, c.shared, s'⟩ :: t) s')
    (h : Run M starts (.idle s₀) t c) (hR : Throughout R t) : I t c.shared := by
  induction h with
  | nil => exact h₀
  | cons hr hs ih => exact hmove _ _ _ _ hr (ih hR.2) hR.1 (hr.move hP hs)

/-- A run up to one of its entries, and the step of that entry. -/
theorem Run.split {c₀ : Config Pid Op Ans ε St} {later earlier : List (Entry Pid Op Ans ε St)}
    {e : Entry Pid Op Ans ε St} (h : Run M starts c₀ (later ++ e :: earlier) c) :
    ∃ c₁ c₂, Run M starts c₀ earlier c₁ ∧ Step M starts c₁ e.label c₂ ∧
      e.pre = c₁.shared ∧ e.post = c₂.shared := by
  induction later generalizing c with
  | nil =>
    cases h with
    | @cons _ c₁ l _ hr hs => exact ⟨c₁, c, hr, hs, rfl, rfl⟩
  | cons e' later ih =>
    cases h with
    | cons hr _ => exact ih hr

/-- A step acts as its label says. -/
theorem Step.acts {l : Label Pid Op Ans ε} (h : Step M starts c l c') :
    M.Acts l c.shared c'.shared := by
  cases h with
  | start _ _ => rfl
  | inner _ hi => exact hi
  | answer _ he => exact he
  | env he => exact he
  | kill _ hk => exact hk

/-- The process that makes a step; the environment is none. -/
def Label.actor : Label Pid Op Ans ε → Option Pid
  | .start p | .inner p _ | .answer p _ _ | .kill p => some p
  | .env => none

/-- The step of another process, or of the environment, leaves the phase of a process. -/
theorem phaseAt_of_actor_ne {l : Label Pid Op Ans ε} {p : Pid} {s s' : St}
    (h : l.actor ≠ some p) : phaseAt P p (⟨l, s, s'⟩ :: t) = phaseAt P p t := by
  have hne {q : Pid} (hq : some q ≠ some p) : q ≠ p := fun heq => hq (congrArg some heq)
  cases l with
  | start q => exact phaseAt_start_of_ne (hne h)
  | inner q op => exact phaseAt_inner
  | answer q op r => exact phaseAt_answer_of_ne (hne h)
  | env => exact phaseAt_env
  | kill q => exact phaseAt_kill_of_ne (hne h)

/-- What a move is to one process: a step of another, or one of the four of its own. -/
inductive Part (M : Machine Pid Op Ans ε St) (P : Protocol Op Ans ε Φ) (p : Pid)
    (t : List (Entry Pid Op Ans ε St)) (s : St) (l : Label Pid Op Ans ε) (s' : St) : Prop
  | other (label : l.actor ≠ some p) (phase : phaseAt P p (⟨l, s, s'⟩ :: t) = phaseAt P p t)
  | start (label : l = .start p) (phase : phaseAt P p (⟨l, s, s'⟩ :: t) = P.init) (same : s' = s)
      (mayStop : P.mayStop (phaseAt P p t))
  | inner (op : Op) (label : l = .inner p op)
      (phase : phaseAt P p (⟨l, s, s'⟩ :: t) = phaseAt P p t) (acts : M.inner p op s s')
  | answer (op : Op) (r : Except ε (Ans op)) (label : l = .answer p op r)
      (phase : phaseAt P p (⟨l, s, s'⟩ :: t) = P.next (phaseAt P p t) op r)
      (permits : P.permits (phaseAt P p t) op) (acts : M.exec p op s r s')
  | kill (label : l = .kill p) (phase : phaseAt P p (⟨l, s, s'⟩ :: t) = P.init)
      (acts : M.kill p s s')

/-- Every move is a part of it for each process. -/
theorem Move.part (p : Pid) {l : Label Pid Op Ans ε} {s s' : St} (h : Move M P t s l s') :
    Part M P p t s l s' := by
  have hne {q : Pid} (hq : q ≠ p) : some q ≠ some p := fun heq => hq (Option.some.inj heq)
  cases h with
  | @start q hstop =>
    by_cases hq : q = p
    · subst hq
      exact .start rfl phaseAt_start_self rfl hstop
    · exact .other (hne hq) (phaseAt_start_of_ne hq)
  | @inner q op _ _ hi =>
    by_cases hq : q = p
    · subst hq
      exact .inner op rfl phaseAt_inner hi
    · exact .other (hne hq) phaseAt_inner
  | @answer q op r _ hop he =>
    by_cases hq : q = p
    · subst hq
      exact .answer op r rfl phaseAt_answer_self hop he
    · exact .other (hne hq) (phaseAt_answer_of_ne hq)
  | env _ => exact .other nofun phaseAt_env
  | @kill q _ hk =>
    by_cases hq : q = p
    · subst hq
      exact .kill rfl phaseAt_kill_self hk
    · exact .other (hne hq) (phaseAt_kill_of_ne hq)

/-- The processes that have made a step. -/
def actors (t : List (Entry Pid Op Ans ε St)) : List Pid := t.filterMap fun e => e.label.actor

/-- A step leaves the other processes as they are. -/
theorem Step.proc_of_ne {l : Label Pid Op Ans ε} {p : Pid} (h : Step M starts c l c')
    (hp : l.actor ≠ some p) : c'.proc p = c.proc p := by
  have hne {q : Pid} (hq : some q ≠ some p) : p ≠ q := fun heq => hq (congrArg some heq.symm)
  cases h with
  | start _ _ => exact Function.update_of_ne (hne hp) _ _
  | inner _ _ => rfl
  | answer _ _ => exact Function.update_of_ne (hne hp) _ _
  | env _ => rfl
  | kill _ _ => exact Function.update_of_ne (hne hp) _ _

/-- Every process has ended when those that have made a step all have. -/
theorem Run.all_done (ps : List Pid) (h : Run M starts (.idle s₀) t c)
    (hps : (actors t).all ps.contains = true)
    (hdone : ps.Forall fun p => ∃ r, c.proc p = some (.done r)) (p : Pid) :
    ∃ r, c.proc p = some (.done r) := by
  by_cases hp : p ∈ ps
  · exact List.forall_iff_forall_mem.mp hdone p hp
  · have hidle : p ∉ actors t := fun hmem => hp (by simpa using List.all_eq_true.mp hps p hmem)
    clear hps hdone
    induction h with
    | nil => exact ⟨.ok (), rfl⟩
    | @cons t c l c' _ hs ih =>
      have hl : l.actor ≠ some p := fun heq =>
        hidle (List.mem_filterMap.mpr ⟨_, List.mem_cons_self, heq⟩)
      have ht : p ∉ actors t := fun hmem => by
        obtain ⟨e, he, heq⟩ := List.mem_filterMap.mp hmem
        exact hidle (List.mem_filterMap.mpr ⟨e, List.mem_cons_of_mem _ he, heq⟩)
      rw [hs.proc_of_ne hl]
      exact ih ht

/-- Every entry of a trace is a step of the machine. -/
theorem Run.acts_of_mem {c₀ : Config Pid Op Ans ε St} (h : Run M starts c₀ t c)
    {e : Entry Pid Op Ans ε St} (he : e ∈ t) : M.Acts e.label e.pre e.post := by
  obtain ⟨later, earlier, rfl⟩ := List.append_of_mem he
  obtain ⟨c₁, c₂, _, hs, hpre, hpost⟩ := h.split
  rw [hpre, hpost]
  exact hs.acts

end MtShards.Core
