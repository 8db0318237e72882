import MtShards.Core.Events
import MtShards.Models.Scheduler.Stage

/-!
# The loops of `migrate_schemas`

`_run_sequential` and `_run_parallel`, the latter with what `handle` does when it leaves with
an exception. The parent of a parallel run advances from one statement to the next, while
workers deliver, the executor sees a dead worker, and signals arrive, at any point in between.

A dead worker breaks the pool as `concurrent.futures` has it: from then on every future that
was not delivered raises `BrokenProcessPool`, and so does `submit`. A first signal only asks to
drain; the second one kills the workers while the pool is live, and raises `KeyboardInterrupt`
in the parent once it is not.
-/

namespace MtShards.Scheduler

open MtShards.Core
open MtShards.Migrator (Exn)

/-! ### `_run_sequential` -/

/-- Where `_run_sequential` stands. -/
inductive SeqPc
  | top
  /-- Inside `migrate_tenant`. -/
  | running (i : Id)
  | returned
  deriving DecidableEq, Repr

/-- The sequential loop. -/
structure SeqLoop where
  sched : Sched
  signals : Nat
  /-- The targets started, in their order. -/
  started : List Id
  pc : SeqPc

/-- What happens to the sequential loop. -/
inductive SeqEvent
  | advance
  /-- `migrate_tenant` returns. -/
  | returns (res : Migrator.Result)
  | signal

/-- `if self._drain_requested(): stage.halt(Stop("signal"))`. -/
def Sched.drain (s : Sched) (signals : Nat) : Sched :=
  if 0 < signals then s.halt ⟨.signal, none⟩ false else s

namespace SeqLoop

/-- `_run_sequential` is entered with the entries of a target list. -/
def start (s : Sched) : SeqLoop := ⟨s, 0, [], .top⟩

/-- One event; a second signal, which raises in the running tenant, is left out. -/
def step (l : SeqLoop) : SeqEvent → Option SeqLoop
  | .advance =>
    match l.pc with
    | .top =>
      let s := l.sched.drain l.signals
      match s.stage.next 1 1 with
      | none => some { l with sched := s, pc := .returned }
      | some (i, st) =>
        some { l with sched := Sched.markRunning ⟨s.entry, st⟩ i, started := l.started ++ [i]
                      pc := .running i }
    | _ => none
  | .returns res =>
    match l.pc with
    | .running i => some { l with sched := l.sched.finish i (.result res), pc := .top }
    | _ => none
  | .signal => if l.signals = 0 then some { l with signals := 1 } else none

/-- The targets in flight. -/
def flight (l : SeqLoop) : List Id :=
  match l.pc with
  | .running i => [i]
  | _ => []

end SeqLoop

/-! ### `_run_parallel` -/

/-- A future of the pool. -/
inductive Future
  | pending
  | delivered (d : Delivered)
  /-- It raises `BrokenProcessPool`. -/
  | broken
  deriving DecidableEq, Repr

/-- Whether a worker has delivered. -/
def Future.isDelivered : Option Future → Bool
  | some (.delivered _) => true
  | _ => false

/-- Where the parent stands. -/
inductive Pc
  | top
  | fill
  /-- The entry is marked `running`; `ex.submit` is next. -/
  | submit (i : Id)
  | wait
  /-- `for f in done`, with the flag `broken`. -/
  | collect (todo : List Id) (broken : Bool)
  /-- The pool is broken: results that made it back still count. -/
  | rescue (todo : List Id)
  /-- The rest was cut off. -/
  | cut
  /-- The `finally`, the pool still live; `raised` when `submit` has raised. -/
  | release (raised : Bool)
  /-- `ex.shutdown`. -/
  | shutdown (raised : Bool)
  /-- `_snapshots(cut)`. -/
  | snapshots (todo : List Id)
  /-- `_recheck_locked`. -/
  | recheck
  /-- `_snapshots` in the handler of `KeyboardInterrupt`. -/
  | handler (todo : List Id)
  | ended
  deriving DecidableEq, Repr

/-- `_pool_live`. -/
def Pc.live : Pc → Bool
  | shutdown _ | snapshots _ | recheck | handler _ | ended => false
  | _ => true

/-- The parent of a parallel run. -/
structure Parent where
  /-- The number of entries. -/
  size : Nat
  sched : Sched
  /-- The entries of the futures that were not collected, in the order of their submission. -/
  running : List Id
  future : Id → Option Future
  /-- `_signals_seen`. -/
  signals : Nat
  poolBroken : Bool
  /-- The targets started, in their order. -/
  started : List Id
  /-- Whether the pool broke while some started target had not delivered. -/
  cutOff : Bool
  /-- `self.stop`. -/
  stop : Option Stop
  pc : Pc

/-- What happens to the parent of a parallel run. -/
inductive Event
  | advance
  /-- `wait` returns these futures. -/
  | waitReturns (done : List Id)
  /-- A worker delivers. -/
  | delivers (i : Id) (d : Delivered)
  /-- The executor sees a dead worker. -/
  | breaks
  /-- A signal; `inside` when it arrives while a snapshot is being read. -/
  | signal (inside : Bool)
  /-- `_recheck` of a `locked` skip. -/
  | recheck (i : Id) (provisioning : Bool) (msg : String)

namespace Parent

variable (p : Parent)

/-- `_run_parallel` is entered with the entries of a target list. -/
def start (size : Nat) (s : Sched) : Parent :=
  ⟨size, s, [], fun _ => none, 0, false, [], false, none, .top⟩

/-- `_hard`. -/
def hard : Bool := decide (2 ≤ p.signals)

/-- `_settle`: the running entries get a kind and a reason, the unstarted ones are not run. -/
def settle (kind : EntryKind) (reason : EntryReason) (msg : String) : Sched :=
  let stopText := (p.stop.map Stop.text).getD "error"
  { p.sched with
    entry := fun i =>
      let e := p.sched.entry i
      if i < p.size ∧ e.kind = .running then { e with kind := kind, reason := reason, msg := msg }
      else if i < p.size ∧ e.kind = .notRun ∧ e.reason = .unset then
        e.leave .stopped (s!"not run (Stop: {stopText})")
      else e }

/-- A snapshot is asked for. -/
def snap (i : Id) : Sched :=
  { p.sched with entry := Function.update p.sched.entry i { p.sched.entry i with snapshot := true } }

/-- The text of an entry that was cut off. -/
def cutMsg : String :=
  if p.hard then "interrupted (hard stop)"
  else "interrupted: a pool worker died (BrokenProcessPool)"

/-- `e.kind, e.reason, e.msg = "interrupted", Reason.HARD_STOP, msg`. -/
def interrupt (msg : String) (e : Entry) : Entry :=
  { e with kind := .interrupted, reason := .hardStop, msg := msg }

/-- After the break: the stage stops, and what is left in flight is interrupted. -/
def cutRunning : Sched :=
  let halted := p.sched.halt ⟨if p.hard then .hardStop else .brokenPool, none⟩ true
  { halted with entry := writeAll halted.entry p.running (interrupt p.cutMsg) }

/-- The handler of `KeyboardInterrupt` in `handle`. -/
def interrupted : Parent :=
  let p' := { p with stop := some ⟨.hardStop, none⟩, signals := p.signals + 1 }
  { p' with
    sched := p'.settle .interrupted .hardStop "interrupted (hard stop)"
    pc := .handler ((List.range p.size).filter fun i => (p.sched.entry i).kind = .running) }

/-- `f"{type(exc).__name__}: {exc}"` of what `submit` raises. -/
def brokenMsg : String :=
  "BrokenProcessPool: A child process terminated abruptly, the process pool is not usable anymore"

/-- The handler of any other exception in `handle`, after the `finally` of `_run`. -/
def failed : Parent :=
  let p' := { p with stop := p.sched.stage.stop }
  { p' with sched := p'.settle (.of .failed) (.of .migrationError) brokenMsg
            pc := .ended }

/-- The parent advances. -/
def advance (jobs perShard : Int) : Option Parent :=
  match p.pc with
  | .top => some { p with sched := p.sched.drain p.signals, pc := .fill }
  | .fill =>
    match p.sched.stage.next jobs perShard with
    | some (i, st) =>
      some { p with sched := Sched.markRunning ⟨p.sched.entry, st⟩ i, started := p.started ++ [i]
                    pc := .submit i }
    | none => some { p with pc := if p.running.isEmpty then .release false else .wait }
  | .submit i =>
    if p.poolBroken then some { p with pc := .release true }
    else some { p with future := Function.update p.future i (some .pending)
                       running := p.running ++ [i], pc := .fill }
  | .wait => none
  | .collect [] broken => some { p with pc := if broken then .rescue p.running else .top }
  | .collect (i :: rest) broken =>
    match p.future i with
    | some .broken => some { p with pc := .collect rest true }
    | some (.delivered d) =>
      some { p with running := p.running.erase i, sched := p.sched.finish i d
                    pc := .collect rest broken }
    | _ => none
  | .rescue [] => some { p with pc := .cut }
  | .rescue (i :: rest) =>
    match p.future i with
    | some (.delivered (.result res)) =>
      some { p with running := p.running.erase i, sched := p.sched.finish i (.result res)
                    pc := .rescue rest }
    | _ => some { p with pc := .rescue rest }
  | .cut => some { p with sched := p.cutRunning, pc := .release false }
  | .release raised => some { p with pc := .shutdown raised }
  | .shutdown raised => if raised then some p.failed else some { p with pc := .snapshots p.running }
  | .snapshots [] => some { p with stop := p.sched.stage.stop, pc := .recheck }
  | .snapshots (i :: rest) => some { p with sched := p.snap i, pc := .snapshots rest }
  | .recheck => some { p with pc := .ended }
  | .handler [] => some { p with pc := .ended }
  | .handler (i :: rest) => some { p with sched := p.snap i, pc := .handler rest }
  | .ended => none

/-- A dead worker breaks the pool. -/
def breakPool : Parent :=
  { p with
    poolBroken := true
    future := fun i => if p.future i = some .pending then some .broken else p.future i
    cutOff := p.cutOff || p.started.any fun i => !Future.isDelivered (p.future i) }

/-- A second signal while the pool is not live raises `KeyboardInterrupt`; inside a snapshot it
only skips the rest of them. -/
def keyboardInterrupt (inside : Bool) : Option Parent :=
  match p.pc with
  | .shutdown _ | .recheck => some p.interrupted
  | .snapshots todo =>
    match inside, todo with
    | true, i :: _ => some { p with sched := p.snap i, signals := p.signals + 1, pc := .snapshots [] }
    | _, _ => some p.interrupted
  | _ => none

/-- `_on_signal`. -/
def onSignal (inside : Bool) : Option Parent :=
  if p.signals = 0 then some { p with signals := 1 }
  else if p.pc.live then some { p with signals := p.signals + 1 }
  else p.keyboardInterrupt inside

/-- `_recheck`. -/
def recheckEntry (i : Id) (provisioning : Bool) (msg : String) : Sched :=
  let reason : EntryReason := if provisioning then .provisioningElsewhere else .doneByAnotherRun
  { p.sched with
    entry := Function.update p.sched.entry i
      { p.sched.entry i with kind := .of .ok, reason := reason, msg := msg, rechecked := true } }

/-- One event. -/
def step (jobs perShard : Int) : Event → Option Parent
  | .advance => p.advance jobs perShard
  | .waitReturns done =>
    if p.pc = .wait ∧ done.Nodup ∧ (∀ i ∈ done, i ∈ p.running ∧ p.future i ≠ some .pending) then
      some { p with pc := .collect done false }
    else none
  | .delivers i d =>
    if p.future i = some .pending ∧ p.poolBroken = false then
      some { p with future := Function.update p.future i (some (.delivered d)) }
    else none
  | .breaks =>
    if p.poolBroken = false ∧ (p.started.any fun i => (p.future i).isSome) then some p.breakPool
    else none
  | .signal inside => p.onSignal inside
  | .recheck i provisioning msg =>
    if p.pc = .recheck ∧ i < p.size ∧ (p.sched.entry i).kind = .of .skipped ∧
        (p.sched.entry i).reason = .of .locked then
      some { p with sched := p.recheckEntry i provisioning msg }
    else none

/-- The targets in the parent's hands: submitted and not collected, or about to be submitted. -/
def flight : List Id :=
  match p.pc with
  | .submit i => p.running ++ [i]
  | _ => p.running

end Parent

end MtShards.Scheduler
