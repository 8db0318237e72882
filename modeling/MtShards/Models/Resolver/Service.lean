import MtShards.Core.Solo
import MtShards.Models.Tenant.Snapshot

/-!
# The resolve service

`tenants.resolver.service` with `throttle`: the cached path in front of the database lookup.
What the cache, the registry and the database answer is left open, so that every content, every
budget and every failure is covered; the coalescing of concurrent calls within one process is
state. Calls run in any number of threads.
-/

namespace MtShards.Service

open MtShards.Core

/-- A hostname. -/
abbrev Host := String

/-- What `cache.get` finds under a host-snap key. -/
inductive Raw
  | absent
  | tombstone
  | negative
  | snapshot (t : TenantSnapshot)
  /-- It has the two halves of a snapshot, and `load` does not understand them. -/
  | malformed
  /-- Anything else. -/
  | corrupt
  deriving DecidableEq, Repr

/-- The classes of exceptions that the source tells apart. -/
inductive Exn
  | notFound
  | resolveDeferred
  | operationalError
  | redisError
  /-- Any other `Exception`. -/
  | other (typeName : String)
  /-- A `BaseException` that is no `Exception`. -/
  | controlFlow
  deriving DecidableEq, Repr

/-- How a call of a resolver ends. -/
abbrev Outcome := Except Exn TenantSnapshot

/-- The slot of a flight: its host, and once the event is set, what the leader shared. -/
structure Slot where
  host : Host
  ended : Option (Option Outcome)

/-- `_inflight` and the slots, by the order of their creation. -/
structure Flights where
  inflight : Host → Option Nat
  slot : Nat → Slot
  created : Nat

/-- What `single_flight` finds under its lock. -/
inductive Joined
  | leader (n : Nat)
  | follower (n : Nat)
  deriving DecidableEq, Repr

/-- What `slot["event"].wait` answers. -/
inductive Waited
  | timedOut
  /-- With the shared result or exception, if the leader came to one. -/
  | ended (shared : Option Outcome)
  deriving Repr

/-- A request. -/
inductive Req
  /-- `db_resolver()`. -/
  | dbResolver (h : Host)
  | cacheGet (h : Host)
  /-- `EXISTS` and `SISMEMBER` on `treg:hosts`. -/
  | hostsPipeline (h : Host)
  /-- The body of `trigger_warm`. -/
  | warm
  /-- `INCR treg:probe:<second>`. -/
  | incrProbe
  | expireProbe
  /-- `_LocalBucket.allow`. -/
  | localBucket
  | setHostSnap (h : Host) (t : TenantSnapshot)
  | setSchemaSnap (schema : SchemaName) (t : TenantSnapshot)
  | setNegative (h : Host)
  /-- The slot is looked up, or made, under `_inflight_lock`. -/
  | join (h : Host)
  /-- `_inflight.pop(key, None)`. -/
  | pop (h : Host)
  /-- `slot["event"].set()`, with what the slot holds by then. -/
  | setEvent (n : Nat) (shared : Option Outcome)
  | wait (n : Nat)
  /-- `resolve` is over: the caller has its outcome. -/
  | respond (h : Host) (r : Outcome)

/-- What a request answers. -/
@[reducible] def Req.Ans : Req → Type
  | dbResolver _ => TenantSnapshot
  | cacheGet _ => Raw
  | hostsPipeline _ => Bool × Bool
  | incrProbe => Nat
  | localBucket | setHostSnap _ _ | setSchemaSnap _ _ | setNegative _ => Bool
  | join _ => Joined
  | wait _ => Waited
  | warm | expireProbe | pop _ | setEvent _ _ | respond _ _ => Unit

/-- A program of the service. -/
abbrev Prog := Program Req Req.Ans Exn

/-- Issue one request and return its answer. -/
def call (op : Req) : Prog op.Ans := Program.request op

/-- The settings that are read. -/
structure Settings where
  warmEnabled : Bool
  /-- `GATE_ENABLED`, as it is set. -/
  gateSet : Bool
  positiveCacheSeconds : Nat
  missCacheSeconds : Nat
  fillCapPerSec : Nat

/-- `resolve_cache.enabled`. -/
def Settings.enabled (cfg : Settings) : Bool :=
  cfg.warmEnabled || cfg.positiveCacheSeconds ≠ 0 || cfg.missCacheSeconds ≠ 0

/-- `host_registry.gate_enabled`. -/
def Settings.gateEnabled (cfg : Settings) : Bool := cfg.gateSet && cfg.warmEnabled

/-- What `get_snapshot` returns. -/
inductive Snap
  | miss
  | neg
  | found (t : TenantSnapshot)
  deriving DecidableEq, Repr

/-- `get_snapshot`, with `_classify` and `load`. -/
def getSnapshot (h : Host) : Prog Snap := do
  match ← call (.cacheGet h) with
  | .snapshot t => pure (.found t)
  | .malformed => Program.raise (.other "KeyError")
  | .negative => pure .neg
  | .absent | .tombstone | .corrupt => pure .miss

/-- The verdicts of `check`. -/
inductive Verdict
  | member
  | nonmember
  | unknown
  deriving DecidableEq, Repr

/-- `check`. -/
def check (h : Host) : Prog Verdict := do
  match ← (call (.hostsPipeline h)).attempt with
  | .error .redisError => pure .unknown
  | .error e => Program.raise e
  | .ok (existing, isMember) =>
    if existing = false then pure .unknown
    else if isMember then pure .member else pure .nonmember

/-- `trigger_warm`: every exception is swallowed. -/
def triggerWarm (cfg : Settings) : Prog Unit :=
  if cfg.warmEnabled = false then pure ()
  else do
    let _ ← (call .warm).attempt
    pure ()

/-- `fill_cap.allow`. -/
def allow (cfg : Settings) : Prog Bool := do
  let counted ← Program.attempt (do
    let n ← call .incrProbe
    call .expireProbe
    pure (decide (n ≤ cfg.fillCapPerSec)))
  match counted with
  | .ok b => pure b
  | .error .redisError => call .localBucket
  | .error e => Program.raise e

/-- `put`. -/
def put (cfg : Settings) (h : Host) (t : TenantSnapshot) : Prog Bool :=
  if cfg.warmEnabled = false ∧ cfg.positiveCacheSeconds = 0 then pure false
  else do
    let filled ← call (.setHostSnap h t)
    let _ ← call (.setSchemaSnap t.schemaName t)
    pure filled

/-- `store_miss`. -/
def storeMiss (cfg : Settings) (h : Host) : Prog Unit :=
  if cfg.missCacheSeconds = 0 then pure () else (call (.setNegative h)).void

/-- `_fill`. -/
def fill (cfg : Settings) (h : Host) : Prog TenantSnapshot := do
  match ← (call (.dbResolver h)).attempt with
  | .error .notFound => do
    storeMiss cfg h
    Program.raise .notFound
  | .error e => Program.raise e
  | .ok t => do
    let _ ← put cfg h t
    pure t

/-- What the leader of a flight leaves in the slot: only an `Exception` is shared. -/
def shared : Outcome → Option Outcome
  | .error .controlFlow => none
  | r => some r

/-- `single_flight`. -/
def singleFlight (h : Host) (resolver : Prog TenantSnapshot) : Prog TenantSnapshot := do
  match ← call (.join h) with
  | .leader n => do
    let r ← resolver.attempt
    call (.pop h)
    call (.setEvent n (shared r))
    .done r
  | .follower n =>
    match ← call (.wait n) with
    | .timedOut => resolver
    | .ended (some r) => .done r
    | .ended none => resolver

/-- `_via_cache`. -/
def viaCache (cfg : Settings) (h : Host) : Prog TenantSnapshot := do
  match ← getSnapshot h with
  | .neg => Program.raise .notFound
  | .found t => pure t
  | .miss =>
    if cfg.gateEnabled then
      match ← check h with
      | .nonmember => Program.raise .notFound
      | .unknown => do
        triggerWarm cfg
        if ← allow cfg then singleFlight h (fill cfg h) else Program.raise .resolveDeferred
      | .member => singleFlight h (fill cfg h)
    else singleFlight h (fill cfg h)

/-- `resolve`. -/
def resolve (cfg : Settings) (h : Host) : Prog TenantSnapshot :=
  if cfg.enabled = false ∧ cfg.gateEnabled = false then call (.dbResolver h)
  else do
    match ← (viaCache cfg h).attempt with
    | .ok t => pure t
    | .error .redisError => call (.dbResolver h)
    | .error (.other _) => call (.dbResolver h)
    | .error e => Program.raise e

/-- A call of `resolve`, and its caller. -/
def serve (cfg : Settings) (h : Host) : Prog Unit := do
  let r ← (resolve cfg h).attempt
  call (.respond h r)

/-! ### Threads -/

/-- The exceptions that a request may raise: the lookup any, the caches and the gate a
`RedisError` or another one that is neither the database's nor the service's own. -/
def Req.Raises : Req → Exn → Prop
  | dbResolver _, _ => True
  | join _, _ | pop _, _ | setEvent _ _, _ | wait _, _ | respond _ _, _ => False
  | _, e => e = .redisError ∨ ∃ typeName, e = .other typeName

/-- What a request does to the flights, with its answer. -/
def Req.Acts (f : Flights) : (op : Req) → op.Ans → Flights → Prop
  | join h, a, f' =>
    match f.inflight h with
    | some n => a = .follower n ∧ f' = f
    | none => a = .leader f.created ∧ f' = { f with
        inflight := Function.update f.inflight h (some f.created)
        slot := Function.update f.slot f.created ⟨h, none⟩
        created := f.created + 1 }
  | pop h, _, f' => f' = { f with inflight := Function.update f.inflight h none }
  | setEvent n s, _, f' => f' = { f with
      slot := Function.update f.slot n { f.slot n with ended := some s } }
  | wait n, a, f' => f' = f ∧ match (f.slot n).ended with
      | some s => a = .ended s
      | none => a = .timedOut
  | _, _, f' => f' = f

/-- Threads over the flights of one process. -/
def machine : Machine Nat Req Req.Ans Exn Flights where
  exec _ op f r f' := match r with
    | .ok a => op.Acts f a f'
    | .error e => op.Raises e ∧ f' = f
  inner _ _ _ _ := False
  env _ _ := False
  kill _ _ _ := False

/-- A thread serves one host after another. -/
def Starts (cfg : Settings) (_ : Nat) (prog : Prog Unit) : Prop := ∃ h, prog = serve cfg h

/-- No flight has been made. -/
def Flights.none : Flights := ⟨fun _ => .none, fun _ => ⟨"", .none⟩, 0⟩

/-- A step of a trace. -/
abbrev Event := Entry Nat Req Req.Ans Exn Flights

/-- A run of the service. -/
abbrev SysRun (cfg : Settings) (t : List Event) (c : Config Nat Req Req.Ans Exn Flights) : Prop :=
  Run machine (Starts cfg) (.idle .none) t c

/-! ### One call on its own -/

/-- The log of one call, newest request first. -/
abbrev Log := List (Taken Req Req.Ans Exn Unit)

/-- The call has issued a request and got an answer. -/
def Took (l : Log) (op : Req) (r : Except Exn op.Ans) : Prop :=
  (⟨op, r, (), ()⟩ : Taken Req Req.Ans Exn Unit) ∈ l

/-- What the lookup of a host answered, if this is such a request. -/
def dbAnswer (h : Host) : Taken Req Req.Ans Exn Unit → Option Outcome
  | ⟨.dbResolver h', r, _, _⟩ => if h' = h then some r else none
  | _ => none

/-- How the last lookup of the call ended. -/
def lastDb (h : Host) (l : Log) : Option Outcome := l.findSome? (dbAnswer h)

/-- The verdict was UNKNOWN: the set is absent, or Redis failed. -/
def SawUnknown (l : Log) (h : Host) : Prop :=
  (∃ m, Took l (.hostsPipeline h) (.ok (false, m))) ∨
    Took l (.hostsPipeline h) (.error .redisError)

/-- The budget refused: the global counter is past its limit, or the local bucket is empty. -/
def SawRefusal (cfg : Settings) (l : Log) : Prop :=
  (∃ n, Took l .incrProbe (.ok n) ∧ cfg.fillCapPerSec < n) ∨ Took l .localBucket (.ok false)

/-- Where the outcome of a call comes from; `Shared` says which outcomes a flight may hand over. -/
inductive Explained (cfg : Settings) (h : Host) (Shared : Outcome → Prop) (l : Log) : Outcome → Prop
  /-- The cached positive. -/
  | cached {t : TenantSnapshot} : Took l (.cacheGet h) (.ok (.snapshot t)) →
      Explained cfg h Shared l (.ok t)
  /-- Its own last lookup. -/
  | looked {r : Outcome} : lastDb h l = some r → Explained cfg h Shared l r
  /-- A flight it joined. -/
  | joined {r : Outcome} : lastDb h l = none → Shared r → Explained cfg h Shared l r
  /-- A cached miss. -/
  | negative : lastDb h l = none → Took l (.cacheGet h) (.ok .negative) →
      Explained cfg h Shared l (.error .notFound)
  /-- The gate knows that there is no such host. -/
  | nonmember : lastDb h l = none → cfg.gateEnabled = true →
      Took l (.hostsPipeline h) (.ok (true, false)) → Explained cfg h Shared l (.error .notFound)
  /-- The gate cannot tell, and the budget is spent. -/
  | deferred : lastDb h l = none → cfg.gateEnabled = true → SawUnknown l h → SawRefusal cfg l →
      Explained cfg h Shared l (.error .resolveDeferred)

/-- An outcome of the cached path that `resolve` hands on. -/
def Final : Outcome → Prop
  | .error .redisError | .error (.other _) => False
  | _ => True

/-- The call waited for a flight of the host, which ended so. -/
def Flew (h : Host) (l : Log) (r : Outcome) : Prop :=
  Final r ∧ ∃ n, Took l (.join h) (.ok (.follower n)) ∧ Took l (.wait n) (.ok (.ended (some r)))

/-- Any answer, and the exceptions that a request may raise. -/
def fair : Semantics Req Req.Ans Exn Unit := fun op _ r _ => ∀ e, r = .error e → op.Raises e

/-- What the newest request of a log says about the ones before it. -/
def Sound (cfg : Settings) : Log → Unit → Prop
  | ⟨.respond h r, _, _, _⟩ :: l, _ => Explained cfg h (Flew h l) l r
  | ⟨.setEvent n s, _, _, _⟩ :: l, _ => ∃ h, Took l (.join h) (.ok (.leader n)) ∧
      ∀ r, s = some r → Final r → lastDb h l = some r
  | ⟨.setNegative h, _, _, _⟩ :: l, _ =>
      ∃ before, l = ⟨.dbResolver h, .error .notFound, (), ()⟩ :: before
  | _, _ => True

section Call

variable {cfg : Settings} {h : Host} {l l' : Log}

/-- What a call has taken it has taken in a longer log. -/
theorem Took.mono {op : Req} {r : Except Exn op.Ans} (ht : Took l op r) (hl : l <:+ l') :
    Took l' op r := hl.subset ht

/-- An exception of a cache or of the gate is not final. -/
theorem not_final_of_raises {op : Req} {e : Exn} (he : op.Raises e)
    (hop : ∀ h, op ≠ .dbResolver h) : ¬ Final (.error e) := by
  cases op with
  | dbResolver h => exact absurd rfl (hop h)
  | join h | pop h | setEvent n s | wait n | respond h r => exact he.elim
  | _ =>
    rcases he with rfl | ⟨typeName, rfl⟩
    · exact id
    · exact id

/-- A lookup that has just ended is the last one. -/
theorem lastDb_cons_db (h : Host) (r : Outcome) (l : Log) :
    lastDb h (⟨.dbResolver h, r, (), ()⟩ :: l) = some r := by
  simp [lastDb, dbAnswer]

private theorem put_ensures {t : TenantSnapshot} (hdb : lastDb h l = some (.ok t)) :
    (put cfg h t).Ensures fair (Sound cfg) l () fun l' _ r =>
      l <:+ l' ∧ lastDb h l' = some (.ok t) ∧ ∀ e, r = .error e → ¬ Final (.error e) := by
  unfold put
  split
  · exact ⟨List.suffix_rfl, hdb, nofun⟩
  · intro r₁ _ hr₁
    refine ⟨trivial, ?_⟩
    cases r₁ with
    | error e =>
      refine ⟨List.suffix_cons _ l, hdb, ?_⟩
      rintro _ ⟨⟩
      exact not_final_of_raises (hr₁ e rfl) nofun
    | ok filled =>
      intro r₂ _ hr₂
      refine ⟨trivial, ?_⟩
      have hmore : l <:+ ⟨.setSchemaSnap t.schemaName t, r₂, (), ()⟩ ::
          ⟨.setHostSnap h t, .ok filled, (), ()⟩ :: l :=
        (List.suffix_cons _ l).trans (List.suffix_cons _ _)
      cases r₂ with
      | error e =>
        refine ⟨hmore, hdb, ?_⟩
        rintro _ ⟨⟩
        exact not_final_of_raises (hr₂ e rfl) nofun
      | ok b => exact ⟨hmore, hdb, nofun⟩

/-- What `_fill` leaves: its lookup, and that lookup's outcome if the outcome is final. -/
def Filled (h : Host) (l l' : Log) (r : Outcome) : Prop :=
  l <:+ l' ∧ ∃ d, lastDb h l' = some d ∧ (Final r → r = d)

/-- `_fill` leaves its lookup, and that lookup's outcome if the outcome is final. -/
theorem fill_ensures (l : Log) :
    (fill cfg h).Ensures fair (Sound cfg) l () fun l' _ r => Filled h l l' r := by
  unfold fill
  rw [Program.ensures_bind, Program.ensures_attempt]
  intro d _ _
  refine ⟨trivial, ?_⟩
  rw [Program.ensures_done, Program.onOutcome_ok]
  have hdb := lastDb_cons_db h d l
  have hstep : l <:+ ⟨.dbResolver h, d, (), ()⟩ :: l := List.suffix_cons _ l
  have hraised : ∀ e, d = .error e → Filled h l (⟨.dbResolver h, d, (), ()⟩ :: l) (.error e) := by
    rintro e rfl
    exact ⟨hstep, .error e, hdb, fun _ => rfl⟩
  cases d with
  | ok t =>
    rw [Program.ensures_bind]
    refine (put_ensures hdb).mono ?_
    rintro l' _ r ⟨hmore, hlast, hsoft⟩
    cases r with
    | ok b => exact ⟨hstep.trans hmore, .ok t, hlast, fun _ => rfl⟩
    | error e => exact ⟨hstep.trans hmore, .ok t, hlast, fun hf => absurd hf (hsoft e rfl)⟩
  | error e =>
    cases e with
    | notFound =>
      rw [Program.ensures_bind]
      unfold storeMiss
      split
      · exact hraised .notFound rfl
      · intro r _ hr
        refine ⟨⟨l, rfl⟩, ?_⟩
        have hmore := hstep.trans (List.suffix_cons ⟨.setNegative h, r, (), ()⟩ _)
        cases r with
        | ok b => exact ⟨hmore, .error .notFound, hdb, fun _ => rfl⟩
        | error e =>
          refine ⟨hmore, .error .notFound, hdb, fun hf => ?_⟩
          exact absurd hf (not_final_of_raises (hr e rfl) nofun)
    | resolveDeferred => exact hraised _ rfl
    | operationalError => exact hraised _ rfl
    | redisError => exact hraised _ rfl
    | other typeName => exact hraised _ rfl
    | controlFlow => exact hraised _ rfl

/-- What `single_flight` leaves, if the outcome is final: its own lookup, or the flight that it
joined. -/
def Flown (h : Host) (l' : Log) (r : Outcome) : Prop :=
  Final r → lastDb h l' = some r ∨ lastDb h l' = none ∧ Flew h l' r

/-- What `_fill` leaves a leader may end its flight with. -/
theorem Filled.flown {r : Outcome} (hf : Filled h l l' r) : Flown h l' r := by
  obtain ⟨-, d, hlast, hd⟩ := hf
  intro hr
  rw [hd hr]
  exact .inl hlast

/-- What is shared with the followers is the outcome. -/
theorem eq_of_shared {r r' : Outcome} (hs : shared r = some r') : r' = r := by
  unfold shared at hs
  split at hs
  · cases hs
  · exact (Option.some.inj hs).symm

private theorem singleFlight_ensures (hnone : lastDb h l = none) :
    (singleFlight h (fill cfg h)).Ensures fair (Sound cfg) l () fun l' _ r =>
      l <:+ l' ∧ Flown h l' r := by
  unfold singleFlight
  rw [Program.ensures_bind]
  intro a _ ha
  refine ⟨trivial, ?_⟩
  have hjoin : l <:+ ⟨.join h, a, (), ()⟩ :: l := List.suffix_cons _ l
  cases a with
  | error e => exact (ha e rfl).elim
  | ok joined =>
    cases joined with
    | leader n =>
      rw [Program.ensures_done, Program.onOutcome_ok, Program.ensures_bind,
        Program.ensures_attempt]
      refine (fill_ensures _).mono ?_
      rintro l₁ _ r ⟨hmore, d, hlast, hd⟩
      rw [Program.onOutcome_ok, Program.ensures_bind]
      intro b _ hb
      refine ⟨trivial, ?_⟩
      cases b with
      | error e => exact (hb e rfl).elim
      | ok _ =>
        rw [Program.ensures_done, Program.onOutcome_ok, Program.ensures_bind]
        intro c _ hc
        refine ⟨⟨h, ?_, ?_⟩, ?_⟩
        · exact List.mem_cons_of_mem _ (hmore.subset List.mem_cons_self)
        · intro r' hr' hfinal
          obtain rfl := eq_of_shared hr'
          rw [hd hfinal]
          exact hlast
        · cases c with
          | error e => exact (hc e rfl).elim
          | ok _ =>
            refine ⟨?_, ?_⟩
            · exact ((hjoin.trans hmore).trans (List.suffix_cons _ _)).trans (List.suffix_cons _ _)
            · intro hfinal
              rw [hd hfinal]
              exact .inl hlast
    | follower n =>
      rw [Program.ensures_done, Program.onOutcome_ok, Program.ensures_bind]
      intro b _ hb
      refine ⟨trivial, ?_⟩
      have hwait := hjoin.trans (List.suffix_cons ⟨.wait n, b, (), ()⟩ _)
      have hself : (fill cfg h).Ensures fair (Sound cfg)
          (⟨.wait n, b, (), ()⟩ :: ⟨.join h, .ok (.follower n), (), ()⟩ :: l) () fun l' _ r =>
            l <:+ l' ∧ Flown h l' r :=
        (fill_ensures _).mono fun l' _ r hf => ⟨hwait.trans hf.1, hf.flown⟩
      cases b with
      | error e => exact (hb e rfl).elim
      | ok waited =>
        cases waited with
        | timedOut => exact hself
        | ended s =>
          cases s with
          | none => exact hself
          | some r =>
            refine ⟨hwait, ?_⟩
            intro hfinal
            refine .inr ⟨hnone, hfinal, n, ?_, List.mem_cons_self⟩
            exact List.mem_cons_of_mem _ List.mem_cons_self

/-- The flight explains the outcome. -/
theorem Flown.explained {r : Outcome} (hf : Flown h l r) (hr : Final r) :
    Explained cfg h (Flew h l) l r := by
  rcases hf hr with hlast | ⟨hnone, hflew⟩
  · exact .looked hlast
  · exact .joined hnone hflew

/-- The call went on without a lookup. -/
def Aside (h : Host) (l l' : Log) : Prop := l <:+ l' ∧ lastDb h l' = none

/-- A request that is no lookup leaves the call without one. -/
theorem Aside.cons (hnone : lastDb h l = none) {x : Taken Req Req.Ans Exn Unit}
    (hx : dbAnswer h x = none) : Aside h l (x :: l) := by
  refine ⟨List.suffix_cons x l, ?_⟩
  simp only [lastDb, List.findSome?_cons, hx]
  exact hnone

/-- A call without a lookup goes on without one. -/
theorem Aside.trans {l'' : Log} (h₁ : Aside h l l') (h₂ : Aside h l' l'') : Aside h l l'' :=
  ⟨h₁.1.trans h₂.1, h₂.2⟩

private theorem getSnapshot_ensures (hnone : lastDb h l = none) :
    (getSnapshot h).Ensures fair (Sound cfg) l () fun l' _ r => Aside h l l' ∧ match r with
      | .ok (.found t) => Took l' (.cacheGet h) (.ok (.snapshot t))
      | .ok .neg => Took l' (.cacheGet h) (.ok .negative)
      | .ok .miss => True
      | .error e => ¬ Final (.error e) := by
  unfold getSnapshot
  rw [Program.ensures_bind]
  intro a _ ha
  refine ⟨trivial, ?_⟩
  have haside : Aside h l (⟨.cacheGet h, a, (), ()⟩ :: l) := .cons hnone rfl
  cases a with
  | error e => exact ⟨haside, not_final_of_raises (ha e rfl) nofun⟩
  | ok raw =>
    cases raw with
    | absent | tombstone | corrupt => exact ⟨haside, trivial⟩
    | negative => exact ⟨haside, List.mem_cons_self⟩
    | snapshot t => exact ⟨haside, List.mem_cons_self⟩
    | malformed => exact ⟨haside, id⟩

private theorem check_ensures (hnone : lastDb h l = none) :
    (check h).Ensures fair (Sound cfg) l () fun l' _ r => Aside h l l' ∧ match r with
      | .ok .nonmember => Took l' (.hostsPipeline h) (.ok (true, false))
      | .ok .unknown => SawUnknown l' h
      | .ok .member => True
      | .error e => ¬ Final (.error e) := by
  unfold check
  rw [Program.ensures_bind, Program.ensures_attempt]
  intro a _ ha
  refine ⟨trivial, ?_⟩
  rw [Program.ensures_done, Program.onOutcome_ok]
  have haside : Aside h l (⟨.hostsPipeline h, a, (), ()⟩ :: l) := .cons hnone rfl
  cases a with
  | error e =>
    have he := not_final_of_raises (ha e rfl) nofun
    cases e with
    | redisError => exact ⟨haside, .inr List.mem_cons_self⟩
    | notFound | resolveDeferred | operationalError | controlFlow => exact (he trivial).elim
    | other typeName => exact ⟨haside, id⟩
  | ok answer =>
    obtain ⟨existing, isMember⟩ := answer
    cases existing with
    | false => exact ⟨haside, .inl ⟨isMember, List.mem_cons_self⟩⟩
    | true =>
      cases isMember with
      | false => exact ⟨haside, List.mem_cons_self⟩
      | true => exact ⟨haside, trivial⟩

private theorem triggerWarm_ensures (hnone : lastDb h l = none) :
    (triggerWarm cfg).Ensures fair (Sound cfg) l () fun l' _ r => Aside h l l' ∧ r = .ok () := by
  unfold triggerWarm
  split
  · exact ⟨⟨List.suffix_rfl, hnone⟩, rfl⟩
  · rw [Program.ensures_bind, Program.ensures_attempt]
    intro a _ _
    exact ⟨trivial, .cons hnone rfl, rfl⟩

private theorem allow_ensures (hnone : lastDb h l = none) :
    (allow cfg).Ensures fair (Sound cfg) l () fun l' _ r => Aside h l l' ∧ match r with
      | .ok true => True
      | .ok false => SawRefusal cfg l'
      | .error e => ¬ Final (.error e) := by
  have hlocal : ∀ l', Aside h l l' → (call .localBucket).Ensures fair (Sound cfg) l' ()
      fun l'' _ r => Aside h l l'' ∧ match r with
        | .ok true => True
        | .ok false => SawRefusal cfg l''
        | .error e => ¬ Final (.error e) := by
    intro l' hl' b _ hb
    refine ⟨trivial, hl'.trans (.cons hl'.2 rfl), ?_⟩
    rcases b with e | _ | _
    · exact not_final_of_raises (hb e rfl) nofun
    · exact .inr List.mem_cons_self
    · trivial
  -- an exception of the counter: Redis is away, or a bug
  have hfailed : ∀ l' e, Aside h l l' → ¬ Final (.error e) →
      (match (.error e : Except Exn Bool) with
        | .ok b => pure b
        | .error .redisError => call .localBucket
        | .error e => Program.raise e : Prog Bool).Ensures fair (Sound cfg) l' ()
      fun l'' _ r => Aside h l l'' ∧ match r with
        | .ok true => True
        | .ok false => SawRefusal cfg l''
        | .error e => ¬ Final (.error e) := by
    intro l' e hl' he
    cases e with
    | redisError => exact hlocal l' hl'
    | notFound | resolveDeferred | operationalError | controlFlow => exact (he trivial).elim
    | other typeName => exact ⟨hl', id⟩
  unfold allow
  rw [Program.ensures_bind, Program.ensures_attempt, Program.ensures_bind]
  intro a _ ha
  refine ⟨trivial, ?_⟩
  have hcounted : Aside h l (⟨.incrProbe, a, (), ()⟩ :: l) := .cons hnone rfl
  cases a with
  | error e => exact hfailed _ e hcounted (not_final_of_raises (ha e rfl) nofun)
  | ok n =>
    rw [Program.ensures_done, Program.onOutcome_ok, Program.ensures_bind]
    intro b _ hb
    refine ⟨trivial, ?_⟩
    have hexpired : Aside h l (⟨.expireProbe, b, (), ()⟩ :: ⟨.incrProbe, .ok n, (), ()⟩ :: l) :=
      hcounted.trans (.cons hcounted.2 rfl)
    cases b with
    | error e => exact hfailed _ e hexpired (not_final_of_raises (hb e rfl) nofun)
    | ok _ =>
      refine ⟨hexpired, ?_⟩
      by_cases hn : n ≤ cfg.fillCapPerSec
      · rw [decide_eq_true hn]
        trivial
      · rw [decide_eq_false hn]
        exact .inl ⟨n, List.mem_cons_of_mem _ List.mem_cons_self, Nat.lt_of_not_le hn⟩

/-- What the cached path ends with, if it is final, is explained. -/
theorem viaCache_ensures (hnone : lastDb h l = none) :
    (viaCache cfg h).Ensures fair (Sound cfg) l () fun l' _ r =>
      Final r → Explained cfg h (Flew h l') l' r := by
  have hflight : ∀ l', lastDb h l' = none → (singleFlight h (fill cfg h)).Ensures fair (Sound cfg)
      l' () fun l'' _ r => Final r → Explained cfg h (Flew h l'') l'' r :=
    fun l' hl' => (singleFlight_ensures hl').mono fun l'' _ r hr => hr.2.explained
  unfold viaCache
  rw [Program.ensures_bind]
  refine (getSnapshot_ensures hnone).mono ?_
  rintro l₁ _ snap ⟨h₁, hsnap⟩
  rcases snap with e | _ | _ | t
  · exact fun hfinal => absurd hfinal hsnap
  · rw [Program.onOutcome_ok]
    dsimp only
    split
    · rename_i hgate
      rw [Program.ensures_bind]
      refine (check_ensures h₁.2).mono ?_
      rintro l₂ _ verdict ⟨h₂, hverdict⟩
      rcases verdict with e | _ | _ | _
      · exact fun hfinal => absurd hfinal hverdict
      · exact hflight l₂ h₂.2
      · exact fun _ => .nonmember h₂.2 hgate hverdict
      · rw [Program.onOutcome_ok, Program.ensures_bind]
        refine (triggerWarm_ensures h₂.2).mono ?_
        rintro l₃ _ _ ⟨h₃, rfl⟩
        rw [Program.onOutcome_ok, Program.ensures_bind]
        refine (allow_ensures h₃.2).mono ?_
        rintro l₄ _ allowed ⟨h₄, hallowed⟩
        rcases allowed with e | _ | _
        · exact fun hfinal => absurd hfinal hallowed
        · have hunknown : SawUnknown l₄ h := hverdict.imp
            (fun ⟨m, hm⟩ => ⟨m, (hm.mono h₃.1).mono h₄.1⟩) fun hm => (hm.mono h₃.1).mono h₄.1
          exact fun _ => .deferred h₄.2 hgate hunknown hallowed
        · exact hflight l₄ h₄.2
    · exact hflight l₁ h₁.2
  · exact fun _ => .negative h₁.2 hsnap
  · exact fun _ => .cached hsnap

/-- A lookup explains its own outcome. -/
theorem dbResolver_ensures (l : Log) :
    (call (.dbResolver h)).Ensures fair (Sound cfg) l () fun l' _ r =>
      Explained cfg h (Flew h l') l' r := by
  intro r _ _
  exact ⟨trivial, .looked (lastDb_cons_db h r l)⟩

/-- The outcome of every call is explained: what is not final is looked up again. -/
theorem resolve_ensures :
    (resolve cfg h).Ensures fair (Sound cfg) [] () fun l' _ r =>
      Explained cfg h (Flew h l') l' r := by
  unfold resolve
  split
  · exact dbResolver_ensures []
  · rw [Program.ensures_bind, Program.ensures_attempt]
    refine (viaCache_ensures rfl).mono ?_
    intro l₁ _ r hr
    rw [Program.onOutcome_ok]
    rcases r with (_ | _ | _ | _ | typeName | _) | t
    · exact hr trivial
    · exact hr trivial
    · exact hr trivial
    · exact dbResolver_ensures l₁
    · exact dbResolver_ensures l₁
    · exact hr trivial
    · exact hr trivial

private theorem serve_ensures :
    (serve cfg h).Ensures fair (Sound cfg) [] () fun _ _ _ => True := by
  unfold serve
  rw [Program.ensures_bind, Program.ensures_attempt]
  refine resolve_ensures.mono ?_
  intro l₁ _ r hr
  rw [Program.onOutcome_ok]
  intro _ _ _
  exact ⟨hr, trivial⟩

end Call

/-! ### Calls in any number of threads -/

section Threads

variable {cfg : Settings} {t : List Event} {c c' : Config Nat Req Req.Ans Exn Flights}
  {p : Nat} {f f' : Flights}

/-- Every answer in a run is one that the request may get. -/
theorem fair_of_mem (hrun : SysRun cfg t c) :
    ∀ z ∈ answers (takenBy p t), fair z.op z.pre z.answer z.post := by
  intro z hz e he
  obtain ⟨x, hx, rfl⟩ := List.mem_map.mp hz
  have hacts := hrun.acts_of_mem (mem_of_mem_takenBy hx)
  simp only [Machine.Acts, machine] at hacts he
  rw [he] at hacts
  exact hacts.1

/-- What the newest request of a call says about the call holds in every run. -/
theorem sound_of_step {op : Req} {r : Except Exn op.Ans} (hrun : SysRun cfg t c)
    (hs : Step machine (Starts cfg) c (.answer p op r) c') :
    Sound cfg (⟨op, r, (), ()⟩ :: answers (takenBy p t)) () := by
  have hacts := hs.acts
  cases hs with
  | @answer _ _ k _ s' hcall _ =>
    rcases hrun.exec p hcall with hidle | ⟨x, ⟨h, rfl⟩, hexec⟩
    · cases hidle
    · have hensures := ((hexec.of_forall (fair_of_mem hrun)).ensures trivial serve_ensures).2
      refine (hensures r () ?_).1
      rintro e rfl
      exact hacts.1

/-- A call that led the flight ended it with what its own last lookup of the host had answered. -/
def LookedUp (t : List Event) (h : Host) (n : Nat) (r : Outcome) : Prop :=
  ∃ later e earlier q, t = later ++ e :: earlier ∧
    e.label = .answer q (.setEvent n (some r)) (.ok ()) ∧
    Took (answers (takenBy q earlier)) (.join h) (.ok (.leader n)) ∧
    lastDb h (answers (takenBy q earlier)) = some r

/-- What a leader has ended its flight with stays so in a longer run. -/
theorem LookedUp.cons {h : Host} {n : Nat} {r : Outcome} (hl : LookedUp t h n r) (e : Event) :
    LookedUp (e :: t) h n r := by
  obtain ⟨later, e', earlier, q, rfl, hended⟩ := hl
  exact ⟨e :: later, e', earlier, q, rfl, hended⟩

/-- The slot is one that the host's flights have had. -/
def Flights.Owns (f : Flights) (h : Host) (n : Nat) : Prop :=
  n < f.created ∧ (f.slot n).host = h

/-- What holds of the flights along a run. -/
structure Tracked (t : List Event) (f : Flights) : Prop where
  inflight : ∀ h n, f.inflight h = some n → f.Owns h n
  unmade : ∀ n, f.created ≤ n → (f.slot n).ended = none
  /-- What a flight ended with was looked up by its leader. -/
  ended : ∀ n r, (f.slot n).ended = some (some r) → Final r → LookedUp t (f.slot n).host n r
  leads : ∀ q h n s s', (⟨.answer q (.join h) (.ok (.leader n)), s, s'⟩ : Event) ∈ t → f.Owns h n
  follows : ∀ q h n s s', (⟨.answer q (.join h) (.ok (.follower n)), s, s'⟩ : Event) ∈ t →
    f.Owns h n
  waited : ∀ q n r s s', (⟨.answer q (.wait n) (.ok (.ended (some r))), s, s'⟩ : Event) ∈ t →
    n < f.created ∧ (Final r → LookedUp t (f.slot n).host n r)

/-- The flights are tracked before any is made. -/
theorem Tracked.start : Tracked [] .none where
  inflight _ _ hn := by cases hn
  unmade _ _ := rfl
  ended _ _ hr := by cases hr
  leads _ _ _ _ _ hmem := by cases hmem
  follows _ _ _ _ _ hmem := by cases hmem
  waited _ _ _ _ _ hmem := by cases hmem

/-- A flight that has ended was made. -/
theorem Tracked.made (ht : Tracked t f) {n : Nat} {s : Option Outcome}
    (hs : (f.slot n).ended = some s) : n < f.created := by
  by_contra hge
  rw [ht.unmade n (Nat.le_of_not_lt hge)] at hs
  cases hs

/-- The flights go on: no slot is lost or handed to another host. -/
structure Flights.Extends (f f' : Flights) : Prop where
  created : f.created ≤ f'.created
  host : ∀ n, n < f.created → (f'.slot n).host = (f.slot n).host

/-- A slot that the host's flights have had they have had later on. -/
theorem Flights.Extends.owns {h : Host} {n : Nat} (he : f.Extends f') (ho : f.Owns h n) :
    f'.Owns h n :=
  ⟨Nat.lt_of_lt_of_le ho.1 he.created, (he.host n ho.1).trans ho.2⟩

/-- A step keeps what was joined and waited for, if what it adds is as it should be. -/
theorem Tracked.step {e : Event} (ht : Tracked t f) (he : f.Extends f')
    (inflight : ∀ h n, f'.inflight h = some n → f'.Owns h n)
    (unmade : ∀ n, f'.created ≤ n → (f'.slot n).ended = none)
    (ended : ∀ n r, (f'.slot n).ended = some (some r) → (f.slot n).ended ≠ some (some r) →
      Final r → LookedUp (e :: t) (f'.slot n).host n r)
    (joins : ∀ q h a s s', e = ⟨.answer q (.join h) (.ok a), s, s'⟩ →
      ∀ n, a = .leader n ∨ a = .follower n → f'.Owns h n)
    (waits : ∀ q n r s s', e = ⟨.answer q (.wait n) (.ok (.ended (some r))), s, s'⟩ →
      (f.slot n).ended = some (some r)) :
    Tracked (e :: t) f' where
  inflight := inflight
  unmade := unmade
  ended n r hr hfinal := by
    by_cases hold : (f.slot n).ended = some (some r)
    · rw [he.host n (ht.made hold)]
      exact (ht.ended n r hold hfinal).cons e
    · exact ended n r hr hold hfinal
  leads q h n s s' hmem := by
    rcases List.mem_cons.mp hmem with hnew | hmem
    · exact joins q h _ s s' hnew.symm n (.inl rfl)
    · exact he.owns (ht.leads q h n s s' hmem)
  follows q h n s s' hmem := by
    rcases List.mem_cons.mp hmem with hnew | hmem
    · exact joins q h _ s s' hnew.symm n (.inr rfl)
    · exact he.owns (ht.follows q h n s s' hmem)
  waited q n r s s' hmem := by
    rcases List.mem_cons.mp hmem with hnew | hmem
    · have hold := waits q n r s s' hnew.symm
      have hn := ht.made hold
      refine ⟨Nat.lt_of_lt_of_le hn he.created, fun hfinal => ?_⟩
      rw [he.host n hn]
      exact (ht.ended n r hold hfinal).cons e
    · obtain ⟨hn, hlooked⟩ := ht.waited q n r s s' hmem
      refine ⟨Nat.lt_of_lt_of_le hn he.created, fun hfinal => ?_⟩
      rw [he.host n hn]
      exact (hlooked hfinal).cons e

/-- A step that leaves the flights alone. -/
theorem Tracked.quiet {e : Event} (ht : Tracked t f)
    (joins : ∀ q h a s s', e = ⟨.answer q (.join h) (.ok a), s, s'⟩ →
      ∀ n, a = .leader n ∨ a = .follower n → f.Owns h n)
    (waits : ∀ q n r s s', e = ⟨.answer q (.wait n) (.ok (.ended (some r))), s, s'⟩ →
      (f.slot n).ended = some (some r)) : Tracked (e :: t) f :=
  ht.step ⟨Nat.le_refl _, fun _ _ => rfl⟩ ht.inflight ht.unmade (fun _ _ hr hnot => absurd hr hnot)
    joins waits

/-- Joining a flight keeps the flights tracked. -/
theorem Tracked.join {h : Host} {a : Joined} (ht : Tracked t f)
    (hacts : Req.Acts f (.join h) a f') :
    Tracked (⟨.answer p (.join h) (.ok a), f, f'⟩ :: t) f' := by
  simp only [Req.Acts] at hacts
  split at hacts
  · rename_i n hn
    obtain ⟨rfl, rfl⟩ := hacts
    refine ht.quiet ?_ nofun
    rintro _ _ _ _ _ ⟨⟩ m hm
    rcases hm with hm | hm
    · cases hm
    · cases hm
      exact ht.inflight h _ hn
  · rename_i hnone
    obtain ⟨rfl, rfl⟩ := hacts
    have hextends : f.Extends { f with
        inflight := Function.update f.inflight h (some f.created)
        slot := Function.update f.slot f.created ⟨h, none⟩
        created := f.created + 1 } := by
      refine ⟨Nat.le_succ _, fun n hn => ?_⟩
      simp only [Function.update_of_ne (Nat.ne_of_lt hn)]
    have howns : ∀ h' n, h' = h → n = f.created → Flights.Owns { f with
        inflight := Function.update f.inflight h (some f.created)
        slot := Function.update f.slot f.created ⟨h, none⟩
        created := f.created + 1 } h' n := by
      rintro _ _ rfl rfl
      exact ⟨Nat.lt_succ_self _, by simp only [Function.update_self]⟩
    refine ht.step hextends ?_ ?_ ?_ ?_ nofun
    · intro h' n hn
      by_cases hh : h' = h
      · rw [hh] at hn
        simp only [Function.update_self, Option.some.injEq] at hn
        exact howns h' n hh hn.symm
      · simp only [Function.update_of_ne hh] at hn
        exact hextends.owns (ht.inflight h' n hn)
    · intro n hn
      simp only [Function.update_of_ne (Nat.ne_of_gt hn)]
      exact ht.unmade n (Nat.le_of_succ_le hn)
    · intro n r hr hnot
      by_cases hn : n = f.created
      · rw [hn] at hr
        simp only [Function.update_self] at hr
        cases hr
      · simp only [Function.update_of_ne hn] at hr
        exact absurd hr hnot
    · rintro _ _ _ _ _ ⟨⟩ m hm
      rcases hm with hm | hm
      · cases hm
        exact howns h _ rfl rfl
      · cases hm

/-- Ending a flight keeps the flights tracked. -/
theorem Tracked.setEvent {n : Nat} {s : Option Outcome} (ht : Tracked t f)
    (hsound : Sound cfg (⟨.setEvent n s, .ok (), (), ()⟩ :: answers (takenBy p t)) ())
    (hacts : Req.Acts f (.setEvent n s) () f') :
    Tracked (⟨.answer p (.setEvent n s) (.ok ()), f, f'⟩ :: t) f' := by
  obtain rfl := hacts
  obtain ⟨h, hled, hshared⟩ := hsound
  obtain ⟨z, hz, hze⟩ := List.mem_map.mp hled
  obtain ⟨op, a, s₁, s₂⟩ := z
  cases hze
  have howns := ht.leads p h n s₁ s₂ (mem_of_mem_takenBy hz)
  have hhost : ∀ m, (Function.update f.slot n { f.slot n with ended := some s } m).host =
      (f.slot m).host := by
    intro m
    by_cases hm : m = n
    · rw [hm, Function.update_self]
    · rw [Function.update_of_ne hm]
  refine ht.step ⟨Nat.le_refl _, fun m _ => hhost m⟩ ?_ ?_ ?_ nofun nofun
  · intro h' m hm
    exact ⟨(ht.inflight h' m hm).1, (hhost m).trans (ht.inflight h' m hm).2⟩
  · intro m hm
    have hne : m ≠ n := fun hmn => Nat.not_lt_of_le hm (hmn ▸ howns.1)
    simp only [Function.update_of_ne hne]
    exact ht.unmade m hm
  · intro m r hr hnot hfinal
    by_cases hm : m = n
    · rw [hm] at hr ⊢
      simp only [Function.update_self, Option.some.injEq] at hr ⊢
      rw [howns.2]
      exact ⟨[], _, t, p, rfl, by rw [hr], hled, hshared r hr hfinal⟩
    · simp only [Function.update_of_ne hm] at hr
      exact absurd hr hnot

/-- Taking a flight out of `_inflight` keeps the flights tracked. -/
theorem Tracked.pop {h : Host} (ht : Tracked t f) (hacts : Req.Acts f (.pop h) () f') :
    Tracked (⟨.answer p (.pop h) (.ok ()), f, f'⟩ :: t) f' := by
  obtain rfl := hacts
  refine ht.step ⟨Nat.le_refl _, fun _ _ => rfl⟩ ?_ ht.unmade (fun _ _ hr hnot => absurd hr hnot)
    nofun nofun
  intro h' n hn
  by_cases hh : h' = h
  · rw [hh] at hn
    simp only [Function.update_self] at hn
    cases hn
  · simp only [Function.update_of_ne hh] at hn
    exact ht.inflight h' n hn

/-- Waiting for a flight keeps the flights tracked. -/
theorem Tracked.wait {n : Nat} {a : Waited} (ht : Tracked t f)
    (hacts : Req.Acts f (.wait n) a f') :
    Tracked (⟨.answer p (.wait n) (.ok a), f, f'⟩ :: t) f' := by
  obtain ⟨rfl, hanswer⟩ := hacts
  refine ht.quiet nofun ?_
  rintro _ _ r _ _ ⟨⟩
  split at hanswer
  · rename_i s hs
    cases hanswer
    exact hs
  · cases hanswer

/-- Every step of a run keeps the flights tracked. -/
theorem Tracked.next {l : Label Nat Req Req.Ans Exn} (ht : Tracked t c.shared)
    (hrun : SysRun cfg t c) (hs : Step machine (Starts cfg) c l c') :
    Tracked (⟨l, c.shared, c'.shared⟩ :: t) c'.shared := by
  have hacts := hs.acts
  cases l with
  | start q =>
    have hsame : c'.shared = c.shared := hacts
    rw [hsame]
    exact ht.quiet nofun nofun
  | inner q op => exact hacts.elim
  | env => exact hacts.elim
  | kill q => exact hacts.elim
  | answer q op r =>
    have hsound := sound_of_step hrun hs
    cases r with
    | error e =>
      obtain ⟨-, hsame⟩ : op.Raises e ∧ c'.shared = c.shared := hacts
      rw [hsame]
      exact ht.quiet nofun nofun
    | ok a =>
      have hacts : op.Acts c.shared a c'.shared := hacts
      cases op with
      | join h => exact ht.join hacts
      | pop h => exact ht.pop hacts
      | setEvent n s => exact ht.setEvent hsound hacts
      | wait n => exact ht.wait hacts
      | _ =>
        have hsame : c'.shared = c.shared := hacts
        rw [hsame]
        exact ht.quiet nofun nofun

private theorem tracked_of_run (hrun : SysRun cfg t c) : Tracked t c.shared := by
  induction hrun with
  | nil => exact .start
  | cons hr hs ih => exact ih.next hr hs

/-- The call of `p` waited for a flight of the host, which its leader ended so. -/
def SharedFlight (t : List Event) (p : Nat) (h : Host) (r : Outcome) : Prop :=
  ∃ n, Took (answers (takenBy p t)) (.join h) (.ok (.follower n)) ∧
    Took (answers (takenBy p t)) (.wait n) (.ok (.ended (some r))) ∧ LookedUp t h n r

/-- What an outcome is explained by when flights hand over what was looked up. -/
theorem Explained.mono {h : Host} {l : Log} {S S' : Outcome → Prop} {r : Outcome}
    (he : Explained cfg h S l r) (hS : ∀ r, S r → S' r) : Explained cfg h S' l r := by
  cases he with
  | cached ht => exact .cached ht
  | looked hl => exact .looked hl
  | joined hnone hs => exact .joined hnone (hS r hs)
  | negative hnone ht => exact .negative hnone ht
  | nonmember hnone hgate ht => exact .nonmember hnone hgate ht
  | deferred hnone hgate hunknown hrefused => exact .deferred hnone hgate hunknown hrefused

/-- The flight that a call waited for was led by a lookup of the same host. -/
theorem Tracked.sharedFlight_of_flew {h : Host} {r : Outcome} (ht : Tracked t f)
    (hf : Flew h (answers (takenBy p t)) r) : SharedFlight t p h r := by
  obtain ⟨hfinal, n, hjoin, hwait⟩ := hf
  refine ⟨n, hjoin, hwait, ?_⟩
  obtain ⟨⟨_, _, s₁, s₂⟩, hx, hxe⟩ := List.mem_map.mp hjoin
  obtain ⟨⟨_, _, s₃, s₄⟩, hy, hye⟩ := List.mem_map.mp hwait
  cases hxe
  cases hye
  have howns := ht.follows p h n s₁ s₂ (mem_of_mem_takenBy hx)
  have hlooked := (ht.waited p n r s₃ s₄ (mem_of_mem_takenBy hy)).2 hfinal
  rwa [howns.2] at hlooked

/-- What the outcome of a call, and each negative entry it stores, come from. -/
def Accounts (cfg : Settings) (earlier : List Event) : Event → Prop
  | ⟨.answer p (.respond h r) _, _, _⟩ =>
    Explained cfg h (SharedFlight earlier p h) (answers (takenBy p earlier)) r
  | ⟨.answer p (.setNegative h) _, _, _⟩ =>
    ∃ before, answers (takenBy p earlier) = ⟨.dbResolver h, .error .notFound, (), ()⟩ :: before
  | _ => True

private theorem accounts_of_step {l : Label Nat Req Req.Ans Exn} (hrun : SysRun cfg t c)
    (hs : Step machine (Starts cfg) c l c') : Accounts cfg t ⟨l, c.shared, c'.shared⟩ := by
  cases l with
  | answer q op r =>
    have hsound := sound_of_step hrun hs
    cases op with
    | respond h outcome =>
      exact Explained.mono hsound fun _ hf => (tracked_of_run hrun).sharedFlight_of_flew hf
    | setNegative h => exact hsound
    | _ => trivial
  | start q => trivial
  | inner q op => trivial
  | env => trivial
  | kill q => trivial

/-- Resolution refines the plain lookup. In every run of the service, whatever the cache, the gate
and the budget answer or raise: a call ends with the cached positive, with what its own lookup or
the one it shares ended with, or, without a lookup, with `not_found` after a cached miss or a
NONMEMBER verdict and with `ResolveDeferred` after an UNKNOWN one that the budget refused; a miss
is stored right after a lookup that raised `not_found`; with the cache and the gate off there is
only the lookup. -/
theorem resolve_refines_lookup (hrun : SysRun cfg t c) :
    Throughout (Accounts cfg) t ∧
      (cfg.enabled = false → cfg.gateEnabled = false →
        ∀ h, resolve cfg h = call (.dbResolver h)) := by
  refine ⟨?_, ?_⟩
  · induction hrun with
    | nil => trivial
    | cons hr hs ih => exact ⟨accounts_of_step hr hs, ih⟩
  · intro hcache hgate h
    exact if_pos ⟨hcache, hgate⟩

end Threads

/-- Only the cache is on, for hits and for misses. -/
def cacheOnly : Settings := ⟨false, false, 30, 5, 10⟩

/-- Two threads ask for an unknown host, and the second shares the first one's lookup. -/
theorem shared_miss_run : ∃ e earlier c, SysRun cacheOnly (e :: earlier) c ∧
    e.label = .answer 2 (.respond "acme" (.error .notFound)) (.ok ()) := by
  have r0 : SysRun cacheOnly [] _ := .nil
  have r1 := r0.start 1 ⟨"acme", rfl⟩ rfl
  have r2 := r1.start 2 ⟨"acme", rfl⟩ rfl
  have r3 := r2.answer 1 (.cacheGet "acme") (.ok .absent) rfl rfl
  have r4 := r3.answer 1 (.join "acme") (.ok (.leader 0)) ⟨rfl, rfl⟩ rfl
  have r5 := r4.answer 2 (.cacheGet "acme") (.ok .absent) rfl rfl
  have r6 := r5.answer 2 (.join "acme") (.ok (.follower 0)) ⟨rfl, rfl⟩ rfl
  have r7 := r6.answer 1 (.dbResolver "acme") (.error .notFound) ⟨trivial, rfl⟩ rfl
  have r8 := r7.answer 1 (.setNegative "acme") (.ok true) rfl rfl
  have r9 := r8.answer 1 (.pop "acme") (.ok ()) rfl rfl
  have r10 := r9.answer 1 (.setEvent 0 (some (.error .notFound))) (.ok ()) rfl rfl
  have r11 := r10.answer 2 (.wait 0) (.ok (.ended (some (.error .notFound)))) ⟨rfl, rfl⟩ rfl
  exact ⟨_, _, _, r11.answer 2 (.respond "acme" (.error .notFound)) (.ok ()) rfl rfl, rfl⟩

/-- A follower that is told the miss of its leader's flight gets it from the lookup of that leader.
-/
theorem resolve_refines_lookup_shared : ∃ e earlier c, SysRun cacheOnly (e :: earlier) c ∧
    e.label = .answer 2 (.respond "acme" (.error .notFound)) (.ok ()) ∧
      Accounts cacheOnly earlier e := by
  obtain ⟨e, earlier, c, hrun, he⟩ := shared_miss_run
  exact ⟨e, earlier, c, hrun, he, (resolve_refines_lookup hrun).1.1⟩

end MtShards.Service
