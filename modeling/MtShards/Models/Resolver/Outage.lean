import MtShards.Models.Resolver.Service

/-!
# A database that is away

What a lookup meets when the database cannot be reached is one of four classes of exceptions, two of
Django and two of `psycopg`. On its way to the answer it passes `_resolve_tenant`, `_fill`, the
flight, the `except` clauses of `resolve` and those of `process_request`.
-/

namespace MtShards.Service

open MtShards.Core

/-! ### The classes -/

/-- `django.db.InterfaceError`. -/
def djangoInterfaceError : Exn := .other "django.db.InterfaceError"

/-- `psycopg.OperationalError`. -/
def psycopgOperationalError : Exn := .other "psycopg.OperationalError"

/-- `psycopg.InterfaceError`. -/
def psycopgInterfaceError : Exn := .other "psycopg.InterfaceError"

/-- What a lookup can meet. -/
inductive Outage
  | djangoOperational
  | djangoInterface
  | psycopgOperational
  | psycopgInterface
  deriving DecidableEq, Repr

/-- The exception it meets. -/
def Outage.exn : Outage → Exn
  | djangoOperational => .operationalError
  | djangoInterface => djangoInterfaceError
  | psycopgOperational => psycopgOperationalError
  | psycopgInterface => psycopgInterfaceError

/-- `_resolve_tenant`, of how its query ended. -/
def resolveTenant : Outcome → Outcome
  | .ok t => .ok t
  | .error e =>
    if e = psycopgOperationalError ∨ e = psycopgInterfaceError then .error .operationalError
    else .error e

/-- The exception as it comes out of `_resolve_tenant`. -/
def Outage.surfaced : Outage → Exn
  | djangoInterface => djangoInterfaceError
  | _ => .operationalError

/-- What `process_request` makes of how the resolution ended. -/
inductive Answered
  | tenant (t : TenantSnapshot)
  | tenantNotFound
  | tenantResolveDeferred
  | databaseError
  | raised (e : Exn)
  deriving DecidableEq, Repr

/-- `process_request`, up to the gate on the status. The base class makes a `Http404` of
`not_found`. -/
def processRequest : Outcome → Answered
  | .ok t => .tenant t
  | .error .notFound => .tenantNotFound
  | .error .resolveDeferred => .tenantResolveDeferred
  | .error e =>
    if e = .operationalError ∨ e = djangoInterfaceError ∨ e = psycopgOperationalError ∨
      e = psycopgInterfaceError then .databaseError
    else .raised e

/-- An outage comes out of the lookup as `surfaced` says. -/
theorem resolveTenant_outage (o : Outage) : resolveTenant (.error o.exn) = .error o.surfaced := by
  cases o with
  | djangoOperational =>
    rw [resolveTenant, if_neg (by rintro (h | h) <;> cases h)]
    rfl
  | djangoInterface =>
    rw [resolveTenant, if_neg (by
      simp [Outage.exn, djangoInterfaceError, psycopgOperationalError, psycopgInterfaceError])]
    rfl
  | psycopgOperational =>
    rw [resolveTenant, if_pos (.inl rfl)]
    rfl
  | psycopgInterface =>
    rw [resolveTenant, if_pos (.inr rfl)]
    rfl

/-- Every outage surfaces as `OperationalError`, but for the `InterfaceError` of Django. -/
theorem Outage.surfaced_cases (o : Outage) :
    o.surfaced = .operationalError ∧ o ≠ .djangoInterface ∨
      o.surfaced = djangoInterfaceError ∧ o = .djangoInterface := by
  cases o with
  | djangoInterface => exact .inr ⟨rfl, rfl⟩
  | _ => exact .inl ⟨rfl, nofun⟩

/-- The handler knows every class, normalized or not. -/
theorem processRequest_surfaced (o : Outage) :
    processRequest (.error o.surfaced) = .databaseError := by
  obtain ⟨h, -⟩ | ⟨h, -⟩ := o.surfaced_cases
  · rw [h, processRequest, if_pos (.inl rfl)]
    all_goals exact nofun
  · rw [h, djangoInterfaceError, processRequest, if_pos (.inr (.inl rfl))]
    all_goals exact nofun

/-! ### What `resolve` logs -/

/-- A line about the cached path. -/
inductive Line
  /-- `_log_cache_fail`. -/
  | cacheFail
  /-- `_log_cache_bug`, with the exception that is being handled. -/
  | cacheBug (e : Exn)
  deriving DecidableEq, Repr

/-- `resolve`, with the line that it logs. -/
def resolveLogging (cfg : Settings) (h : Host) : Prog (Option Line × Outcome) :=
  if cfg.enabled = false ∧ cfg.gateEnabled = false then do
    let r ← (call (.dbResolver h)).attempt
    pure (none, r)
  else do
    match ← (viaCache cfg h).attempt with
    | .ok t => pure (none, .ok t)
    | .error .redisError => do
      let r ← (call (.dbResolver h)).attempt
      pure (some .cacheFail, r)
    | .error (.other typeName) => do
      let r ← (call (.dbResolver h)).attempt
      pure (some (.cacheBug (.other typeName)), r)
    | .error e => pure (none, .error e)

private theorem bind_assoc {α β γ : Type} (x : Prog α) (f : α → Prog β) (g : β → Prog γ) :
    x >>= f >>= g = x >>= fun a => f a >>= g := by
  change (x.bind f).bind g = x.bind fun a => (f a).bind g
  induction x with
  | done r => cases r <;> rfl
  | call op k ih => exact congrArg (Program.call op) (funext ih)

/-- It is `resolve`. -/
theorem resolve_eq (cfg : Settings) (h : Host) :
    resolve cfg h = resolveLogging cfg h >>= fun x => .done x.2 := by
  unfold resolve resolveLogging
  split
  · rfl
  · rw [bind_assoc]
    congr 1
    funext r
    rcases r with (_ | _ | _ | _ | typeName | _) | t <;> rfl

/-! ### What a call leaves -/

/-- A lookup, and how it ended. -/
def lookupOf : Taken Req Req.Ans Exn Unit → Option Outcome
  | ⟨.dbResolver _, r, _, _⟩ => some r
  | _ => none

/-- What a flight gave the call, `none` where the call fills the cache itself. -/
def flightOf : Taken Req Req.Ans Exn Unit → Option (Option Outcome)
  | ⟨.join _, .ok (.leader _), _, _⟩ => some none
  | ⟨.wait _, .ok .timedOut, _, _⟩ => some none
  | ⟨.wait _, .ok (.ended s), _, _⟩ => some s
  | _ => none

/-- A write into the cache. -/
def storeOf : Taken Req Req.Ans Exn Unit → Option Req
  | ⟨.setHostSnap h t, _, _, _⟩ => some (.setHostSnap h t)
  | ⟨.setSchemaSnap s t, _, _, _⟩ => some (.setSchemaSnap s t)
  | ⟨.setNegative h, _, _, _⟩ => some (.setNegative h)
  | _ => none

/-- The lookups of a call, its flights and its writes, newest first. -/
structure Traffic where
  lookups : List Outcome
  flights : List (Option Outcome)
  stores : List Req

/-- What a log has of each. -/
def traffic (l : Log) : Traffic :=
  ⟨l.filterMap lookupOf, l.filterMap flightOf, l.filterMap storeOf⟩

/-- A request that is none of them. -/
def Req.Quiet : Req → Prop
  | cacheGet _ | hostsPipeline _ | warm | incrProbe | expireProbe | localBucket | pop _
  | setEvent _ _ => True
  | _ => False

/-- A quiet request adds to no traffic. -/
theorem traffic_quiet {op : Req} (h : op.Quiet) (r : Except Exn op.Ans) (l : Log) :
    traffic (⟨op, r, (), ()⟩ :: l) = traffic l := by
  cases op with
  | dbResolver h' | setHostSnap h' t | setSchemaSnap s t | setNegative h' | join h' | wait n
  | respond h' r' => exact h.elim
  | _ => rfl

/-- An exception that is a database's, as `_resolve_tenant` lets it out. -/
def Exn.OfDatabase (e : Exn) : Prop := ∃ o : Outage, e = o.surfaced

/-- Any answer, and the exceptions that a request may raise: those of a database are the
lookup's. -/
def calm : Semantics Req Req.Ans Exn Unit := fun op _ r _ =>
  ∀ e, r = .error e → op.Raises e ∧ ((∀ h, op ≠ .dbResolver h) → ¬e.OfDatabase)

/-- Nothing is asked of a log on the way. -/
def anyLog : Log → Unit → Prop := fun _ _ => True

section Cached

variable {cfg : Settings} {h : Host}

/-- No exception of the cached path is a database's. -/
abbrev Foreign : Exn → Prop := fun e => ¬e.OfDatabase

private theorem foreign_keyError : Foreign (.other "KeyError") := by
  rintro ⟨o, ho⟩
  cases o <;> simp [Outage.surfaced, djangoInterfaceError] at ho

/-- A miss is no exception of the database. -/
theorem foreign_notFound : Foreign .notFound := by
  rintro ⟨o, ho⟩
  cases o <;> cases ho

private theorem foreign_resolveDeferred : Foreign .resolveDeferred := by
  rintro ⟨o, ho⟩
  cases o <;> cases ho

private theorem getSnapshot_raising : (getSnapshot h).Raising Req.Quiet Foreign := by
  refine .bind (Program.raising_request.mpr trivial) fun raw => ?_
  cases raw with
  | malformed => exact foreign_keyError
  | _ => trivial

private theorem check_raising : (check h).Raising Req.Quiet Foreign := by
  refine .attempt_bind (Program.raising_request.mpr trivial) fun r hr => ?_
  rcases r with e | ⟨existing, isMember⟩
  · cases e with
    | redisError => trivial
    | _ => exact hr
  · cases existing with
    | false => trivial
    | true => cases isMember <;> trivial

private theorem triggerWarm_raising : (triggerWarm cfg).Raising Req.Quiet Foreign := by
  unfold triggerWarm
  split
  · trivial
  · exact .attempt_bind (Program.raising_request.mpr trivial) fun _ _ => trivial

private theorem allow_raising : (allow cfg).Raising Req.Quiet Foreign := by
  refine .attempt_bind (.bind (Program.raising_request.mpr trivial) fun n =>
    .bind (Program.raising_request.mpr trivial) fun _ => trivial) fun r hr => ?_
  rcases r with e | b
  · cases e with
    | redisError => exact Program.raising_request.mpr trivial
    | _ => exact hr
  · trivial

/-- What issues quiet requests alone leaves the traffic as it is. -/
theorem quiet_ensures {α : Type} {x : Prog α} (hx : x.Raising Req.Quiet Foreign) (l : Log) :
    x.Ensures calm anyLog l () fun l' _ r =>
      traffic l' = traffic l ∧ Program.onOutcome (fun _ => True) Foreign r := by
  refine hx.ensures (I := fun l' _ => traffic l' = traffic l) ?_ ?_ rfl
  · rintro l' ⟨⟩ op r ⟨⟩ hop hl' -
    exact ⟨trivial, (traffic_quiet hop r l').trans hl'⟩
  · intro op s r s' hop hsem
    cases r with
    | ok a => trivial
    | error e =>
      refine (hsem e rfl).2 ?_
      rintro h' rfl
      exact hop

/-- A request that writes into the cache. -/
def Req.Stores : Req → Prop
  | setHostSnap _ _ | setSchemaSnap _ _ | setNegative _ => True
  | _ => False

private theorem traffic_stores {op : Req} (h : op.Stores) (r : Except Exn op.Ans) (l : Log) :
    (traffic (⟨op, r, (), ()⟩ :: l)).lookups = (traffic l).lookups ∧
      (traffic (⟨op, r, (), ()⟩ :: l)).flights = (traffic l).flights := by
  cases op with
  | setHostSnap h' t | setSchemaSnap s t | setNegative h' => exact ⟨rfl, rfl⟩
  | _ => exact h.elim

private theorem put_only (t : TenantSnapshot) : (put cfg h t).Only Req.Stores := by
  unfold put
  split
  · trivial
  · exact .bind (Program.only_request.mpr trivial) fun _ =>
      .bind (Program.only_request.mpr trivial) fun _ => trivial

private theorem storeMiss_only : (storeMiss cfg h).Only Req.Stores := by
  unfold storeMiss
  split
  · trivial
  · exact .bind (Program.only_request.mpr trivial) fun _ => trivial

/-- How the cached path has come to its outcome. -/
inductive Came (l : Log) (r : Outcome) : Prop
  /-- Without a flight. -/
  | aside : traffic l = ⟨[], [], []⟩ → (∀ e, r = .error e → Foreign e) → Came l r
  /-- By the lookup of its own `_fill`. -/
  | filled {d : Outcome} : (traffic l).lookups = [d] → (traffic l).flights = [none] →
      (∀ o : Outage, d = .error o.surfaced → r = d ∧ (traffic l).stores = []) → Came l r
  /-- As the flight that it joined did. -/
  | shared : traffic l = ⟨[], [some r], []⟩ → Came l r

/-- A quiet request does not change how an outcome came about. -/
theorem Came.quiet {l : Log} {r : Outcome} (hc : Came l r) (op : Req) (hop : op.Quiet)
    (a : Except Exn op.Ans) : Came (⟨op, a, (), ()⟩ :: l) r := by
  have hsame := traffic_quiet hop a l
  cases hc with
  | aside hl hr => exact .aside (hsame.trans hl) hr
  | filled hlook hflight hd => exact .filled (hsame ▸ hlook) (hsame ▸ hflight) (hsame ▸ hd)
  | shared hl => exact .shared (hsame.trans hl)

/-- A fill looks up once, and writes nothing when the database is away. -/
theorem fill_came {l : Log} (hl : traffic l = ⟨[], [none], []⟩) :
    (fill cfg h).Ensures calm anyLog l () fun l' _ r => Came l' r := by
  -- the writes after a lookup that did not meet an outage
  have hwrites {α : Type} {x : Prog α} (hx : x.Only Req.Stores) {d : Outcome}
      (hd : ∀ o : Outage, d ≠ .error o.surfaced) :
      x.Ensures calm anyLog (⟨.dbResolver h, d, (), ()⟩ :: l) () fun l' _ _ =>
        ∀ r, Came l' r := by
    refine (hx.ensures (I := fun l' _ => (traffic l').lookups = [d] ∧
      (traffic l').flights = [none]) ?_ ?_).mono fun l' _ _ hl' r =>
        .filled hl'.1 hl'.2 fun o ho => absurd ho (hd o)
    · rintro l' ⟨⟩ op r ⟨⟩ hop hl' -
      obtain ⟨hlook, hflight⟩ := traffic_stores hop r l'
      exact ⟨trivial, hlook.trans hl'.1, hflight.trans hl'.2⟩
    · exact ⟨congrArg (d :: ·) (congrArg Traffic.lookups hl), congrArg Traffic.flights hl⟩
  unfold fill
  rw [Program.ensures_bind, Program.ensures_attempt]
  intro d _ _
  refine ⟨trivial, ?_⟩
  rw [Program.ensures_done, Program.onOutcome_ok]
  have hraised : ∀ e, d = .error e → Came (⟨.dbResolver h, d, (), ()⟩ :: l) (.error e) := by
    rintro e rfl
    exact .filled (congrArg (_ :: ·) (congrArg Traffic.lookups hl)) (congrArg Traffic.flights hl)
      fun _ _ => ⟨rfl, congrArg Traffic.stores hl⟩
  rcases d with e | t
  · cases e with
    | notFound =>
      rw [Program.ensures_bind]
      refine (hwrites storeMiss_only fun o => ?_).mono fun l' _ r hcame => ?_
      · cases o <;> exact nofun
      · cases r with
        | ok _ => exact hcame _
        | error e => exact hcame _
    | _ => exact hraised _ rfl
  · rw [Program.ensures_bind]
    refine (hwrites (d := .ok t) (put_only t) fun _ => nofun).mono fun l' _ r hcame => ?_
    cases r with
    | ok _ => exact hcame _
    | error e => exact hcame _

/-- A flight of `_fill` comes to its outcome in one of the ways. -/
theorem singleFlight_came {l : Log} (hl : traffic l = ⟨[], [], []⟩) :
    (singleFlight h (fill cfg h)).Ensures calm anyLog l () fun l' _ r => Came l' r := by
  unfold singleFlight
  rw [Program.ensures_bind]
  intro a _ ha
  refine ⟨trivial, ?_⟩
  cases a with
  | error e => exact (ha e rfl).1.elim
  | ok joined =>
    cases joined with
    | leader n =>
      have hled : traffic (⟨.join h, .ok (.leader n), (), ()⟩ :: l) = ⟨[], [none], []⟩ := by
        obtain ⟨hlook, hflight, hstore⟩ := Traffic.mk.inj hl
        exact Traffic.mk.injEq .. ▸ ⟨hlook, congrArg (none :: ·) hflight, hstore⟩
      rw [Program.ensures_done, Program.onOutcome_ok, Program.ensures_bind,
        Program.ensures_attempt]
      refine (fill_came hled).mono fun l₁ _ r hcame => ?_
      rw [Program.onOutcome_ok, Program.ensures_bind]
      intro b _ hb
      refine ⟨trivial, ?_⟩
      cases b with
      | error e => exact (hb e rfl).1.elim
      | ok _ =>
        rw [Program.ensures_done, Program.onOutcome_ok, Program.ensures_bind]
        intro c _ hc
        refine ⟨trivial, ?_⟩
        cases c with
        | error e => exact (hc e rfl).1.elim
        | ok _ =>
          rw [Program.ensures_done, Program.onOutcome_ok]
          have hpopped := hcame.quiet (.pop h) trivial (.ok ())
          exact hpopped.quiet (.setEvent n (shared r)) trivial (.ok ())
    | follower n =>
      have hjoined : traffic (⟨.join h, .ok (.follower n), (), ()⟩ :: l) = ⟨[], [], []⟩ := hl
      rw [Program.ensures_done, Program.onOutcome_ok, Program.ensures_bind]
      intro b _ hb
      refine ⟨trivial, ?_⟩
      obtain ⟨hlook, hflight, hstore⟩ := Traffic.mk.inj hjoined
      cases b with
      | error e => exact (hb e rfl).1.elim
      | ok waited =>
        cases waited with
        | timedOut =>
          exact fill_came (Traffic.mk.injEq .. ▸ ⟨hlook, congrArg (none :: ·) hflight, hstore⟩)
        | ended s =>
          cases s with
          | none =>
            exact fill_came (Traffic.mk.injEq .. ▸ ⟨hlook, congrArg (none :: ·) hflight, hstore⟩)
          | some r =>
            exact .shared (Traffic.mk.injEq .. ▸ ⟨hlook, congrArg (some r :: ·) hflight, hstore⟩)

private theorem viaCache_came {l : Log} (hl : traffic l = ⟨[], [], []⟩) :
    (viaCache cfg h).Ensures calm anyLog l () fun l' _ r => Came l' r := by
  unfold viaCache
  rw [Program.ensures_bind]
  refine (quiet_ensures getSnapshot_raising l).mono ?_
  rintro l₁ _ snap ⟨h₁, hsnap⟩
  replace h₁ := h₁.trans hl
  rcases snap with e | _ | _ | t
  · exact .aside h₁ fun _ he => Except.error.inj he ▸ hsnap
  · rw [Program.onOutcome_ok]
    dsimp only
    split
    · rw [Program.ensures_bind]
      refine (quiet_ensures check_raising l₁).mono ?_
      rintro l₂ _ verdict ⟨h₂, hverdict⟩
      replace h₂ := h₂.trans h₁
      rcases verdict with e | _ | _ | _
      · exact .aside h₂ fun _ he => Except.error.inj he ▸ hverdict
      · exact singleFlight_came h₂
      · exact .aside h₂ fun _ he => Except.error.inj he ▸ foreign_notFound
      · rw [Program.onOutcome_ok, Program.ensures_bind]
        refine (quiet_ensures triggerWarm_raising l₂).mono ?_
        rintro l₃ _ warmed ⟨h₃, hwarmed⟩
        replace h₃ := h₃.trans h₂
        cases warmed with
        | error e => exact .aside h₃ fun _ he => Except.error.inj he ▸ hwarmed
        | ok _ =>
          rw [Program.onOutcome_ok, Program.ensures_bind]
          refine (quiet_ensures allow_raising l₃).mono ?_
          rintro l₄ _ allowed ⟨h₄, hallowed⟩
          replace h₄ := h₄.trans h₃
          rcases allowed with e | _ | _
          · exact .aside h₄ fun _ he => Except.error.inj he ▸ hallowed
          · exact .aside h₄ fun _ he => Except.error.inj he ▸ foreign_resolveDeferred
          · exact singleFlight_came h₄
    · exact singleFlight_came h₁
  · exact .aside h₁ fun _ he => Except.error.inj he ▸ foreign_notFound
  · exact .aside h₁ nofun

/-- The line of an outcome that is not final. -/
def lineOf : Outcome → Option Line
  | .error .redisError => some .cacheFail
  | .error (.other typeName) => some (.cacheBug (.other typeName))
  | _ => none

/-- How a call has ended. -/
inductive Ended (h : Host) : Log → Option Line → Outcome → Prop
  /-- With the outcome of the cached path. -/
  | final {l : Log} {r : Outcome} : Came l r → Final r → Ended h l none r
  /-- With the lookup alone: the cache and the gate are off. -/
  | uncached {d : Outcome} : Ended h [⟨.dbResolver h, d, (), ()⟩] none d
  /-- With a lookup after the cached path had failed. -/
  | fallback {l : Log} {r d : Outcome} : Came l r → ¬Final r →
      Ended h (⟨.dbResolver h, d, (), ()⟩ :: l) (lineOf r) d

private theorem resolveLogging_ended :
    (resolveLogging cfg h).Ensures calm anyLog [] () fun l _ x =>
      ∃ line r, x = .ok (line, r) ∧ Ended h l line r := by
  unfold resolveLogging
  split
  · rw [Program.ensures_bind, Program.ensures_attempt]
    exact fun d _ _ => ⟨trivial, none, d, rfl, .uncached⟩
  · rw [Program.ensures_bind, Program.ensures_attempt]
    refine (viaCache_came rfl).mono fun l _ r hcame => ?_
    have hfallback (hr : ¬Final r) (d : Outcome) : ∃ line d', (.ok (lineOf r, d) :
        Except Exn (Option Line × Outcome)) = .ok (line, d') ∧
          Ended h (⟨.dbResolver h, d, (), ()⟩ :: l) line d' :=
      ⟨lineOf r, d, rfl, .fallback hcame hr⟩
    rw [Program.onOutcome_ok]
    rcases r with (_ | _ | _ | _ | typeName | _) | t
    · exact ⟨none, _, rfl, .final hcame trivial⟩
    · exact ⟨none, _, rfl, .final hcame trivial⟩
    · exact ⟨none, _, rfl, .final hcame trivial⟩
    · exact fun d _ _ => ⟨trivial, hfallback id d⟩
    · exact fun d _ _ => ⟨trivial, hfallback id d⟩
    · exact ⟨none, _, rfl, .final hcame trivial⟩
    · exact ⟨none, _, rfl, .final hcame trivial⟩

end Cached

/-! ### A call that meets an outage -/

/-- How a call comes to meet an outage. -/
inductive Way
  /-- By a lookup outside the cached path. -/
  | direct
  /-- By the lookup of its own `_fill`. -/
  | fills
  /-- By the exception of the flight that it joined. -/
  | shares
  deriving DecidableEq, Repr

/-- How often the call may ask the database. -/
def Way.lookups : Way → Nat
  | .direct | .fills => 1
  | .shares => 0

/-- The call met the outage: its first lookup did, or that of the flight which it joined. -/
def Met (l : Log) (o : Outage) : Way → Prop
  | .direct => (traffic l).lookups.getLast? = some (resolveTenant (.error o.exn)) ∧
      ∀ s ∈ (traffic l).flights, ∃ r, s = some r ∧ ∀ e, r = .error e → Foreign e
  | .fills => (traffic l).lookups.getLast? = some (resolveTenant (.error o.exn)) ∧
      (traffic l).flights = [none]
  | .shares => (traffic l).flights = [some (resolveTenant (.error o.exn))]

/-- The database was asked so often and no more, `process_request` answers with its 500, the
exception is not logged as a bug of the cached path, and nothing is stored. -/
structure AskedOnce (l : Log) (line : Option Line) (r : Outcome) (lookups : Nat) : Prop where
  once : (traffic l).lookups.length = lookups
  answered : processRequest r = .databaseError
  unlogged : ∀ o : Outage, line ≠ some (.cacheBug o.surfaced)
  unstored : (traffic l).stores = []

/-- An outage is handed on unless it is the `InterfaceError` of Django. -/
theorem final_surfaced_iff {o : Outage} : Final (.error o.surfaced) ↔ o ≠ .djangoInterface := by
  cases o with
  | djangoInterface => exact iff_of_false id fun h => h rfl
  | _ => exact iff_of_true trivial nofun

private theorem lineOf_foreign {r : Outcome} (hr : ∀ e, r = .error e → Foreign e) (o : Outage) :
    lineOf r ≠ some (.cacheBug o.surfaced) := by
  intro h
  rcases r with (_ | _ | _ | _ | typeName | _) | t
  case error.other => exact hr _ rfl ⟨o, Line.cacheBug.inj (Option.some.inj h)⟩
  all_goals cases h

section Outages

variable {h : Host} {l : Log} {line : Option Line} {r d : Outcome} {o : Outage} {way : Way}

/-- The cached path handed on what it had met. -/
theorem askedOnce_of_final (hcame : Came l r) (hfinal : Final r) (hmet : Met l o way) :
    AskedOnce l none r way.lookups ∧ ¬(o = .djangoInterface ∧ way ≠ .direct) := by
  have hends {n : Nat} (hr : r = .error o.surfaced) (hn : (traffic l).lookups.length = n)
      (hstores : (traffic l).stores = []) :
      AskedOnce l none r n ∧ ¬(o = .djangoInterface ∧ way ≠ .direct) := by
    subst hr
    exact ⟨⟨hn, processRequest_surfaced o, nofun, hstores⟩,
      fun hbad => final_surfaced_iff.mp hfinal hbad.1⟩
  cases hcame with
  | aside hl hr =>
    cases way with
    | direct => exact absurd hmet.1 (by rw [hl]; nofun)
    | fills => exact absurd hmet.1 (by rw [hl]; nofun)
    | shares => exact absurd hmet (by rw [Met, hl]; nofun)
  | @filled d hlook hflight hd =>
    cases way with
    | direct =>
      obtain ⟨r', hr', -⟩ := hmet.2 none (hflight ▸ List.mem_cons_self)
      cases hr'
    | fills =>
      have hmet := hmet.1
      rw [hlook, resolveTenant_outage] at hmet
      obtain ⟨rfl, hstores⟩ := hd o (Option.some.inj hmet)
      exact hends (Option.some.inj hmet) (congrArg List.length hlook) hstores
    | shares => exact absurd (hflight.symm.trans hmet) nofun
  | shared hl =>
    cases way with
    | direct => exact absurd hmet.1 (by rw [hl]; nofun)
    | fills => exact absurd hmet.1 (by rw [hl]; nofun)
    | shares =>
      rw [Met, hl, resolveTenant_outage] at hmet
      exact hends (Option.some.inj (List.cons.inj hmet).1) (by rw [hl]; rfl) (by rw [hl])

/-- After the cached path had failed, the lookup is the first one if and only if what it met was no
outage. -/
theorem askedOnce_iff_of_fallback (hcame : Came l r) (hr : ¬Final r)
    (hmet : Met (⟨.dbResolver h, d, (), ()⟩ :: l) o way) :
    AskedOnce (⟨.dbResolver h, d, (), ()⟩ :: l) (lineOf r) d way.lookups ↔
      ¬(o = .djangoInterface ∧ way ≠ .direct) := by
  have hlookups : (traffic (⟨.dbResolver h, d, (), ()⟩ :: l)).lookups =
      d :: (traffic l).lookups := rfl
  have hflights : (traffic (⟨.dbResolver h, d, (), ()⟩ :: l)).flights = (traffic l).flights := rfl
  have hstores : (traffic (⟨.dbResolver h, d, (), ()⟩ :: l)).stores = (traffic l).stores := rfl
  have honce (hlook : (traffic l).lookups = []) (hstore : (traffic l).stores = [])
      (hforeign : ∀ e, r = .error e → Foreign e) (hway : way = .direct) :
      AskedOnce (⟨.dbResolver h, d, (), ()⟩ :: l) (lineOf r) d way.lookups ↔
        ¬(o = .djangoInterface ∧ way ≠ .direct) := by
    subst hway
    have hd := hmet.1
    rw [hlookups, hlook, resolveTenant_outage] at hd
    obtain rfl : d = .error o.surfaced := Option.some.inj hd
    refine iff_of_true ⟨?_, processRequest_surfaced o, lineOf_foreign hforeign, ?_⟩ nofun
    · rw [hlookups, hlook]
      rfl
    · rw [hstores, hstore]
  -- it asks once more than it may
  have htwice (hcount : way.lookups < (d :: (traffic l).lookups).length)
      (hmetr : r = .error o.surfaced) (hway : way ≠ .direct) :
      AskedOnce (⟨.dbResolver h, d, (), ()⟩ :: l) (lineOf r) d way.lookups ↔
        ¬(o = .djangoInterface ∧ way ≠ .direct) := by
    refine iff_of_false (fun hasked => ?_) fun hgood => hgood ⟨?_, hway⟩
    · exact absurd hasked.once (Nat.ne_of_gt hcount)
    · by_contra ho
      exact hr (hmetr ▸ final_surfaced_iff.mpr ho)
  cases hcame with
  | aside hl hforeign =>
    cases way with
    | direct => exact honce (by rw [hl]) (by rw [hl]) hforeign rfl
    | fills => exact absurd (hflights ▸ hmet.2) (by rw [hl]; nofun)
    | shares => exact absurd hmet (by rw [Met, hflights, hl]; nofun)
  | @filled d₁ hlook hflight hd =>
    cases way with
    | direct =>
      obtain ⟨r', hr', -⟩ := hmet.2 none (by rw [hflights, hflight]; exact List.mem_cons_self)
      cases hr'
    | fills =>
      have hfirst := hmet.1
      rw [hlookups, hlook, resolveTenant_outage] at hfirst
      have hd₁ : d₁ = .error o.surfaced := Option.some.inj hfirst
      refine htwice (by rw [hlook]; exact Nat.lt_succ_self 1) ((hd o hd₁).1.trans hd₁) nofun
    | shares =>
      rw [Met, hflights, hflight] at hmet
      cases hmet
  | shared hl =>
    cases way with
    | direct =>
      obtain ⟨r', hr', hforeign⟩ := hmet.2 (some r) (by rw [hflights, hl]; exact List.mem_cons_self)
      obtain rfl := Option.some.inj hr'
      exact honce (by rw [hl]) (by rw [hl]) hforeign rfl
    | fills =>
      have hflight := hmet.2
      rw [hflights, hl] at hflight
      cases hflight
    | shares =>
      rw [Met, hflights, hl, resolveTenant_outage] at hmet
      exact htwice (by rw [hl]; exact Nat.zero_lt_succ _)
        (Option.some.inj (List.cons.inj hmet).1) nofun

/-- A dead database is asked once, unless Django's `InterfaceError` is met on the cached path. -/
theorem Ended.askedOnce_iff (hended : Ended h l line r) (hmet : Met l o way) :
    AskedOnce l line r way.lookups ↔ ¬(o = .djangoInterface ∧ way ≠ .direct) := by
  cases hended with
  | final hcame hfinal =>
    obtain ⟨hasked, hgood⟩ := askedOnce_of_final hcame hfinal hmet
    exact iff_of_true hasked hgood
  | uncached =>
    cases way with
    | direct =>
      obtain rfl := (Option.some.inj hmet.1).trans (resolveTenant_outage o)
      exact iff_of_true ⟨rfl, processRequest_surfaced o, nofun, rfl⟩ nofun
    | fills => exact absurd hmet.2 nofun
    | shares => exact absurd hmet nofun
  | fallback hcame hr => exact askedOnce_iff_of_fallback hcame hr hmet

/-- A database that is away is asked once, and not at all by who shares a flight, if and only if the
lookup outside the cached path met it or it is not Django's `InterfaceError`. -/
theorem dead_database_asked_once {cfg : Settings}
    (hexec : Exec calm (resolveLogging cfg h) () l (.done (.ok (line, r))) ())
    (hmet : Met l o way) :
    AskedOnce l line r way.lookups ↔ ¬(o = .djangoInterface ∧ way ≠ .direct) := by
  obtain ⟨line', r', hx, hended⟩ := hexec.outcome trivial resolveLogging_ended
  cases hx
  exact hended.askedOnce_iff hmet

end Outages

/-! ### A leader and a follower -/

/-- A call that leads its flight, while the connections are closed under `psycopg`. -/
theorem leader_call : ∃ l, Exec calm (resolveLogging cacheOnly "acme") () l
    (.done (.ok (none, .error .operationalError))) () ∧ Met l .psycopgInterface .fills := by
  have x0 : Exec calm (resolveLogging cacheOnly "acme") () [] _ () := .start
  have x1 := x0.answer (.cacheGet "acme") (.ok .absent) () nofun rfl
  have x2 := x1.answer (.join "acme") (.ok (.leader 0)) () nofun rfl
  have x3 := x2.answer (.dbResolver "acme") (.error .operationalError) ()
    (fun _ _ => ⟨trivial, fun h => absurd rfl (h _)⟩) rfl
  have x4 := x3.answer (.pop "acme") (.ok ()) () nofun rfl
  have x5 := x4.answer (.setEvent 0 (some (.error .operationalError))) (.ok ()) () nofun rfl
  exact ⟨_, x5, by rw [resolveTenant_outage]; rfl, rfl⟩

/-- With the cache on, an `InterfaceError` of the driver surfaces after one lookup. -/
theorem dead_database_asked_once_psycopg : ∃ l,
    Exec calm (resolveLogging cacheOnly "acme") () l (.done (.ok (none, .error .operationalError)))
      () ∧ Met l .psycopgInterface .fills ∧ AskedOnce l none (.error .operationalError) 1 := by
  obtain ⟨l, hexec, hmet⟩ := leader_call
  exact ⟨l, hexec, hmet, (dead_database_asked_once hexec hmet).mpr nofun⟩

/-- Django's `InterfaceError` is taken for a bug of the cached path: the leader asks the database
again, and a follower, who shared the exception, asks it after all. -/
theorem dead_database_asked_again :
    (∃ l, Exec calm (resolveLogging cacheOnly "acme") () l
        (.done (.ok (some (.cacheBug djangoInterfaceError), .error djangoInterfaceError))) () ∧
      Met l .djangoInterface .fills ∧ (traffic l).lookups.length = 2 ∧
      ¬AskedOnce l (some (.cacheBug djangoInterfaceError)) (.error djangoInterfaceError) 1) ∧
    ∃ l, Exec calm (resolveLogging cacheOnly "acme") () l
        (.done (.ok (some (.cacheBug djangoInterfaceError), .error djangoInterfaceError))) () ∧
      Met l .djangoInterface .shares ∧ (traffic l).lookups.length = 1 ∧
      ¬AskedOnce l (some (.cacheBug djangoInterfaceError)) (.error djangoInterfaceError) 0 := by
  have x0 : Exec calm (resolveLogging cacheOnly "acme") () [] _ () := .start
  have x1 := x0.answer (.cacheGet "acme") (.ok .absent) () nofun rfl
  have hdb : calm (.dbResolver "acme") () (.error djangoInterfaceError) () :=
    fun _ _ => ⟨trivial, fun h => absurd rfl (h _)⟩
  constructor
  · have x2 := x1.answer (.join "acme") (.ok (.leader 0)) () nofun rfl
    have x3 := x2.answer (.dbResolver "acme") (.error djangoInterfaceError) () hdb rfl
    have x4 := x3.answer (.pop "acme") (.ok ()) () nofun rfl
    have x5 := x4.answer (.setEvent 0 (some (.error djangoInterfaceError))) (.ok ()) () nofun rfl
    have x6 := x5.answer (.dbResolver "acme") (.error djangoInterfaceError) () hdb rfl
    exact ⟨_, x6, ⟨by rw [resolveTenant_outage]; rfl, rfl⟩, rfl, fun h => by cases h.once⟩
  · have x2 := x1.answer (.join "acme") (.ok (.follower 0)) () nofun rfl
    have x3 := x2.answer (.wait 0) (.ok (.ended (some (.error djangoInterfaceError)))) () nofun rfl
    have x4 := x3.answer (.dbResolver "acme") (.error djangoInterfaceError) () hdb rfl
    exact ⟨_, x4, by rw [Met, resolveTenant_outage]; rfl, rfl, fun h => by cases h.once⟩

end MtShards.Service
