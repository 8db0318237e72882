import MtShards.Models.Context.Restoration
import MtShards.Models.Context.Router

/-!
# What one thread runs, entry by entry

The context managers, the two middlewares and `TenantTask.__call__` as moves on a
stack of open `with` blocks, so that the routing state is visible at every point
where code of the program runs, and not only when a manager has returned. A frame
holds what its entry saved. A block is left by returning or by raising, with the
same clean-up; an entry that fails runs its clean-up at once and opens nothing.
The last section shows that the moves are the managers of `tenants.context`.
-/

namespace MtShards

/-- `Tenant.clean` with `Shard.clean`: the public schema lives on `default`, and
nothing else does. -/
def TenantSnapshot.Placed (t : TenantSnapshot) : Prop :=
  t.schemaName = publicSchemaName ↔ t.shard.dbAlias = defaultAlias

instance (t : TenantSnapshot) : Decidable t.Placed :=
  inferInstanceAs (Decidable (_ ↔ _))

/-- A row of the tenant registry. -/
abbrev Registered := { t : TenantSnapshot // t.Placed }

namespace Context

open MtShards.Core

/-- An open block of one thread. -/
inductive Frame
  /-- A request, with `request.tenant` once `ShardAwareTenantMiddleware` has set it. -/
  | request (tenant : Option Registered)
  /-- `use_alias("default")`. -/
  | pinned (token : Option Alias)
  /-- `tenant_context(t)`. -/
  | switched (t : TenantSnapshot) (prevTenant : Option Recorded) (token : Option Alias)
  /-- The sharded branch of `TenantShardRoutingMiddleware.__call__`. -/
  | routed (t : TenantSnapshot) (prevTenant : Option Recorded) (token : Option Alias)
  /-- A bare in-process call of a task. -/
  | called

/-- A thread: its routing state and its open blocks, innermost first. -/
structure Thread where
  routing : Routing
  frames : List Frame

/-- A move of a thread. The `fault` of an entry says whether its schema-set fails, and
if so whether the wrapper had recorded the tenant by then. -/
inductive Act
  /-- The first line of `process_request`: `connection.set_schema_to_public()`. -/
  | processRequest
  /-- `connection.set_tenant(request.tenant)` of the resolved tenant. -/
  | setTenant (t : Registered)
  /-- `TenantShardRoutingMiddleware.__call__`. -/
  | route (fault : Option Bool)
  | tenantContext (t : TenantSnapshot) (fault : Option Bool)
  /-- `TenantTask.__call__`; `none` when `get_tenant_for_schema` raises. -/
  | task (header : Option SchemaName) (tenant : Option Registered) (fault : Option Bool)
  /-- The innermost block returns or raises. -/
  | leave

/-- The routing state once `_switch` has entered `t` on its shard. -/
def Routing.entering (s : Routing) (t : TenantSnapshot) : Routing :=
  Routing.record { s with currentDb := some t.shard.dbAlias } t.shard.dbAlias (.tenant t)

/-- The routing state after an entry of `_switch` that failed in its setter. -/
def Routing.failedEntry (s : Routing) (t : TenantSnapshot) (prev : Option Recorded)
    (recorded : Bool) : Routing :=
  Routing.restore
    (if recorded then s.entering t else { s with currentDb := some t.shard.dbAlias })
    t.shard.dbAlias prev s.currentDb

/-- Enter `tenant_context(t)`, where `opened` is the frame of the open block. -/
def Thread.enter (th : Thread) (t : TenantSnapshot) (fault : Option Bool)
    (opened : Option Recorded → Option Alias → Frame) : Thread :=
  match th.routing.connections t.shard.dbAlias with
  | none => th
  | some c =>
    match fault with
    | none => ⟨th.routing.entering t, opened c.tenant th.routing.currentDb :: th.frames⟩
    | some recorded => { th with routing := th.routing.failedEntry t c.tenant recorded }

/-- Enter `use_alias("default")`. -/
def Thread.pin (th : Thread) : Thread :=
  ⟨{ th.routing with currentDb := some defaultAlias }, .pinned th.routing.currentDb :: th.frames⟩

/-- The clean-up of a block. -/
def Frame.cleanUp : Frame → Routing → Routing
  | .request _, s => s
  | .pinned token, s => { s with currentDb := token }
  | .switched t prev token, s => s.restore t.shard.dbAlias prev token
  | .routed t prev token, s =>
    (s.restore t.shard.dbAlias prev token).setSchemaToPublic t.shard.dbAlias
  | .called, s => s

/-- The routing middleware under a request: an entry that fails still leaves the shard
connection on public. -/
def Thread.route (th : Thread) (tenant : Option Registered) (fault : Option Bool) : Thread :=
  match tenant with
  | none => th.pin
  | some t =>
    if t.1.shard.dbAlias = defaultAlias then th.pin
    else match th.routing.connections t.1.shard.dbAlias, fault with
      | some _, some _ =>
        { th with routing :=
            (th.enter t.1 fault (.routed t.1)).routing.setSchemaToPublic t.1.shard.dbAlias }
      | _, _ => th.enter t.1 fault (.routed t.1)

/-- The thread after a move; `none` when the move is not possible here. A request starts
where no block is open. -/
def Thread.after (th : Thread) : Act → Option Thread
  | .processRequest =>
    if th.frames.isEmpty then
      some ⟨th.routing.setSchemaToPublic defaultAlias, [.request none]⟩
    else none
  | .setTenant t =>
    match th.frames with
    | [.request none] => some ⟨th.routing.record defaultAlias (.tenant t.1), [.request (some t)]⟩
    | _ => none
  | .route fault =>
    match th.frames with
    | [.request tenant] => some (th.route tenant fault)
    | _ => none
  | .tenantContext t fault =>
    if t.shard.dbAlias = defaultAlias then none
    else some (th.enter t fault (.switched t))
  | .task header tenant fault =>
    let schema := orElse header ""
    if schema = "" then some { th with frames := .called :: th.frames }
    else if schema = publicSchemaName then some th.pin
    else match tenant with
      | none => some th
      | some t =>
        if t.1.schemaName = schema then some (th.enter t.1 fault (.switched t.1)) else none
  | .leave =>
    match th.frames with
    | [] => none
    | f :: fs => some ⟨f.cleanUp th.routing, fs⟩

/-- What a move can do. A tenant is entered outside `default` only; a lookup that raises
leaves the thread as it was. -/
inductive Thread.Moved (th : Thread) : Act → Thread → Prop
  | requested : th.frames = [] →
      Moved th .processRequest ⟨th.routing.setSchemaToPublic defaultAlias, [.request none]⟩
  | resolved (t : Registered) : th.frames = [.request none] →
      Moved th (.setTenant t)
        ⟨th.routing.record defaultAlias (.tenant t.1), [.request (some t)]⟩
  | routed (tenant : Option Registered) (fault : Option Bool) :
      th.frames = [.request tenant] → Moved th (.route fault) (th.route tenant fault)
  | entered (act : Act) (t : TenantSnapshot) (fault : Option Bool) :
      t.shard.dbAlias ≠ defaultAlias → Moved th act (th.enter t fault (.switched t))
  | called (header : Option SchemaName) (tenant : Option Registered) (fault : Option Bool) :
      Moved th (.task header tenant fault) { th with frames := .called :: th.frames }
  | pinned (header : Option SchemaName) (tenant : Option Registered) (fault : Option Bool) :
      orElse header "" = publicSchemaName → Moved th (.task header tenant fault) th.pin
  | refused (act : Act) : Moved th act th
  | left (f : Frame) (fs : List Frame) : th.frames = f :: fs →
      Moved th .leave ⟨f.cleanUp th.routing, fs⟩

/-- Every move is one of these. -/
theorem Thread.moved_of_after {th th' : Thread} {act : Act} (h : th.after act = some th') :
    th.Moved act th' := by
  cases act with
  | processRequest =>
    simp only [Thread.after, List.isEmpty_iff] at h
    split at h
    · rename_i hfs
      obtain rfl := Option.some.inj h
      exact .requested hfs
    · cases h
  | setTenant t =>
    simp only [Thread.after] at h
    split at h
    · rename_i hfs
      obtain rfl := Option.some.inj h
      exact .resolved t hfs
    · cases h
  | route fault =>
    simp only [Thread.after] at h
    split at h
    · rename_i tenant hfs
      obtain rfl := Option.some.inj h
      exact .routed tenant fault hfs
    · cases h
  | tenantContext t fault =>
    simp only [Thread.after] at h
    split at h
    · cases h
    · rename_i ht
      obtain rfl := Option.some.inj h
      exact .entered _ t fault ht
  | task header tenant fault =>
    simp only [Thread.after] at h
    split at h
    · obtain rfl := Option.some.inj h
      exact .called header tenant fault
    split at h
    · rename_i hpublic
      obtain rfl := Option.some.inj h
      exact .pinned header tenant fault hpublic
    rename_i hpublic
    split at h
    · obtain rfl := Option.some.inj h
      exact .refused _
    split at h
    · rename_i t hname
      obtain rfl := Option.some.inj h
      -- A header other than public names a tenant outside `default`.
      have ht : t.1.shard.dbAlias ≠ defaultAlias := by
        intro hdefault
        exact hpublic (hname.symm.trans (t.2.mpr hdefault))
      exact .entered _ t.1 fault ht
    · cases h
  | leave =>
    simp only [Thread.after] at h
    split at h
    · cases h
    · rename_i f fs hfs
      obtain rfl := Option.some.inj h
      exact .left f fs hfs

/-- The moves of a thread from `th₀`, each with the thread it was made in. -/
inductive Thread.Trace (th₀ : Thread) : List (Thread × Act) → Thread → Prop
  | start : Trace th₀ [] th₀
  | move {tr : List (Thread × Act)} {th th' : Thread} (act : Act) :
      Trace th₀ tr th → th.after act = some th' → Trace th₀ (tr ++ [(th, act)]) th'

/-- Moves made one after the other. -/
theorem Thread.Trace.append {th₀ th₁ th₂ : Thread} {tr₁ tr₂ : List (Thread × Act)}
    (h₁ : Trace th₀ tr₁ th₁) (h₂ : Trace th₁ tr₂ th₂) : Trace th₀ (tr₁ ++ tr₂) th₂ := by
  induction h₂ with
  | start => simpa using h₁
  | move act _ hstep ih =>
    rw [← List.append_assoc]
    exact .move act ih hstep

/-- One move. -/
theorem Thread.Trace.single {th th' : Thread} (act : Act) (h : th.after act = some th') :
    Trace th [(th, act)] th' := .move act .start h

section Simulation

variable {ε α β : Type} {doesNotExist : Alias → ε}

/-- The moves of a thread can follow the action: from any state, with any blocks open,
they reach the state that the action leaves, with the same blocks open. -/
def Followed (m : Action Routing ε α) : Prop :=
  ∀ (s : Routing) (fs : List Frame), ∃ tr, Thread.Trace ⟨s, fs⟩ tr ⟨(m s).2, fs⟩

theorem Followed.pure (a : α) : Followed (Pure.pure a : Action Routing ε α) :=
  fun _ _ => ⟨[], .start⟩

theorem Followed.raise (e : ε) : Followed (Action.raise e : Action Routing ε α) :=
  fun _ _ => ⟨[], .start⟩

theorem Followed.bind {m : Action Routing ε α} {f : α → Action Routing ε β} (hm : Followed m)
    (hf : ∀ a, Followed (f a)) : Followed (m >>= f) := by
  intro s fs
  obtain ⟨tr₁, h₁⟩ := hm s fs
  rw [Action.bind_apply]
  rcases h : m s with ⟨r, s'⟩
  rw [h] at h₁
  cases r with
  | error e => exact ⟨tr₁, h₁⟩
  | ok a =>
    obtain ⟨tr₂, h₂⟩ := hf a s' fs
    exact ⟨tr₁ ++ tr₂, h₁.append h₂⟩

/-- The state `tenant_context` leaves around a body, in the terms of the moves. -/
theorem tenantContext_state (t : TenantSnapshot) (fault : Option (SetFault ε))
    (body : Action Routing ε α) {s : Routing} {c : Connection}
    (hc : s.connections t.shard.dbAlias = some c) :
    (tenantContext doesNotExist t none fault body s).2 =
      match fault with
      | none => (body (s.entering t)).2.restore t.shard.dbAlias c.tenant s.currentDb
      | some f => s.failedEntry t c.tenant f.recorded := by
  change (switch doesNotExist t.shard.dbAlias (.tenant t) fault body s).2 = _
  rw [switch_known _ fault body hc]
  cases fault with
  | none => rfl
  | some f => rfl

/-- Entering a tenant, running a followed body and leaving again. -/
theorem Followed.around {body : Action Routing ε α} (hb : Followed body) {th th' : Thread}
    {f : Frame} {s : Routing} {fs : List Frame} (act : Act) (hth : th.after act = some th')
    (hopen : th' = ⟨s, f :: fs⟩) :
    ∃ tr, Thread.Trace th tr ⟨f.cleanUp (body s).2, fs⟩ := by
  subst hopen
  obtain ⟨tr, htr⟩ := hb s (f :: fs)
  exact ⟨_, ((Thread.Trace.single act hth).append htr).append (.single .leave rfl)⟩

/-- `tenant_context` of a sharded tenant, entered by any move that opens it. -/
theorem Followed.entered {body : Action Routing ε α} (hb : Followed body) (t : TenantSnapshot)
    (fault : Option (SetFault ε)) {s : Routing} {fs : List Frame} (act : Act)
    (hact : (⟨s, fs⟩ : Thread).after act =
      some (Thread.enter ⟨s, fs⟩ t (fault.map SetFault.recorded) (.switched t))) :
    ∃ tr, Thread.Trace ⟨s, fs⟩ tr ⟨(tenantContext doesNotExist t none fault body s).2, fs⟩ := by
  cases hc : s.connections t.shard.dbAlias with
  | none =>
    have hunknown : tenantContext doesNotExist t none fault body s =
        (.error (doesNotExist t.shard.dbAlias), s) := switch_unknown _ _ _ hc
    rw [hunknown]
    exact ⟨[], .start⟩
  | some c =>
    rw [tenantContext_state t fault body hc]
    simp only [Thread.enter, hc] at hact
    cases fault with
    | none => exact hb.around act hact rfl
    | some f => exact ⟨_, .single act hact⟩

/-- `tenant_context(t)` for `t` on a shard. -/
theorem Followed.tenantContext {body : Action Routing ε α} (hb : Followed body)
    {t : TenantSnapshot} (ht : t.shard.dbAlias ≠ defaultAlias) (fault : Option (SetFault ε)) :
    Followed (tenantContext doesNotExist t none fault body) := by
  intro s fs
  refine hb.entered t fault (.tenantContext t (fault.map SetFault.recorded)) ?_
  simp only [Thread.after, ht, if_false]

/-- `TenantTask.__call__` with any header, given that the lookup answers a registered
tenant of the schema it was asked for. -/
theorem Followed.task {body : Action Routing ε α} (hb : Followed body)
    (header : Option SchemaName) (get : Except ε TenantSnapshot) (fault : Option (SetFault ε))
    (hget : ∀ t, get = .ok t → t.Placed ∧ t.schemaName = orElse header "") :
    Followed (taskCall doesNotExist header get fault body) := by
  intro s fs
  unfold taskCall
  by_cases hbare : orElse header "" = ""
  · rw [if_pos hbare]
    refine hb.around (.task header none none) (f := .called) ?_ rfl
    simp only [Thread.after, hbare, if_true]
  by_cases hpublic : orElse header "" = publicSchemaName
  · rw [if_neg hbare, if_pos hpublic]
    refine hb.around (.task header none none) (f := .pinned s.currentDb) ?_ rfl
    simp only [Thread.after, hpublic, if_true]
    rw [if_neg (by decide)]
    rfl
  rw [if_neg hbare, if_neg hpublic]
  cases get with
  | error e => exact ⟨[], .start⟩
  | ok t =>
    obtain ⟨hplaced, hname⟩ := hget t rfl
    refine hb.entered t fault
      (.task header (some ⟨t, hplaced⟩) (fault.map SetFault.recorded)) ?_
    simp only [Thread.after, hbare, hpublic, if_false, hname, if_true]

/-- `TenantShardRoutingMiddleware.__call__` inside a request. -/
theorem Followed.middleware {handler : Action Routing ε Unit} (hb : Followed handler)
    (tenant : Option Registered) (fault : Option (SetFault ε)) (s : Routing) :
    ∃ tr, Thread.Trace ⟨s, [.request tenant]⟩ tr
      ⟨(middlewareCall doesNotExist (tenant.map Subtype.val) fault handler s).2,
        [.request tenant]⟩ := by
  cases tenant with
  | none => exact hb.around (.route none) (f := .pinned s.currentDb) rfl rfl
  | some t =>
    by_cases hdefault : t.1.shard.dbAlias = defaultAlias
    · rw [Option.map_some, middlewareCall_of_entered_none fault handler
        (by simp only [Context.entered, Option.bind_some, hdefault, if_true])]
      refine hb.around (.route none) (f := .pinned s.currentDb) ?_ rfl
      simp only [Thread.after, Thread.route, hdefault, if_true]
      rfl
    cases hc : s.connections t.1.shard.dbAlias with
    | none =>
      rw [Option.map_some, middlewareCall_of_unknown fault handler hdefault hc]
      exact ⟨[], .start⟩
    | some c =>
      rw [Option.map_some, middlewareCall_of_known fault handler hdefault hc,
        tenantContext_state t.1 fault handler hc]
      cases fault with
      | none =>
        refine hb.around (.route none) (f := .routed t.1 c.tenant s.currentDb) ?_ rfl
        simp only [Thread.after, Thread.route, hdefault, if_false, hc, Thread.enter]
      | some f =>
        refine ⟨_, .single (.route (some f.recorded)) ?_⟩
        simp only [Thread.after, Thread.route, hdefault, if_false, hc, Thread.enter]

end Simulation

end Context

end MtShards
