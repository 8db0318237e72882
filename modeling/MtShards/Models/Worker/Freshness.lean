import MtShards.Models.Worker.TaskRouting

/-!
# Tasks are routed on rows that were read after the last invalidation

The protocol of the programs, and the condition on the timing of a run. Under it no call returns a
snapshot whose row was read before an invalidation that had been carried out when the call began.
-/

namespace MtShards.Worker

open MtShards.Core Resolver Program

/-! ### The cache of a worker process -/

namespace SimpleCache

variable {V : Type} {items : SimpleCache V} {now seconds : Nat} {key n : SchemaName}
  {v : V} {x : CacheEntry V}

private theorem mem_of_mem_get (h : (n, x) ∈ (SimpleCache.get items now key).2) : (n, x) ∈ items := by
  unfold SimpleCache.get at h
  split at h
  · exact h
  · split at h
    · exact List.mem_of_mem_filter h
    · exact h

/-- What is found is there and has not expired. -/
theorem mem_of_get (h : (SimpleCache.get items now key).1 = some v) :
    ∃ x, (key, x) ∈ items ∧ x.value = v ∧ now ≤ x.expiresAt := by
  unfold SimpleCache.get at h
  split at h
  · cases h
  · rename_i x hx
    split at h
    · cases h
    · rename_i halive
      obtain ⟨before, after, rfl, -⟩ := List.lookup_eq_some_iff.mp hx
      refine ⟨x, List.mem_append_right _ List.mem_cons_self, Option.some.inj h, ?_⟩
      exact Nat.le_of_not_lt halive

/-- What is there after a write is what was written, or was there before. -/
theorem mem_of_mem_set (h : (n, x) ∈ SimpleCache.set items now key v seconds) :
    (n = key ∧ x = ⟨v, now + seconds⟩) ∨ (n, x) ∈ items := by
  unfold SimpleCache.set at h
  rcases List.mem_cons.mp h with hnew | hold
  · cases hnew
    exact .inl ⟨rfl, rfl⟩
  · have hkept := List.mem_of_mem_filter hold
    split at hkept
    · exact .inr (List.mem_of_mem_filter hkept)
    · exact .inr hkept

end SimpleCache

/-! ### What a process has read -/

/-- Where a process stands. -/
inductive Phase
  | idle
  /-- A resolver has read a row. -/
  | read (r : Reading)
  /-- A call has found a hold on the key of its schema, or nothing that it could use. -/
  | held (n : SchemaName)
  | missed (n : SchemaName)
  /-- The cache of the worker process had nothing either. -/
  | empty (n : SchemaName)
  /-- The row was read, the cache of the worker process is filled next. -/
  | fetched (n : SchemaName) (r : Reading)
  /-- What the call returns. -/
  | found (n : SchemaName) (r : Reading)
  deriving DecidableEq, Repr

namespace Phase

/-- The phase of a call after its look at the shared cache. -/
def looked (n : SchemaName) : Option (Cached Reading) → Phase
  | some (.positive r) => found n r
  | some .tombstone => held n
  | _ => missed n

/-- The phase after an answer. -/
def after (φ : Phase) : (op : Req) → op.Ans → Phase
  | .readRow _, row => row.elim idle read
  | .cacheGet (.schema n), e => looked n e
  | .l1Get n, r => r.elim (empty n) (found n)
  | .dbGet n, r => match r, φ with
    | none, _ => idle
    | some r, held _ => found n r
    | some r, _ => fetched n r
  | .l1Set n r _, _ => found n r
  | _, _ => φ

def next (φ : Phase) (op : Req) : Except Exn op.Ans → Phase
  | .ok a => φ.after op a
  | .error _ => idle

/-- The requests a phase permits. -/
def Permits (cfg : Config) (φ : Phase) : Req → Prop
  | .setNx (.schema n) e _ => ∃ r, φ = read r ∧ n = r.tenant.schemaName ∧ e = .positive r
  | .l1Get n => φ = missed n
  | .dbGet n => φ = held n ∨ φ = empty n
  | .l1Set n r seconds => φ = fetched n r ∧ seconds = cfg.taskTenantCacheSeconds
  | .enter n r => φ = found n r
  | .setTombstone _ ttl => ttl = cfg.holdSeconds
  | .deleteMany _ => cfg.holdSeconds = 0
  | _ => True

end Phase

/-- The automaton. -/
def protocol (cfg : Config) : Protocol Req Req.Ans Exn Phase where
  init := .idle
  permits φ op := φ.Permits cfg op
  next := Phase.next
  mayStop _ := True
  mayStop_init := trivial

section Conformance

variable {cfg : Config} {φ : Phase} {n : SchemaName}

/-- What a call of `get_tenant_for_schema` returns is what its phase says. -/
def Returns (n : SchemaName) (φ : Phase) : Except Exn Reading → Prop :=
  onOutcome (fun r => φ = .found n r) fun _ => True

private theorem dbGet_held : (dbGet n).Follows (protocol cfg) (.held n) (Returns n) := by
  refine ⟨.inl rfl, fun r => ?_⟩
  cases r with
  | error e => trivial
  | ok row => cases row <;> trivial

/-- The local cache follows the protocol. -/
theorem localGet_follows : (localGet cfg n).Follows (protocol cfg) (.missed n) (Returns n) := by
  refine ⟨rfl, fun r => ?_⟩
  cases r with
  | error e => trivial
  | ok found =>
    cases found with
    | some r => rfl
    | none =>
      refine ⟨.inr rfl, fun r => ?_⟩
      cases r with
      | error e => trivial
      | ok row =>
        cases row with
        | none => trivial
        | some r =>
          refine ⟨⟨rfl, rfl⟩, fun r => ?_⟩
          cases r <;> trivial

private theorem getTenantForSchema_follows (hon : cfg.enabled = true) :
    (getTenantForSchema cfg n).Follows (protocol cfg) .idle (Returns n) := by
  unfold getTenantForSchema
  rw [if_pos hon]
  refine ⟨trivial, fun r => ?_⟩
  cases r with
  | error e => trivial
  | ok seen =>
    cases seen with
    | none => exact localGet_follows
    | some e =>
      cases e with
      | positive r => rfl
      | tombstone => exact dbGet_held
      | negative => exact localGet_follows
      | corrupt => exact localGet_follows

private theorem runTask_follows (hon : cfg.enabled = true) :
    (runTask cfg n).Follows (protocol cfg) .idle fun _ _ => True := by
  unfold runTask
  rw [follows_bind]
  refine (getTenantForSchema_follows hon).mono fun φ r hr => ?_
  cases r with
  | error e => trivial
  | ok r =>
    refine ⟨hr, fun r => ?_⟩
    trivial

private theorem fill_follows (h : Host) : (fill cfg h).Follows (protocol cfg) .idle fun _ _ => True := by
  refine ⟨trivial, fun row => ?_⟩
  cases row with
  | error e => trivial
  | ok row =>
    cases row with
    | none =>
      have hmiss : (storeMiss cfg h).Follows (protocol cfg) .idle fun _ _ => True := by
        unfold storeMiss
        split
        · trivial
        · refine ⟨trivial, fun r => ?_⟩
          cases r <;> trivial
      change Follows (protocol cfg) (storeMiss cfg h >>= fun _ => raise (.notFound h)) .idle _
      rw [follows_bind]
      refine hmiss.mono fun φ r _ => ?_
      cases r <;> trivial
    | some r =>
      refine Follows.void ?_
      unfold put
      split
      · trivial
      · refine ⟨trivial, fun filled => ?_⟩
        cases filled with
        | error e => trivial
        | ok filled =>
          refine ⟨⟨r, rfl, rfl, rfl⟩, fun landed => ?_⟩
          cases landed <;> trivial

/-- The requests of a writer. -/
def Writes (cfg : Config) : Req → Prop
  | .readHosts _ | .readHostsOf _ | .getMany _ | .commit _ => True
  | .setTombstone _ ttl => ttl = cfg.holdSeconds
  | .deleteMany _ => cfg.holdSeconds = 0
  | _ => False

private theorem setTombstones_only {ks : List Key} :
    (setTombstones cfg.holdSeconds ks).Only (Writes cfg) := by
  induction ks with
  | nil => trivial
  | cons k ks ih => exact Only.bind (only_request.mpr rfl) fun _ => ih

/-- Writing tombstones makes only writes. -/
theorem tombstoneKeys_only (keys : List Key) : (tombstoneKeys cfg keys).Only (Writes cfg) := by
  unfold tombstoneKeys
  split
  · trivial
  · split
    · rename_i hoff
      exact only_request.mpr hoff
    · exact setTombstones_only

/-- Forgetting hosts makes only writes. -/
theorem forgetHosts_only (hosts : List Host) (schemas : List SchemaName) :
    (forgetHosts hosts schemas).Only (Writes cfg) := by
  unfold forgetHosts
  simp only
  split
  · exact only_pure
  · exact Only.bind (only_request.mpr trivial) fun _ => only_pure

/-- Naming keys makes only writes. -/
theorem Names.only {name : Prog (List Key)} (h : Names name) : name.Only (Writes cfg) := by
  cases h with
  | tenant t => exact Only.bind (only_request.mpr trivial) fun _ => only_pure
  | hosts hostnames schemas => exact forgetHosts_only hostnames schemas
  | schemas ns => exact Only.bind (only_request.mpr trivial) fun hosts => forgetHosts_only hosts ns

private theorem permits_of_writes {op : Req} (h : Writes cfg op) : φ.Permits cfg op := by
  cases op with
  | setTombstone k ttl => exact h
  | deleteMany ks => exact h
  | readHosts | readHostsOf | getMany | commit => trivial
  | readRow | dbGet | cacheGet | setNx | l1Get | l1Set | enter => exact h.elim

/-- Every program of the system follows the protocol. -/
theorem allFollow (hon : cfg.enabled = true) : AllFollow (protocol cfg) (Starts cfg) := by
  have hwriter : ∀ {x : Prog Unit}, x.Only (Writes cfg) →
      x.Follows (protocol cfg) .idle fun _ _ => True := fun hx =>
    hx.follows_anywhere fun _ _ hop => permits_of_writes hop
  intro p prog hstart
  cases hstart with
  | task n => exact runTask_follows hon
  | fill h => exact fill_follows h
  | atomic db hname =>
    exact hwriter (hname.only.bind fun keys =>
      (only_request.mpr trivial).bind fun _ => tombstoneKeys_only keys)
  | direct db hname =>
    exact hwriter ((only_request.mpr trivial).bind fun _ =>
      hname.only.bind fun keys => tombstoneKeys_only keys)

end Conformance

/-! ### The condition -/

/-- A resolver writes under the key of a schema less than the hold time after it has read the
row. -/
def FillsInTime (cfg : Config) (e : Event) : Prop :=
  ∀ p n r ttl a, e.label = .answer p (.setNx (.schema n) (.positive r) ttl) a →
    e.pre.now < r.readAt + cfg.holdSeconds

/-- When an invalidation puts its hold on a schema, what the worker process has of the schema
expires before the hold ends. -/
def OutlivesEntry (cfg : Config) (e : Event) : Prop :=
  ∀ p op a, e.label = .answer p op a → ∀ n, .schema n ∈ op.drops →
    ∀ x, (n, x) ∈ e.pre.l1 → x.expiresAt < e.pre.now + cfg.holdSeconds

/-- What the worker process keeps expires before the holds end that were put on the schema since
its row was read. -/
def KeptInTime (e : Event) : Prop :=
  ∀ p n r seconds a, e.label = .answer p (.l1Set n r seconds) a →
    ∀ i, r.seen < i → i ≤ e.pre.invalidations n → e.pre.now + seconds < e.pre.heldUntil n i

/-- The condition on a step. -/
structure InTime (cfg : Config) (e : Event) : Prop where
  fills : FillsInTime cfg e
  outlives : OutlivesEntry cfg e
  kept : KeptInTime e

/-! ### The invariant -/

/-- How many invalidations of a schema had been carried out when a process was last started. -/
def seenAtStart (p : Pid) : List Event → SchemaName → Nat
  | [] => fun _ => 0
  | ⟨.start q, s, _⟩ :: t => if q = p then s.invalidations else seenAtStart p t
  | _ :: t => seenAtStart p t

/-- What the two caches hold. -/
structure World.Sound (s : World) : Prop where
  /-- A cached row was read after the last invalidation. -/
  cached : ∀ n r, s.snap (.schema n) = some (.positive r) → s.invalidations n ≤ r.seen
  /-- Until the last hold ends, it is there. -/
  held : ∀ n, 0 < s.invalidations n → s.now < s.heldUntil n (s.invalidations n) →
    s.snaps (.schema n) = some ⟨.tombstone, some (s.heldUntil n (s.invalidations n))⟩
  /-- What the worker process has expires before the holds end that came after it. -/
  entry : ∀ n x, (n, x) ∈ s.l1 → ∀ i, x.value.seen < i → i ≤ s.invalidations n →
    x.expiresAt < s.heldUntil n i

/-- What is known of a process, given the invalidations it has seen at its start. -/
def Phase.Sound (cfg : Config) (start : SchemaName → Nat) (s : World) : Phase → Prop
  | read r => r.readAt ≤ s.now ∧ (s.invalidations r.tenant.schemaName ≤ r.seen ∨
      r.readAt + cfg.holdSeconds ≤
        s.heldUntil r.tenant.schemaName (s.invalidations r.tenant.schemaName))
  | missed n => ∃ i, start n ≤ i ∧ i ≤ s.invalidations n ∧ (i = 0 ∨ s.heldUntil n i ≤ s.now)
  | fetched n r | found n r => start n ≤ r.seen
  | idle | held _ | empty _ => True

/-- The invariant. -/
structure Sound (cfg : Config) (t : List Event) (s : World) : Prop where
  world : s.Sound
  started : ∀ p n, seenAtStart p t n ≤ s.invalidations n
  phase : ∀ p, (phaseAt (protocol cfg) p t).Sound cfg (seenAtStart p t) s

/-- What any step does to the record of invalidations. -/
structure Later (cfg : Config) (s s' : World) : Prop where
  now : s.now ≤ s'.now
  more : ∀ n, s.invalidations n ≤ s'.invalidations n
  same : ∀ n i, i ≤ s.invalidations n → s'.heldUntil n i = s.heldUntil n i
  hold : ∀ n, s'.invalidations n = s.invalidations n ∨
    s.now + cfg.holdSeconds ≤ s'.heldUntil n (s'.invalidations n)

variable {cfg : Config} {s s' : World} {t : List Event} {p : Pid} {n : SchemaName} {op : Req}

/-- A world with the same invalidations and a later clock is later. -/
theorem Later.of_eq (hnow : s.now ≤ s'.now) (hinv : s'.invalidations = s.invalidations)
    (hheld : s'.heldUntil = s.heldUntil) : Later cfg s s' where
  now := hnow
  more n := by rw [hinv]
  same n i _ := by rw [hheld]
  hold n := .inl (by rw [hinv])

/-- An invalidation counts for the schemas that it names. -/
theorem invalidations_invalidated (ks : List Key) (stop : Nat) (n : SchemaName) :
    (s.invalidated ks stop).invalidations n =
      if .schema n ∈ ks then s.invalidations n + 1 else s.invalidations n := rfl

/-- An invalidation leaves the holds of those before it alone. -/
theorem heldUntil_invalidated_of_le {ks : List Key} {stop i : Nat} (hi : i ≤ s.invalidations n) :
    (s.invalidated ks stop).heldUntil n i = s.heldUntil n i := by
  refine if_neg fun h => ?_
  omega

/-- An invalidation holds its schemas until it says. -/
theorem heldUntil_invalidated_last {ks : List Key} (stop : Nat) (hn : .schema n ∈ ks) :
    (s.invalidated ks stop).heldUntil n ((s.invalidated ks stop).invalidations n) = stop := by
  rw [invalidations_invalidated, if_pos hn]
  exact if_pos ⟨hn, rfl⟩

/-- A world with one more invalidation, held long enough, is later. -/
theorem Later.of_invalidated {ks : List Key} {stop : Nat}
    (hstop : s.now + cfg.holdSeconds ≤ stop) (s₁ : World) (hnow : s₁.now = s.now)
    (hinv : s₁.invalidations = s.invalidations) (hheld : s₁.heldUntil = s.heldUntil) :
    Later cfg s (s₁.invalidated ks stop) where
  now := Nat.le_of_eq hnow.symm
  more n := by
    rw [invalidations_invalidated, hinv]
    split
    · exact Nat.le_succ _
    · exact Nat.le_refl _
  same n i hi := by
    rw [heldUntil_invalidated_of_le (by rwa [hinv]), hheld]
  hold n := by
    by_cases hn : .schema n ∈ ks
    · rw [heldUntil_invalidated_last stop hn]
      exact .inr hstop
    · rw [invalidations_invalidated, if_neg hn, hinv]
      exact .inl rfl

/-- Every permitted request moves the record forward. -/
theorem Later.of_apply {φ : Phase} (h : φ.Permits cfg op) : Later cfg s (op.apply s) := by
  cases op with
  | setTombstone k ttl =>
    obtain rfl : ttl = cfg.holdSeconds := h
    exact .of_invalidated (Nat.le_refl _) _ rfl rfl rfl
  | deleteMany ks =>
    have hoff : cfg.holdSeconds = 0 := h
    exact .of_invalidated (by rw [hoff]; exact Nat.le_refl _) _ rfl rfl rfl
  | _ => exact .of_eq (Nat.le_refl _) rfl rfl

/-- What is known of a process stays so. -/
theorem Phase.Sound.later {φ : Phase} {start : SchemaName → Nat} (h : φ.Sound cfg start s)
    (hlater : Later cfg s s') : φ.Sound cfg start s' := by
  cases φ with
  | read r =>
    obtain ⟨hpast, hfresh⟩ := h
    refine ⟨Nat.le_trans hpast hlater.now, ?_⟩
    rcases hlater.hold r.tenant.schemaName with hsame | hhold
    · rw [hsame, hlater.same _ _ (Nat.le_refl _)]
      exact hfresh
    · exact .inr (by omega)
  | missed n =>
    obtain ⟨i, hstart, hi, hended⟩ := h
    refine ⟨i, hstart, Nat.le_trans hi (hlater.more n), ?_⟩
    rw [hlater.same n i hi]
    exact hended.imp_right fun hle => Nat.le_trans hle hlater.now
  | fetched n r => exact h
  | found n r => exact h
  | idle | held | empty => trivial

/-! ### One step -/

/-- A guarded write leaves a key as it is, or finds nothing under it. -/
theorem World.Sound.setNx {k : Key} {e : Cached Reading} {ttl : Option Nat} (h : s.Sound)
    (hfresh : ∀ n r, k = .schema n → e = .positive r → s.snap k = none →
      s.invalidations n ≤ r.seen) :
    (Req.apply s (.setNx k e ttl)).Sound where
  cached n r hr := by
    rcases TtlStore.setNx_apply s.snaps s.now k (.lasting s.now e ttl) (.schema n) with
      hsame | ⟨hk, hnone, hnew⟩
    · refine h.cached n r ?_
      rw [World.snap, TtlStore.get, ← hsame]
      exact hr
    · change Cell.peek s.now ((s.snaps.setNx s.now k _) (.schema n)) = _ at hr
      rw [hnew] at hr
      obtain ⟨_, hcell, _⟩ := Cell.peek_eq_some.mp hr
      have hvalue : e = .positive r := congrArg Cell.value (Option.some.inj hcell)
      exact hfresh n r hk.symm hvalue hnone
  held n hpos hlive := by
    have hlive : s.now < s.heldUntil n (s.invalidations n) := hlive
    have hthere := h.held n hpos hlive
    rcases TtlStore.setNx_apply s.snaps s.now k (.lasting s.now e ttl) (.schema n) with
      hsame | ⟨hk, hnone, -⟩
    · exact hsame.trans hthere
    · rw [TtlStore.get, ← hk, hthere, Cell.peek_until _ hlive] at hnone
      cases hnone
  entry := h.entry

/-- An invalidation, with a hold of the keys or without. -/
theorem World.Sound.drop {ks : List Key} {stop : Nat} {snaps : TtlStore Key (Cached Reading)}
    (h : s.Sound) (hkeep : ∀ n, .schema n ∉ ks → snaps (.schema n) = s.snaps (.schema n))
    (hdrop : ∀ n, .schema n ∈ ks → snaps (.schema n) = some ⟨.tombstone, some stop⟩ ∨
      snaps (.schema n) = none ∧ stop ≤ s.now)
    (houtlives : ∀ n x, .schema n ∈ ks → (n, x) ∈ s.l1 → x.expiresAt < stop) :
    ({ s with snaps := snaps }.invalidated ks stop).Sound where
  cached n r hr := by
    change Cell.peek s.now (snaps (.schema n)) = _ at hr
    by_cases hn : .schema n ∈ ks
    · rcases hdrop n hn with hcell | ⟨hcell, -⟩
      · rw [hcell] at hr
        obtain ⟨_, hvalue, _⟩ := Cell.peek_eq_some.mp hr
        cases hvalue
      · rw [hcell] at hr
        cases hr
    · rw [hkeep n hn] at hr
      rw [invalidations_invalidated, if_neg hn]
      exact h.cached n r hr
  held n hpos hlive := by
    by_cases hn : .schema n ∈ ks
    · rw [heldUntil_invalidated_last stop hn] at hlive ⊢
      rcases hdrop n hn with hcell | ⟨-, hpast⟩
      · exact hcell
      · exact absurd hlive (Nat.not_lt.mpr hpast)
    · rw [invalidations_invalidated, if_neg hn] at hpos hlive ⊢
      rw [heldUntil_invalidated_of_le (Nat.le_refl _)] at hlive ⊢
      exact (hkeep n hn).trans (h.held n hpos hlive)
  entry n x hx i hseen hi := by
    by_cases hold : i ≤ s.invalidations n
    · rw [heldUntil_invalidated_of_le (s := { s with snaps := snaps }) hold]
      exact h.entry n x hx i hseen hold
    · -- The hold just put is the only one that was not there before.
      rw [invalidations_invalidated] at hi
      by_cases hn : .schema n ∈ ks
      · rw [if_pos hn] at hi
        obtain rfl : i = s.invalidations n + 1 := Nat.le_antisymm hi (Nat.lt_of_not_le hold)
        have hlast := heldUntil_invalidated_last (s := { s with snaps := snaps }) stop hn
        rw [invalidations_invalidated, if_pos hn] at hlast
        rw [hlast]
        exact houtlives n x hn hx
      · rw [if_neg hn] at hi
        exact absurd hi hold

/-- A resolver that is in time and finds nothing cached holds a row that is still good. -/
theorem Phase.Sound.fresh_of_fill {r : Reading} {start : SchemaName → Nat} (h : s.Sound)
    (hread : (Phase.read r).Sound cfg start s) (htime : s.now < r.readAt + cfg.holdSeconds)
    (hnone : s.snap (.schema r.tenant.schemaName) = none) :
    s.invalidations r.tenant.schemaName ≤ r.seen := by
  rcases hread.2 with hfresh | hheld
  · exact hfresh
  · rcases Nat.eq_zero_or_pos (s.invalidations r.tenant.schemaName) with hzero | hpos
    · rw [hzero]
      exact Nat.zero_le _
    · have hlive := Nat.lt_of_lt_of_le htime hheld
      rw [World.snap, TtlStore.get, h.held _ hpos hlive, Cell.peek_until _ hlive] at hnone
      cases hnone

/-- A permitted request that meets the condition keeps the caches sound. -/
theorem World.Sound.apply {φ : Phase} {start : SchemaName → Nat} (h : s.Sound)
    (hphase : φ.Sound cfg start s) (hop : φ.Permits cfg op)
    (htime : InTime cfg ⟨.answer p op (.ok (op.answer s)), s, op.apply s⟩) :
    (op.apply s).Sound := by
  cases op with
  | setNx k e ttl =>
    refine h.setNx fun n r hk he hnone => ?_
    subst hk he
    obtain ⟨r', rfl, rfl, hr⟩ := hop
    cases hr
    exact hphase.fresh_of_fill h (htime.fills p _ r ttl _ rfl) hnone
  | setTombstone k ttl =>
    obtain rfl : ttl = cfg.holdSeconds := hop
    refine h.drop (fun n hn => TtlStore.set_of_ne fun heq => hn ?_) (fun n hn => .inl ?_) ?_
    · exact List.mem_singleton.mpr heq
    · rw [← List.mem_singleton.mp hn]
      exact TtlStore.set_self
    · intro n x hn hx
      exact htime.outlives p _ _ rfl n hn x hx
  | deleteMany ks =>
    have hoff : cfg.holdSeconds = 0 := hop
    refine h.drop (fun n hn => TtlStore.erase_of_notMem hn)
      (fun n hn => .inr ⟨TtlStore.erase_of_mem hn, Nat.le_refl _⟩) ?_
    intro n x hn hx
    have hlt := htime.outlives p _ _ rfl n hn x hx
    rwa [hoff] at hlt
  | l1Get n => exact ⟨h.cached, h.held, fun n x hx => h.entry n x (SimpleCache.mem_of_mem_get hx)⟩
  | l1Set n r seconds =>
    refine ⟨h.cached, h.held, fun n' x hx => ?_⟩
    rcases SimpleCache.mem_of_mem_set hx with ⟨rfl, rfl⟩ | hx
    · exact htime.kept p _ r seconds _ rfl
    · exact h.entry n' x hx
  | readRow | dbGet | readHosts | readHostsOf | commit | cacheGet | getMany | enter =>
    exact ⟨h.cached, h.held, h.entry⟩

/-- Time goes by. -/
theorem World.Sound.wait {now : Nat} (h : s.Sound) (hle : s.now ≤ now) :
    World.Sound { s with now := now } where
  cached n r hr := h.cached n r (Cell.peek_of_later hle hr)
  held n hpos hlive := h.held n hpos (Nat.lt_of_le_of_lt hle hlive)
  entry := h.entry

/-- What a process knows after an answer. -/
theorem Phase.Sound.after {φ : Phase} {start : SchemaName → Nat} (hs : s.Sound)
    (h : φ.Sound cfg start s) (hop : φ.Permits cfg op) (hstart : ∀ n, start n ≤ s.invalidations n) :
    (φ.after op (op.answer s)).Sound cfg start (op.apply s) := by
  have hkept : φ.Sound cfg start (op.apply s) := h.later (.of_apply hop)
  cases op with
  | readRow host =>
    change (Option.elim ((s.db.rowOf host).map s.reading) idle read).Sound cfg start s
    cases s.db.rowOf host with
    | none => trivial
    | some row => exact ⟨Nat.le_refl _, .inl (Nat.le_refl _)⟩
  | cacheGet k =>
    cases k with
    | host host => exact hkept
    | schema n =>
      change (looked n (s.snap (.schema n))).Sound cfg start s
      have hmissed : s.snap (.schema n) ≠ some .tombstone → (missed n).Sound cfg start s := by
        intro hnone
        refine ⟨s.invalidations n, hstart n, Nat.le_refl _, ?_⟩
        rcases Nat.eq_zero_or_pos (s.invalidations n) with hzero | hpos
        · exact .inl hzero
        · refine .inr (Nat.le_of_not_lt fun hlive => hnone ?_)
          rw [World.snap, TtlStore.get, hs.held n hpos hlive, Cell.peek_until _ hlive]
      cases hsnap : s.snap (.schema n) with
      | none => exact hmissed fun h => by cases hsnap.symm.trans h
      | some e =>
        cases e with
        | positive r => exact Nat.le_trans (hstart n) (hs.cached n r hsnap)
        | tombstone => trivial
        | negative => exact hmissed fun h => by cases hsnap.symm.trans h
        | corrupt => exact hmissed fun h => by cases hsnap.symm.trans h
  | l1Get n =>
    obtain rfl : φ = missed n := hop
    obtain ⟨i, hi, hle, hended⟩ := h
    change (Option.elim (SimpleCache.get s.l1 s.now n).1 (empty n) (found n)).Sound cfg start _
    cases hget : (SimpleCache.get s.l1 s.now n).1 with
    | none => trivial
    | some r =>
      -- A row that was read before the last hold seen at the start would have expired by now.
      obtain ⟨x, hx, rfl, halive⟩ := SimpleCache.mem_of_get hget
      refine Nat.le_of_not_lt fun hstale => ?_
      have hexpired := hs.entry n x hx i (Nat.lt_of_lt_of_le hstale hi) hle
      omega
  | dbGet n =>
    change (Phase.after φ (.dbGet n) ((s.db.bySchema n).map s.reading)).Sound cfg start s
    cases hrow : s.db.bySchema n with
    | none => trivial
    | some row =>
      have hschema : row.schemaName = n := by simpa using List.find?_some hrow
      have hseen : start n ≤ (s.reading row).seen := by
        change start n ≤ s.invalidations row.schemaName
        rw [hschema]
        exact hstart n
      rcases hop with rfl | rfl
      · exact hseen
      · exact hseen
  | l1Set n r seconds =>
    obtain ⟨rfl, -⟩ := hop
    exact h
  | readHosts | readHostsOf | commit | getMany | setNx | setTombstone | deleteMany | enter =>
    exact hkept

/-! ### Runs -/

/-- A state before the run: nothing has been invalidated yet. -/
def World.Initial (s : World) : Prop := ∀ n, s.invalidations n = 0

/-- A world that begins is sound. -/
theorem World.Initial.sound (h : s.Initial) : s.Sound where
  cached n r _ := by
    rw [h n]
    exact Nat.zero_le _
  held n hpos _ := by
    rw [h n] at hpos
    exact absurd hpos (Nat.lt_irrefl 0)
  entry n x _ i hseen hi := by
    rw [h n] at hi
    omega

private theorem seenAtStart_of_ne_start {l : Label Pid Req Req.Ans Exn} (h : l ≠ .start p) :
    seenAtStart p (⟨l, s, s'⟩ :: t) = seenAtStart p t := by
  cases l with
  | start q =>
    refine if_neg fun hq => h ?_
    rw [hq]
  | inner | answer | env | kill => rfl

/-- One move keeps the invariant. -/
theorem Sound.move {l : Label Pid Req Req.Ans Exn} (h : Sound cfg t s)
    (htime : InTime cfg ⟨l, s, s'⟩) (hmove : Move machine (protocol cfg) t s l s') :
    Sound cfg (⟨l, s, s'⟩ :: t) s' := by
  cases hmove with
  | @start p _ =>
    refine ⟨h.world, fun q n => ?_, fun q => ?_⟩
    · by_cases hq : p = q
      · subst hq
        rw [seenAtStart, if_pos rfl]
      · rw [seenAtStart, if_neg hq]
        exact h.started q n
    · by_cases hq : p = q
      · subst hq
        rw [phaseAt_start_self]
        trivial
      · rw [phaseAt_start_of_ne hq, seenAtStart, if_neg hq]
        exact h.phase q
  | inner _ hinner => exact hinner.elim
  | @answer p op r _ hop hexec =>
    obtain ⟨rfl, rfl⟩ := hexec
    have hlater : Later cfg s (op.apply s) := .of_apply hop
    refine ⟨h.world.apply (h.phase p) hop htime, fun q n => ?_, fun q => ?_⟩
    · exact Nat.le_trans (h.started q n) (hlater.more n)
    · by_cases hq : p = q
      · subst hq
        rw [phaseAt_answer_self]
        exact (h.phase p).after h.world hop (h.started p)
      · rw [phaseAt_answer_of_ne hq]
        exact (h.phase q).later hlater
  | env henv =>
    obtain ⟨now, hle, rfl⟩ := henv
    exact ⟨h.world.wait hle, h.started, fun q => (h.phase q).later (.of_eq hle rfl rfl)⟩
  | kill hkill => exact hkill.elim

private theorem sound_of_run {s₀ : World} {c : Core.Config Pid Req Req.Ans Exn World}
    (hon : cfg.enabled = true) (h₀ : s₀.Initial) (h : SysRun cfg s₀ t c)
    (htime : ∀ e ∈ t, InTime cfg e) : Sound cfg t c.shared := by
  induction h with
  | nil => exact ⟨h₀.sound, fun p n => Nat.zero_le _, fun p => trivial⟩
  | cons hrun hstep ih =>
    have ih := ih fun e he => htime e (List.mem_cons_of_mem _ he)
    exact ih.move (htime _ List.mem_cons_self) (hrun.move (allFollow hon) hstep)

private theorem seenAtStart_append {later earlier : List Event} (h : ∀ e ∈ later, e.label ≠ .start p) :
    seenAtStart p (later ++ earlier) = seenAtStart p earlier := by
  induction later with
  | nil => rfl
  | cons e later ih =>
    rw [List.cons_append, seenAtStart_of_ne_start (h e List.mem_cons_self)]
    exact ih fun e' he' => h e' (List.mem_cons_of_mem _ he')

/-- A call returns no snapshot whose row was read before an invalidation that had been carried out
when the call began. -/
theorem routing_fresh {s₀ : World} {c : Core.Config Pid Req Req.Ans Exn World}
    (hon : cfg.enabled = true) (h₀ : s₀.Initial) (h : SysRun cfg s₀ t c)
    (htime : ∀ e ∈ t, InTime cfg e) {later call earlier : List Event} {p : Pid} {n : SchemaName}
    {r : Reading} {s s' s₁ s₁' : World} (ht : t = later ++
      ⟨.answer p (.enter n r) (.ok ()), s, s'⟩ :: (call ++ ⟨.start p, s₁, s₁'⟩ :: earlier))
    (hcall : ∀ e ∈ call, e.label ≠ .start p) : s₁.invalidations n ≤ r.seen := by
  subst ht
  obtain ⟨c₁, c₂, hrun, hstep, hpre, -⟩ := h.split
  have hsound := sound_of_run hon h₀ hrun fun e he =>
    htime e (List.mem_append_right _ (List.mem_cons_of_mem _ he))
  have hop := (hrun.move (allFollow hon) hstep).permits
  have hphase := hsound.phase p
  rw [show phaseAt (protocol cfg) p _ = .found n r from hop, seenAtStart_append hcall, seenAtStart,
    if_pos rfl] at hphase
  exact hphase

/-! ### A tenant that moves to another shard -/

/-- The request is subject to the condition. -/
def isTimed : Label Pid Req Req.Ans Exn → Bool
  | .answer _ (.setNx _ _ _) _ | .answer _ (.setTombstone _ _) _ | .answer _ (.deleteMany _) _
  | .answer _ (.l1Set _ _ _) _ => true
  | _ => false

/-- A step that is not about time is in time. -/
theorem InTime.of_not_timed {e : Event} (h : isTimed e.label = false) : InTime cfg e where
  fills p n r ttl a hl := by
    rw [hl] at h
    cases h
  outlives p op a hl n hn x _ := by
    rw [hl] at h
    cases op with
    | setTombstone | deleteMany => cases h
    | _ => cases hn
  kept p n r seconds a hl := by
    rw [hl] at h
    cases h

/-- A tenant on a shard. -/
def acmeOn (shard : ShardSnapshot) : TenantSnapshot := ⟨1, "acme", .active, shard⟩

/-- The tables with this one tenant. -/
def tables (shard : ShardSnapshot) : Database where
  tenants := [acmeOn shard]
  domains := []
  tenant_id := List.nodup_singleton _
  tenant_schema := List.nodup_singleton _
  domain_id := List.nodup_nil
  domain_host := List.nodup_nil
  foreign_key := nofun

def shardOne : ShardSnapshot := ⟨1, "shard1"⟩

def shardTwo : ShardSnapshot := ⟨2, "shard2"⟩

/-- Nothing is cached. -/
def coldWorld : World where
  now := 0
  db := tables shardOne
  snaps := fun _ => none
  l1 := []
  invalidations := fun _ => 0
  heldUntil := fun _ _ => 0

/-- The row of the tenant, read before it moved. -/
def oldRow : Reading := ⟨acmeOn shardOne, 0, 0⟩

/-- The shared cache is cold and a task fills the cache of the worker process. The tenant moves to
another shard and its schema is invalidated. Once the hold has ended the shared cache is cold again
and the next task is routed on the row that was read before the move. -/
theorem routing_stale_entry : Config.enabled {} = true ∧ coldWorld.Initial ∧
    ∃ t c, SysRun {} coldWorld t c ∧ (∀ e ∈ t, FillsInTime {} e) ∧
      ∃ (later call earlier : List Event) (s s' s₁ s₁' : World),
        t = later ++ ⟨.answer 1 (.enter "acme" oldRow) (.ok ()), s, s'⟩ ::
          (call ++ ⟨.start 1, s₁, s₁'⟩ :: earlier) ∧
        (∀ e ∈ call, e.label ≠ .start 1) ∧ oldRow.seen < s₁.invalidations "acme" := by
  have r0 : SysRun {} coldWorld [] (.idle coldWorld) := .nil
  have r1 := r0.start 1 (.task "acme") rfl
  have r2 := r1.answer 1 (.cacheGet (.schema "acme")) (.ok none) ⟨rfl, rfl⟩ rfl
  have r3 := r2.answer 1 (.l1Get "acme") (.ok none) ⟨rfl, rfl⟩ rfl
  have r4 := r3.answer 1 (.dbGet "acme") (.ok (some oldRow)) ⟨rfl, rfl⟩ rfl
  have r5 := r4.answer 1 (.l1Set "acme" oldRow 30) (.ok ()) ⟨rfl, rfl⟩ rfl
  have r6 := r5.answer 1 (.enter "acme" oldRow) (.ok ()) ⟨rfl, rfl⟩ rfl
  have r7 := r6.start 2 (.direct (tables shardTwo) (.tenant (acmeOn shardOne))) rfl
  have r8 := r7.answer 2 (.commit (tables shardTwo)) (.ok ()) ⟨rfl, rfl⟩ rfl
  have r9 := r8.answer 2 (.readHosts 1) (.ok []) ⟨rfl, rfl⟩ rfl
  have r10 := r9.answer 2 (.setTombstone (.schema "acme") 5) (.ok ()) ⟨rfl, rfl⟩ rfl
  have r11 := r10.env ⟨6, by decide, rfl⟩
  have r12 := r11.start 1 (.task "acme") rfl
  have r13 := r12.answer 1 (.cacheGet (.schema "acme")) (.ok none) ⟨rfl, rfl⟩ rfl
  have r14 := r13.answer 1 (.l1Get "acme") (.ok (some oldRow)) ⟨rfl, rfl⟩ rfl
  have r15 := r14.answer 1 (.enter "acme" oldRow) (.ok ()) ⟨rfl, rfl⟩ rfl
  refine ⟨rfl, fun _ => rfl, _, _, r15, ?_, [], [_, _], _, _, _, _, _, rfl, ?_, ?_⟩
  · simp only [List.forall_mem_cons, FillsInTime]
    refine ⟨?_, ?_, ?_, ?_, ?_, ?_, ?_, ?_, ?_, ?_, ?_, ?_, ?_, ?_, ?_, List.forall_mem_nil _⟩ <;>
      exact nofun
  · simp only [List.forall_mem_cons]
    exact ⟨nofun, nofun, List.forall_mem_nil _⟩
  · decide

/-- Entries of the worker process last for two seconds, the hold for five. -/
def shortLived : Config where
  taskTenantCacheSeconds := 2

/-- The row of the tenant, read after it moved. -/
def newRow : Reading := ⟨acmeOn shardTwo, 6, 1⟩

/-- The task after the move finds that its entry has expired, and reads the row again. -/
theorem moved_run : ∃ t c, SysRun shortLived coldWorld t c ∧ (∀ e ∈ t, InTime shortLived e) ∧
    ∃ (later call earlier : List Event) (s s' s₁ s₁' : World),
      t = later ++ ⟨.answer 1 (.enter "acme" newRow) (.ok ()), s, s'⟩ ::
        (call ++ ⟨.start 1, s₁, s₁'⟩ :: earlier) ∧
      (∀ e ∈ call, e.label ≠ .start 1) ∧ s₁.invalidations "acme" = 1 := by
  have r0 : SysRun shortLived coldWorld [] (.idle coldWorld) := .nil
  have r1 := r0.start 1 (.task "acme") rfl
  have r2 := r1.answer 1 (.cacheGet (.schema "acme")) (.ok none) ⟨rfl, rfl⟩ rfl
  have r3 := r2.answer 1 (.l1Get "acme") (.ok none) ⟨rfl, rfl⟩ rfl
  have r4 := r3.answer 1 (.dbGet "acme") (.ok (some oldRow)) ⟨rfl, rfl⟩ rfl
  have r5 := r4.answer 1 (.l1Set "acme" oldRow 2) (.ok ()) ⟨rfl, rfl⟩ rfl
  have r6 := r5.answer 1 (.enter "acme" oldRow) (.ok ()) ⟨rfl, rfl⟩ rfl
  have r7 := r6.start 2 (.direct (tables shardTwo) (.tenant (acmeOn shardOne))) rfl
  have r8 := r7.answer 2 (.commit (tables shardTwo)) (.ok ()) ⟨rfl, rfl⟩ rfl
  have r9 := r8.answer 2 (.readHosts 1) (.ok []) ⟨rfl, rfl⟩ rfl
  have r10 := r9.answer 2 (.setTombstone (.schema "acme") 5) (.ok ()) ⟨rfl, rfl⟩ rfl
  have r11 := r10.env ⟨6, by decide, rfl⟩
  have r12 := r11.start 1 (.task "acme") rfl
  have r13 := r12.answer 1 (.cacheGet (.schema "acme")) (.ok none) ⟨rfl, rfl⟩ rfl
  have r14 := r13.answer 1 (.l1Get "acme") (.ok none) ⟨rfl, rfl⟩ rfl
  have r15 := r14.answer 1 (.dbGet "acme") (.ok (some newRow)) ⟨rfl, rfl⟩ rfl
  have r16 := r15.answer 1 (.l1Set "acme" newRow 2) (.ok ()) ⟨rfl, rfl⟩ rfl
  have r17 := r16.answer 1 (.enter "acme" newRow) (.ok ()) ⟨rfl, rfl⟩ rfl
  have other {e : Event} (h : isTimed e.label = false) : InTime shortLived e := .of_not_timed h
  refine ⟨_, _, r17, ?_, [], [_, _, _, _], _, _, _, _, _, rfl, ?_, rfl⟩
  · simp only [List.forall_mem_cons]
    refine ⟨other rfl, ⟨nofun, ?_, ?_⟩, other rfl, other rfl, other rfl, other rfl, other rfl,
      ⟨nofun, ?_, nofun⟩, other rfl, other rfl, other rfl, other rfl, ⟨nofun, ?_, ?_⟩, other rfl,
      other rfl, other rfl, other rfl, List.forall_mem_nil _⟩
    · rintro p op a hl n hn
      cases hl
      cases hn
    · rintro p n r seconds a hl i hi hle
      cases hl
      exact absurd (Nat.lt_of_lt_of_le hi hle) (by decide)
    · rintro p op a hl n hn x hx
      cases hl
      cases List.mem_singleton.mp hx
      decide
    · rintro p op a hl n hn
      cases hl
      cases hn
    · rintro p n r seconds a hl i hi hle
      cases hl
      exact absurd (Nat.lt_of_lt_of_le hi hle) (by decide)
  · simp only [List.forall_mem_cons]
    exact ⟨nofun, nofun, nofun, nofun, List.forall_mem_nil _⟩

/-- After a tenant was moved, a task that starts then is routed to the new row. -/
theorem routing_fresh_moved : ∃ t c, SysRun shortLived coldWorld t c ∧
    (∀ e ∈ t, InTime shortLived e) ∧ ∃ (later call earlier : List Event) (s s' s₁ s₁' : World),
      t = later ++ ⟨.answer 1 (.enter "acme" newRow) (.ok ()), s, s'⟩ ::
        (call ++ ⟨.start 1, s₁, s₁'⟩ :: earlier) ∧
      s₁.invalidations "acme" = 1 ∧ s₁.invalidations "acme" ≤ newRow.seen := by
  obtain ⟨t, c, hrun, htime, later, call, earlier, s, s', s₁, s₁', ht, hcall, hone⟩ := moved_run
  refine ⟨t, c, hrun, htime, later, call, earlier, s, s', s₁, s₁', ht, hone, ?_⟩
  exact routing_fresh rfl (fun _ => rfl) hrun htime ht hcall

end MtShards.Worker
