import MtShards.Models.Resolver.Steps

/-!
# What a request does to the parts of the shared state

The tables change by four requests only and never lose a tenant; the snapshot keys change by
three. What each of them leaves alone is stated once.
-/

namespace MtShards.Resolver

open MtShards.Core

variable {s : World} {p : Pid} {op : Req}

/-- What the tables say under a key. -/
def Database.truth (db : Database) : Key → Option TenantSnapshot
  | .host h => db.rowOf h
  | .schema n => db.bySchema n

/-- A tenant that was loaded is still there; only its status may have changed. -/
def Known (db : Database) (tenant : TenantSnapshot) : Prop :=
  ∃ u ∈ db.tenants, u.id = tenant.id ∧ u.schemaName = tenant.schemaName

/-- The tenant of a row is what its schema resolves to. -/
theorem Database.truth_schema_of_row {db : Database} {h : Host} {tenant : TenantSnapshot}
    (hr : db.rowOf h = some tenant) : db.truth (.schema tenant.schemaName) = some tenant := by
  obtain ⟨_, _, _, ht, _⟩ := Database.rowOf_eq_some.1 hr
  exact Database.bySchema_eq_some.2 ⟨ht, rfl⟩

/-- A tenant is still known when the status of one is set. -/
theorem Known.setStatus {db : Database} {tenant : TenantSnapshot} {pk : Nat} {st : Status}
    (h : Known db tenant) : Known (db.setStatus pk st) tenant := by
  obtain ⟨u, hu, hid, hs⟩ := h
  by_cases hpk : u.id = pk
  · exact ⟨_, Database.mem_setStatus.2 (.inr ⟨u, hu, hpk, rfl⟩), hid, hs⟩
  · exact ⟨u, Database.mem_setStatus.2 (.inl ⟨hu, hpk⟩), hid, hs⟩

/-- What a request does to the tables. -/
inductive TableStep (db : Database) : Req → Database → Prop
  | same {op : Req} : TableStep db op db
  | status {pk : Nat} {expected : List Status} {st : Status} :
      TableStep db (.updateStatus pk expected st) (db.setStatus pk st)
  | insert {d : Domain} {db' : Database} : db.insertDomain d = some db' →
      TableStep db (.insertDomain d) db'
  | save {d : Domain} {h : Host} {db' : Database} :
      db.saveDomain { d with domain := h } = some db' → TableStep db (.saveDomain d h) db'
  | delete {d : Domain} : TableStep db (.deleteDomain d) (db.deleteDomain d.id)

/-- Every request changes the tables by one of their steps. -/
theorem tableStep_apply (p : Pid) (s : World) (op : Req) :
    TableStep s.db op (op.apply p s).db := by
  cases op
  case updateStatus pk expected st =>
    simp only [Req.apply]
    split
    · exact .status
    · exact .same
  case insertDomain d =>
    cases hi : s.db.insertDomain d with
    | none => simpa [Req.apply, hi] using .same
    | some db' => simpa [Req.apply, hi] using .insert hi
  case saveDomain d h =>
    cases hs : s.db.saveDomain { d with domain := h } with
    | none => simpa [Req.apply, hs] using .same
    | some db' => simpa [Req.apply, hs] using .save hs
  case deleteDomain d => exact .delete
  case acquire | release | setMarker =>
    simp only [Req.apply]
    split <;> exact .same
  all_goals exact .same

/-- A tenant is still known after every request. -/
theorem Known.apply {tenant : TenantSnapshot} (h : Known s.db tenant) :
    Known (op.apply p s).db tenant := by
  have htenants : ∀ {db : Database}, db.tenants = s.db.tenants → Known db tenant := by
    intro db hdb
    rwa [Known, hdb]
  have hs := tableStep_apply p s op
  generalize (op.apply p s).db = db at hs ⊢
  cases hs with
  | same => exact h
  | status => exact h.setStatus
  | insert hi => exact htenants (Database.saveDomain_tenants (Database.insertDomain_eq_some hi).2)
  | save hs => exact htenants (Database.saveDomain_tenants hs)
  | delete => exact htenants rfl

/-- What is seen is there. -/
theorem World.present_of_snap {k : Key} (h : s.snap k ≠ none) : s.snaps k ≠ none := by
  intro hk
  rw [World.snap, TtlStore.get, hk] at h
  exact h rfl

/-! ### What a request leaves alone -/

/-- The requests that do something only under a condition. -/
def Req.conditional : Req → Bool
  | updateStatus _ _ _ | acquire _ | release | setMarker _ => true
  | _ => false

/-- They change the tables, the lock or the marker, if anything. -/
theorem apply_of_conditional (p : Pid) (s : World) (h : op.conditional = true) :
    ∃ db lock marker, op.apply p s = { s with db := db, lock := lock, marker := marker } := by
  cases op
  case updateStatus | acquire | release | setMarker =>
    simp only [Req.apply]
    split
    · exact ⟨_, _, _, rfl⟩
    · exact ⟨_, _, _, rfl⟩
  all_goals cases h

/-- No request moves the clock. -/
theorem apply_now (p : Pid) (s : World) (op : Req) : (op.apply p s).now = s.now := by
  by_cases hc : op.conditional = true
  · obtain ⟨_, _, _, happly⟩ := apply_of_conditional p s hc
    rw [happly]
  · cases op
    case updateStatus | acquire | release | setMarker => exact absurd rfl hc
    all_goals rfl

/-- The requests that write a snapshot key. -/
def Req.writesSnaps : Req → Bool
  | set _ _ _ | setNx _ _ _ | deleteMany _ => true
  | _ => false

/-- A request that writes no snapshot leaves them alone. -/
theorem apply_snaps (p : Pid) (s : World) {op : Req} (h : op.writesSnaps = false) :
    (op.apply p s).snaps = s.snaps := by
  by_cases hc : op.conditional = true
  · obtain ⟨_, _, _, happly⟩ := apply_of_conditional p s hc
    rw [happly]
  · cases op
    case set | setNx | deleteMany => cases h
    case updateStatus | acquire | release | setMarker => exact absurd rfl hc
    all_goals rfl

/-- The snapshot key that a request writes. -/
def Req.writtenKey : Req → Option Key
  | set k _ _ | setNx k _ _ => some k
  | _ => none

/-- A key that is there after a request was there before, or was written. -/
theorem present_of_apply {k : Key} (h : (op.apply p s).snaps k ≠ none) :
    s.snaps k ≠ none ∨ op.writtenKey = some k := by
  by_cases hw : op.writesSnaps = false
  · rw [apply_snaps p s hw] at h
    exact .inl h
  · cases op <;> try exact absurd rfl hw
    case set k' x ttl =>
      rcases TtlStore.present_of_set h with rfl | hb
      · exact .inr rfl
      · exact .inl hb
    case setNx k' x ttl =>
      rcases TtlStore.setNx_apply s.snaps s.now k' (.lasting s.now x ttl) k with hsame | ⟨rfl, _, _⟩
      · exact .inl fun hn => h (hsame.trans hn)
      · exact .inr rfl
    case deleteMany ks =>
      refine .inl fun hn => h ?_
      by_cases hm : k ∈ ks
      · exact TtlStore.erase_of_mem hm
      · exact (TtlStore.erase_of_notMem hm).trans hn

/-- The snapshot keys that were written in a trace. -/
def writtenKeys (t : List Event) : List Key :=
  t.filterMap fun e => match e.label with
    | .answer _ op _ => op.writtenKey
    | _ => none

private theorem writtenKeys_subset (e : Event) (t : List Event) : writtenKeys t ⊆ writtenKeys (e :: t) := by
  intro k hk
  rw [writtenKeys, List.filterMap_cons]
  split
  · exact hk
  · exact List.mem_cons_of_mem _ hk

/-- A snapshot key that is there was there from the start, or was written. -/
theorem present_of_run {cfg : Config} {kinds : Kind → Prop} {s₀ : World} {t : List Event}
    {c : Core.Config Pid Req Req.Ans Exn World} {k : Key} (h : SysRun cfg kinds s₀ t c)
    (hk : c.shared.snaps k ≠ none) : s₀.snaps k ≠ none ∨ k ∈ writtenKeys t := by
  induction h with
  | nil => exact .inl hk
  | @cons t c l c' _ hs ih =>
    have before (hb : c.shared.snaps k ≠ none) :
        s₀.snaps k ≠ none ∨ k ∈ writtenKeys (⟨l, c.shared, c'.shared⟩ :: t) :=
      (ih hb).imp_right fun h => writtenKeys_subset _ t h
    cases hs with
    | start _ _ => exact before hk
    | inner _ hi => exact hi.elim
    | env he =>
      obtain ⟨n, _, rfl⟩ := he
      exact before hk
    | kill _ hk' => exact hk'.elim
    | @answer p op _ r s' _ he =>
      cases r with
      | error e =>
        obtain ⟨rfl, _, _, rfl⟩ := he
        exact before hk
      | ok a =>
        obtain ⟨_, _, rfl⟩ := he
        rcases present_of_apply hk with hb | hw
        · exact before hb
        · refine .inr (List.mem_filterMap.2 ⟨_, List.mem_cons_self, hw⟩)

section Scans

variable {cfg : Config} {kinds : Kind → Prop} {s₀ : World} {t : List Event}
  {c : Core.Config Pid Req Req.Ans Exn World} {i : Nat}

/-- A scan of a cache that was empty at first need not name more than was written. -/
theorem scanHosts_of_run (ks : List Key) (h : SysRun cfg kinds s₀ t c)
    (h₀ : ∀ k, s₀.snaps k = none) (hks : writtenKeys t = ks) {names : List Host}
    (hn : ∀ x, Key.host x ∈ ks → x ∈ names) :
    (Req.scanHosts i).Answers cfg.keyspace p c.shared names := by
  intro x _ hx
  have hp := present_of_run h (World.present_of_snap hx)
  rw [hks] at hp
  exact hn x (hp.resolve_left fun h => h (h₀ _))

/-- A scan that names every key that was ever written answers correctly. -/
theorem scanSchemas_of_run (ks : List Key) (h : SysRun cfg kinds s₀ t c)
    (h₀ : ∀ k, s₀.snaps k = none) (hks : writtenKeys t = ks) {names : List SchemaName}
    (hn : ∀ x, Key.schema x ∈ ks → x ∈ names) :
    (Req.scanSchemas i).Answers cfg.keyspace p c.shared names := by
  intro x _ hx
  have hp := present_of_run h (World.present_of_snap hx)
  rw [hks] at hp
  exact hn x (hp.resolve_left fun h => h (h₀ _))

end Scans

/-- The requests that write a table. -/
def Req.writesTables : Req → Bool
  | updateStatus _ _ _ | insertDomain _ | saveDomain _ _ | deleteDomain _ => true
  | _ => false

/-- A request that writes no table leaves them alone. -/
theorem apply_db (p : Pid) (s : World) {op : Req} (h : op.writesTables = false) :
    (op.apply p s).db = s.db := by
  have hs := tableStep_apply p s op
  generalize (op.apply p s).db = db at hs
  cases hs with
  | same => rfl
  | status => cases h
  | insert _ => cases h
  | save _ => cases h
  | delete => cases h

/-- The requests that read no row for a resolver and write no table and no snapshot key. -/
def Req.quiet : Req → Bool
  | readRow _ | updateStatus _ _ _ | insertDomain _ | saveDomain _ _ | deleteDomain _ | set _ _ _
  | setNx _ _ _ | deleteMany _ => false
  | _ => true

/-- The quiet requests read no row and write neither tables nor snapshots. -/
theorem Req.quiet_iff : op.quiet = true ↔
    (∀ h, op ≠ .readRow h) ∧ op.writesTables = false ∧ op.writesSnaps = false := by
  cases op <;> simp [quiet, writesTables, writesSnaps]

end MtShards.Resolver
