import Mathlib.Data.List.Nodup
import MtShards.Models.Tenant.Snapshot

/-!
# The registry tables of the resolver

The `Tenant` and `Domain` tables of the `default` database, as far as hostname resolution
reads and writes them. A tenant row is held as its routing snapshot, with its shard joined in.
The constraints of the tables are fields of `Database`: a value that breaks one cannot be built.
-/

namespace MtShards.Resolver

/-- A hostname as `normalize_host` leaves it. -/
abbrev Host := String

/-- A row of `Domain`. -/
structure Domain where
  id : Nat
  domain : Host
  tenantId : Nat
  deriving DecidableEq, Repr

/-- A row of `Domain.objects.select_related("tenant__shard")`. -/
structure DomainRow where
  domain : Host
  tenant : TenantSnapshot
  deriving DecidableEq, Repr

/-- The two tables with their constraints. -/
structure Database where
  tenants : List TenantSnapshot
  domains : List Domain
  tenant_id : (tenants.map TenantSnapshot.id).Nodup
  tenant_schema : (tenants.map TenantSnapshot.schemaName).Nodup
  domain_id : (domains.map Domain.id).Nodup
  domain_host : (domains.map Domain.domain).Nodup
  foreign_key : ∀ d ∈ domains, ∃ t ∈ tenants, t.id = d.tenantId

namespace Database

variable {db db' : Database} {h : Host} {t : TenantSnapshot}

/-- The tenant with a primary key. -/
def tenantOf (db : Database) (pk : Nat) : Option TenantSnapshot := db.tenants.find? (·.id = pk)

/-- The tenant with a schema. -/
def bySchema (db : Database) (s : SchemaName) : Option TenantSnapshot :=
  db.tenants.find? (·.schemaName = s)

/-- The domain row with a primary key. -/
def domainOf (db : Database) (pk : Nat) : Option Domain := db.domains.find? (·.id = pk)

/-- What `db_resolver` reads for a hostname: `none` for `DoesNotExist`. -/
def rowOf (db : Database) (h : Host) : Option TenantSnapshot :=
  (db.domains.find? (·.domain = h)).bind fun d => db.tenantOf d.tenantId

/-- The rows `Domain.objects.select_related("tenant__shard")` answers. -/
def domainRows (db : Database) : List DomainRow :=
  db.domains.filterMap fun d => (db.tenantOf d.tenantId).map fun t => ⟨d.domain, t⟩

/-- `tenant.domains.values_list("domain")`. -/
def hostsOf (db : Database) (pk : Nat) : List Host :=
  (db.domains.filter (·.tenantId = pk)).map Domain.domain

/-- A hostname has a row. -/
def HasRow (db : Database) (h : Host) : Prop := ∃ d ∈ db.domains, d.domain = h

/-- `UPDATE … SET status` of one tenant. -/
def setStatus (db : Database) (pk : Nat) (st : Status) : Database where
  tenants := db.tenants.map fun t => if t.id = pk then { t with status := st } else t
  domains := db.domains
  tenant_id := by
    have h : (db.tenants.map fun t => if t.id = pk then { t with status := st } else t).map
        TenantSnapshot.id = db.tenants.map TenantSnapshot.id := by
      rw [List.map_map]
      refine List.map_congr_left fun t _ => ?_
      by_cases ht : t.id = pk <;> simp [ht]
    rw [h]
    exact db.tenant_id
  tenant_schema := by
    have h : (db.tenants.map fun t => if t.id = pk then { t with status := st } else t).map
        TenantSnapshot.schemaName = db.tenants.map TenantSnapshot.schemaName := by
      rw [List.map_map]
      refine List.map_congr_left fun t _ => ?_
      by_cases ht : t.id = pk <;> simp [ht]
    rw [h]
    exact db.tenant_schema
  domain_id := db.domain_id
  domain_host := db.domain_host
  foreign_key := by
    intro d hd
    obtain ⟨t, ht, hid⟩ := db.foreign_key d hd
    refine ⟨_, List.mem_map_of_mem ht, ?_⟩
    by_cases hpk : t.id = pk <;> simp [hpk, ← hid]

/-- `DELETE` of one domain row. -/
def deleteDomain (db : Database) (pk : Nat) : Database where
  tenants := db.tenants
  domains := db.domains.filter (·.id ≠ pk)
  tenant_id := db.tenant_id
  tenant_schema := db.tenant_schema
  domain_id := db.domain_id.sublist (List.filter_sublist.map _)
  domain_host := db.domain_host.sublist (List.filter_sublist.map _)
  foreign_key := fun d hd => db.foreign_key d (List.mem_of_mem_filter hd)

/-- What the unique index and the foreign key ask of a row that is written. -/
def Accepts (db : Database) (d : Domain) : Prop :=
  (∀ r ∈ db.domains, r.id ≠ d.id → r.domain ≠ d.domain) ∧ ∃ t ∈ db.tenants, t.id = d.tenantId

instance (db : Database) (d : Domain) : Decidable (db.Accepts d) :=
  inferInstanceAs (Decidable (_ ∧ _))

/-- `UPDATE` of the row with the key of `d`, or its `INSERT` when there is none. -/
def writeDomain (db : Database) (d : Domain) (hd : db.Accepts d) : Database where
  tenants := db.tenants
  domains := d :: db.domains.filter (·.id ≠ d.id)
  tenant_id := db.tenant_id
  tenant_schema := db.tenant_schema
  domain_id := by
    refine List.nodup_cons.2 ⟨?_, db.domain_id.sublist (List.filter_sublist.map _)⟩
    rw [List.mem_map]
    rintro ⟨r, hr, hid⟩
    simp only [List.mem_filter, decide_eq_true_eq] at hr
    exact hr.2 hid
  domain_host := by
    refine List.nodup_cons.2 ⟨?_, db.domain_host.sublist (List.filter_sublist.map _)⟩
    rw [List.mem_map]
    rintro ⟨r, hr, hh⟩
    simp only [List.mem_filter, decide_eq_true_eq] at hr
    exact hd.1 r hr.1 hr.2 hh
  foreign_key := by
    intro r hr
    rcases List.mem_cons.1 hr with rfl | hr
    · exact hd.2
    · exact db.foreign_key r (List.mem_of_mem_filter hr)

/-- `Model.save` of a domain: `none` when a constraint refuses it. -/
def saveDomain (db : Database) (d : Domain) : Option Database :=
  if hd : db.Accepts d then some (db.writeDomain d hd) else none

/-- `INSERT` of a new domain row. -/
def insertDomain (db : Database) (d : Domain) : Option Database :=
  if ∀ r ∈ db.domains, r.id ≠ d.id then db.saveDomain d else none

/-! ### Rows and keys -/

/-- A search by a key that occurs once finds the one element that carries it. -/
theorem find_key {α κ : Type} [DecidableEq κ] {l : List α} {f : α → κ} (hl : (l.map f).Nodup)
    {k : κ} {a : α} : l.find? (fun x => f x = k) = some a ↔ a ∈ l ∧ f a = k := by
  constructor
  · intro ha
    have hk := List.find?_some ha
    exact ⟨List.mem_of_find?_eq_some ha, of_decide_eq_true hk⟩
  · rintro ⟨ha, rfl⟩
    cases hu : l.find? (fun x => f x = f a) with
    | none =>
      have := List.find?_eq_none.1 hu a ha
      simp at this
    | some u =>
      have hk := List.find?_some hu
      rw [List.inj_on_of_nodup_map hl (List.mem_of_find?_eq_some hu) ha (of_decide_eq_true hk)]

/-- A tenant is found by its primary key. -/
theorem tenantOf_eq_some {pk : Nat} : db.tenantOf pk = some t ↔ t ∈ db.tenants ∧ t.id = pk :=
  find_key db.tenant_id

/-- A tenant is found by the name of its schema. -/
theorem bySchema_eq_some {s : SchemaName} :
    db.bySchema s = some t ↔ t ∈ db.tenants ∧ t.schemaName = s :=
  find_key db.tenant_schema

/-- The row of a hostname is the tenant of the one domain that carries it. -/
theorem rowOf_eq_some : db.rowOf h = some t ↔
    ∃ d ∈ db.domains, d.domain = h ∧ t ∈ db.tenants ∧ t.id = d.tenantId := by
  simp only [rowOf, Option.bind_eq_some_iff, find_key db.domain_host, tenantOf_eq_some, and_assoc]

/-- A hostname with a row has a tenant. -/
theorem rowOf_isSome : (db.rowOf h).isSome ↔ db.HasRow h := by
  rw [Option.isSome_iff_exists]
  constructor
  · rintro ⟨t, ht⟩
    obtain ⟨d, hd, hh, _⟩ := rowOf_eq_some.1 ht
    exact ⟨d, hd, hh⟩
  · rintro ⟨d, hd, hh⟩
    obtain ⟨t, ht, hid⟩ := db.foreign_key d hd
    exact ⟨t, rowOf_eq_some.2 ⟨d, hd, hh, ht, hid⟩⟩

/-- The joined rows are the hostnames with their tenants. -/
theorem mem_domainRows {r : DomainRow} : r ∈ db.domainRows ↔ db.rowOf r.domain = some r.tenant := by
  obtain ⟨h, t⟩ := r
  rw [rowOf_eq_some]
  simp only [domainRows, List.mem_filterMap, Option.map_eq_some_iff, DomainRow.mk.injEq]
  constructor
  · rintro ⟨d, hd, u, hu, hh, rfl⟩
    exact ⟨d, hd, hh, tenantOf_eq_some.1 hu⟩
  · rintro ⟨d, hd, hh, ht⟩
    exact ⟨d, hd, t, tenantOf_eq_some.2 ht, hh, rfl⟩

/-- The hostnames a read of the domains answers are those that have a row. -/
theorem mem_domainRows_domain : h ∈ db.domainRows.map DomainRow.domain ↔ db.HasRow h := by
  rw [← rowOf_isSome, Option.isSome_iff_exists, List.mem_map]
  constructor
  · rintro ⟨r, hr, rfl⟩
    exact ⟨r.tenant, mem_domainRows.1 hr⟩
  · rintro ⟨t, ht⟩
    exact ⟨⟨h, t⟩, mem_domainRows.2 ht, rfl⟩

/-- The hostnames of a tenant are those of its domain rows. -/
theorem mem_hostsOf {pk : Nat} : h ∈ db.hostsOf pk ↔ ∃ d ∈ db.domains, d.domain = h ∧ d.tenantId = pk := by
  simp only [hostsOf, List.mem_map, List.mem_filter, decide_eq_true_eq]
  constructor
  · rintro ⟨d, ⟨hd, hpk⟩, rfl⟩
    exact ⟨d, hd, rfl, hpk⟩
  · rintro ⟨d, hd, rfl, hpk⟩
    exact ⟨d, ⟨hd, hpk⟩, rfl⟩

/-! ### What a write leaves alone -/

/-- Two databases with the same tenants, whose domains agree on a hostname, resolve it alike. -/
theorem rowOf_congr (ht : db'.tenants = db.tenants)
    (hd : ∀ d, d.domain = h → (d ∈ db'.domains ↔ d ∈ db.domains)) : db'.rowOf h = db.rowOf h := by
  apply Option.ext
  intro t
  rw [rowOf_eq_some, rowOf_eq_some, ht]
  exact exists_congr fun d => ⟨fun ⟨hm, hh, hr⟩ => ⟨(hd d hh).1 hm, hh, hr⟩,
    fun ⟨hm, hh, hr⟩ => ⟨(hd d hh).2 hm, hh, hr⟩⟩

/-- Which tenant has a schema depends on the tenants only. -/
theorem bySchema_congr (ht : db'.tenants = db.tenants) (s : SchemaName) :
    db'.bySchema s = db.bySchema s := by rw [bySchema, bySchema, ht]

/-- Deleting a row leaves the rows of every other hostname. -/
theorem mem_deleteDomain {pk : Nat} {d : Domain} (hd : ∀ r ∈ db.domains, r.id = pk → r.domain ≠ h)
    (hh : d.domain = h) : d ∈ (db.deleteDomain pk).domains ↔ d ∈ db.domains := by
  simp only [deleteDomain, List.mem_filter, decide_eq_true_eq]
  exact ⟨And.left, fun hm => ⟨hm, fun hid => hd d hm hid hh⟩⟩

/-- A domain is saved only where the constraints accept it. -/
theorem saveDomain_eq_some {d : Domain} (hs : db.saveDomain d = some db') :
    ∃ hd : db.Accepts d, db' = db.writeDomain d hd := by
  unfold saveDomain at hs
  split at hs
  · next hd => exact ⟨hd, (Option.some.inj hs).symm⟩
  · cases hs

/-- A domain is inserted only under a primary key that is free. -/
theorem insertDomain_eq_some {d : Domain} (hs : db.insertDomain d = some db') :
    (∀ r ∈ db.domains, r.id ≠ d.id) ∧ db.saveDomain d = some db' := by
  unfold insertDomain at hs
  split at hs
  · next hd => exact ⟨hd, hs⟩
  · cases hs

/-- Saving a domain leaves the tenants alone. -/
theorem saveDomain_tenants {d : Domain} (hs : db.saveDomain d = some db') :
    db'.tenants = db.tenants := by
  obtain ⟨_, rfl⟩ := saveDomain_eq_some hs
  rfl

/-- Saving a domain replaces the row with its primary key. -/
theorem mem_saveDomain {d r : Domain} (hs : db.saveDomain d = some db') :
    r ∈ db'.domains ↔ r = d ∨ r ∈ db.domains ∧ r.id ≠ d.id := by
  obtain ⟨_, rfl⟩ := saveDomain_eq_some hs
  simp only [writeDomain, List.mem_cons, List.mem_filter, decide_eq_true_eq]

/-- A save touches the hostname it writes and the one its row had. -/
theorem mem_saveDomain_of_ne {d r : Domain} (hs : db.saveDomain d = some db') (hne : h ≠ d.domain)
    (hd : ∀ r ∈ db.domains, r.id = d.id → r.domain ≠ h) (hh : r.domain = h) :
    r ∈ db'.domains ↔ r ∈ db.domains := by
  rw [mem_saveDomain hs]
  constructor
  · rintro (rfl | ⟨hm, _⟩)
    · exact absurd hh.symm hne
    · exact hm
  · intro hm
    exact .inr ⟨hm, fun hid => hd r hm hid hh⟩

/-- Setting a status changes the status of that tenant only. -/
theorem mem_setStatus {pk : Nat} {st : Status} :
    t ∈ (db.setStatus pk st).tenants ↔
      (t ∈ db.tenants ∧ t.id ≠ pk) ∨ ∃ u ∈ db.tenants, u.id = pk ∧ t = { u with status := st } := by
  simp only [setStatus, List.mem_map]
  constructor
  · rintro ⟨u, hu, rfl⟩
    by_cases hpk : u.id = pk
    · exact .inr ⟨u, hu, hpk, if_pos hpk⟩
    · rw [if_neg hpk]
      exact .inl ⟨hu, hpk⟩
  · rintro (⟨ht, hpk⟩ | ⟨u, hu, hpk, rfl⟩)
    · exact ⟨t, ht, if_neg hpk⟩
    · exact ⟨u, hu, if_pos hpk⟩

/-- A status change touches the hostnames of its tenant. -/
theorem rowOf_setStatus {pk : Nat} {st : Status} (hh : h ∉ db.hostsOf pk) :
    (db.setStatus pk st).rowOf h = db.rowOf h := by
  apply Option.ext
  intro t
  rw [rowOf_eq_some, rowOf_eq_some]
  refine exists_congr fun d => and_congr_right fun hd => and_congr_right fun hdom => ?_
  have hpk : d.tenantId ≠ pk := fun hpk => hh (mem_hostsOf.2 ⟨d, hd, hdom, hpk⟩)
  rw [mem_setStatus]
  constructor
  · rintro ⟨⟨ht, _⟩ | ⟨u, _, hu, rfl⟩, hid⟩
    · exact ⟨ht, hid⟩
    · exact absurd (hid.symm.trans hu) hpk
  · rintro ⟨ht, hid⟩
    exact ⟨.inl ⟨ht, fun h => hpk (hid.symm.trans h)⟩, hid⟩

/-- A status change touches the schema of its tenant. -/
theorem bySchema_setStatus {pk : Nat} {st : Status} {s : SchemaName}
    (hs : ∀ u ∈ db.tenants, u.id = pk → u.schemaName ≠ s) :
    (db.setStatus pk st).bySchema s = db.bySchema s := by
  apply Option.ext
  intro t
  rw [bySchema_eq_some, bySchema_eq_some, mem_setStatus]
  constructor
  · rintro ⟨⟨ht, _⟩ | ⟨u, hu, hpk, rfl⟩, hsch⟩
    · exact ⟨ht, hsch⟩
    · exact absurd hsch (hs u hu hpk)
  · rintro ⟨ht, hsch⟩
    exact ⟨.inl ⟨ht, fun hpk => hs t ht hpk hsch⟩, hsch⟩

end Database

end MtShards.Resolver
