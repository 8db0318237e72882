import MtShards.Models.Resolver.Frames

/-!
# The snapshots as a cache kept coherent by holds

The tables are the truth, the two snapshot namespaces are the cells. A hold is due on a key
while a writer that has committed a change of it has not put its tombstone on it; a reader is in
flight from the moment it has read a row to its last write. Every step of the resolver is then a
step of `Core.HoldCache`, as long as resolvers are in time, a domain is edited through an
instance that carries the hostname of its row, and a reconcile writes no outdated snapshot on a
key whose invalidation is over.
-/

namespace MtShards.Resolver

open MtShards.Core HoldCache

variable {cfg : Config} {kinds : Kind → Prop} {t : List Event} {s s₀ s' : World} {p q : Pid}
  {op : Req} {φ : Phase} {k : Key} {v : Option TenantSnapshot} {l : SysLabel}

/-- A process in this phase has committed a change of the key and owes it a tombstone. A status
writer that has not named its keys yet will name the hostnames its tenant has then. -/
def Phase.Due (db : Database) : Phase → Key → Prop
  | changed tenant, k => k = .schema tenant.schemaName ∨ ∃ h ∈ db.hostsOf tenant.id, k = .host h
  | owes o, k => k ∈ o.keys
  | _, _ => False

/-- A resolver in this phase may still write what it has read under the key. -/
def Phase.Flight : Phase → Key → Option TenantSnapshot → Prop
  | read h row, k, v => v = row ∧ (k = .host h ∨ ∃ tenant ∈ row, k = .schema tenant.schemaName)
  | filling tenant, k, v => v = some tenant ∧ k = .schema tenant.schemaName
  | _, _, _ => False

/-- When a process last read a row. -/
def readAt (p : Pid) : List Event → Nat
  | [] => 0
  | ⟨.answer q (.readRow _) _, s, _⟩ :: t => if q = p then s.now else readAt p t
  | _ :: t => readAt p t

/-- A committed change of the key still awaits its invalidation. -/
def Due (cfg : Config) (kinds : Kind → Prop) (t : List Event) (s : World) (k : Key) : Prop :=
  ∃ p, (phaseOf cfg kinds p t).Due s.db k

/-- What coherence depends on. -/
def view (cfg : Config) (kinds : Kind → Prop) (t : List Event) (s : World) :
    View Key TenantSnapshot where
  now := s.now
  truth := s.db.truth
  cells := s.snaps
  due := Due cfg kinds t s
  flight k v τ := ∃ p, (phaseOf cfg kinds p t).Flight k v ∧ τ = readAt p t

/-- Each write of a resolver comes less than the hold time after its read. -/
def FillsInTime (cfg : Config) (t : List Event) (e : Event) : Prop :=
  ∀ p k x ttl r, e.label = .answer p (.setNx k x ttl) r →
    e.pre.now < readAt p t + cfg.holdSeconds

/-- The instance carries the hostname that its row has. -/
def Domain.Current (db : Database) (d : Domain) : Prop :=
  ∀ r ∈ db.domains, r.id = d.id → r.domain = d.domain

/-- A domain is deleted or saved through an instance that carries the hostname of its row. -/
def EditsCurrent (e : Event) : Prop :=
  (∀ p d, e.label = .answer p (.deleteDomain d) (.ok ()) → d.Current e.pre.db) ∧
    ∀ p d h, e.label = .answer p (.saveDomain d h) (.ok true) → d.Current e.pre.db

/-- The step deletes or saves a domain. -/
def isEdit : SysLabel → Bool
  | .answer _ (.deleteDomain _) _ | .answer _ (.saveDomain _ _) _ => true
  | _ => false

theorem EditsCurrent.of_not_edit {e : Event} (h : isEdit e.label = false) : EditsCurrent e := by
  refine ⟨fun p d hl => ?_, fun p d x hl => ?_⟩ <;> rw [hl] at h <;> cases h

/-- A snapshot is forced on a key only if it is the truth, or while an invalidation of the key is
still to come. -/
def ForcedInTime (cfg : Config) (kinds : Kind → Prop) (t : List Event) (e : Event) : Prop :=
  ∀ p k x ttl r, e.label = .answer p (.set k (.positive x) ttl) r →
    e.pre.db.truth k = some x ∨ Due cfg kinds t e.pre k

/-- The step forces a snapshot on a key. -/
def isForced : SysLabel → Bool
  | .answer _ (.set _ (.positive _) _) _ => true
  | _ => false

theorem ForcedInTime.of_not_forced {e : Event} (h : isForced e.label = false) :
    ForcedInTime cfg kinds t e := by
  intro p k x ttl r hl
  rw [hl] at h
  cases h

theorem ForcedInTime.of_truth {p : Pid} {k : Key} {x : TenantSnapshot} {ttl : Option Nat}
    {r : Except Exn (Req.set k (.positive x) ttl).Ans} (h : s.db.truth k = some x) :
    ForcedInTime cfg kinds t ⟨.answer p (.set k (.positive x) ttl) r, s, s'⟩ := by
  intro p' k' x' ttl' r' hl
  cases hl
  exact .inl h

/-! ### Phases without duty or flight -/

theorem Phase.MayStop.not_due {db : Database} (h : φ.MayStop) : ¬ φ.Due db k := by
  intro hd
  cases φ <;> try exact hd
  case changed tenant => exact h
  case owes o =>
    have hk : k ∈ o.keys := hd
    rw [h.1] at hk
    cases hk

/-- Without resolvers, nothing is in flight. -/
theorem AllFit.not_flight (hf : AllFit cfg kinds t) (hk : ¬ kinds .fill) :
    ¬ (phaseOf cfg kinds p t).Flight k v := by
  intro h
  have hfit := (hf p).2 .fill
  cases hφ : phaseOf cfg kinds p t <;> rw [hφ] at h hfit <;> try exact h
  case read => exact hk (hfit rfl)
  case filling => exact hk (hfit rfl)

private theorem readAt_ok {a : op.Ans} (hop : ∀ h, op ≠ .readRow h) :
    readAt q (⟨.answer p op (.ok a), s, s'⟩ :: t) = readAt q t := by
  cases op
  case readRow h => exact absurd rfl (hop h)
  all_goals rfl

/-! ### One step -/

section OneStep

variable {a : op.Ans}

/-- What a hold is due on after an answer: what the other processes owe, and what this one does. -/
theorem due_ok (hf : AllFit cfg kinds t) :
    Due cfg kinds (⟨.answer p op (.ok a), s, s'⟩ :: t) s' k ↔
      (∃ q, q ≠ p ∧ (phaseOf cfg kinds q t).Due s'.db k) ∨
        ((phaseOf cfg kinds p t).after cfg.toSettings op a).Due s'.db k := by
  constructor
  · rintro ⟨q, hq⟩
    by_cases hpq : q = p
    · subst hpq
      rw [phaseOf_ok (hf q).1] at hq
      exact .inr hq
    · rw [phaseOf_answer_of_ne (Ne.symm hpq)] at hq
      exact .inl ⟨q, hpq, hq⟩
  · rintro (⟨q, hpq, hq⟩ | hp)
    · refine ⟨q, ?_⟩
      rwa [phaseOf_answer_of_ne (Ne.symm hpq)]
    · refine ⟨p, ?_⟩
      rwa [phaseOf_ok (hf p).1]

/-- Nothing was due where nothing is, when the tables did not change. -/
theorem not_due_of_ok (hf : AllFit cfg kinds t) (hdb : s'.db = s.db)
    (hown : (phaseOf cfg kinds p t).Due s.db k →
      ((phaseOf cfg kinds p t).after cfg.toSettings op a).Due s.db k)
    (h : ¬ Due cfg kinds (⟨.answer p op (.ok a), s, s'⟩ :: t) s' k) : ¬ Due cfg kinds t s k := by
  rintro ⟨q, hq⟩
  refine h ((due_ok hf).2 ?_)
  rw [hdb]
  by_cases hpq : q = p
  · subst hpq
    exact .inr (hown hq)
  · exact .inl ⟨q, hpq, hq⟩

/-- No reader is in flight that was not before. -/
theorem flight_of_ok {τ : Nat} (hf : AllFit cfg kinds t) (hop : ∀ h, op ≠ .readRow h)
    (hown : ((phaseOf cfg kinds p t).after cfg.toSettings op a).Flight k v →
      (phaseOf cfg kinds p t).Flight k v)
    (h : (view cfg kinds (⟨.answer p op (.ok a), s, s'⟩ :: t) s').flight k v τ) :
    (view cfg kinds t s).flight k v τ := by
  obtain ⟨q, hq, hτ⟩ := h
  rw [readAt_ok hop] at hτ
  by_cases hpq : q = p
  · subst hpq
    rw [phaseOf_ok (hf q).1] at hq
    exact ⟨q, hown hq, hτ⟩
  · rw [phaseOf_answer_of_ne (Ne.symm hpq)] at hq
    exact ⟨q, hq, hτ⟩

/-- A step that writes neither the tables nor a snapshot key. -/
theorem step_quiet (hf : AllFit cfg kinds t) (hop : ∀ h, op ≠ .readRow h) (hdb : s'.db = s.db)
    (hsn : s'.snaps = s.snaps) (hnow : s'.now = s.now)
    (hdue : ∀ k, (phaseOf cfg kinds p t).Due s.db k →
      ((phaseOf cfg kinds p t).after cfg.toSettings op a).Due s.db k)
    (hfl : ∀ k v, ((phaseOf cfg kinds p t).after cfg.toSettings op a).Flight k v →
      (phaseOf cfg kinds p t).Flight k v) :
    HoldCache.Step cfg.holdSeconds (view cfg kinds t s)
      (view cfg kinds (⟨.answer p op (.ok a), s, s'⟩ :: t) s') where
  now := hnow.ge
  flight k v τ h := .inl (flight_of_ok hf hop (hfl k v) h)
  key k hk := by
    refine .keep (not_due_of_ok hf hdb (hdue k) hk) ?_ ?_ fun v τ h =>
      .inl (flight_of_ok hf hop (hfl k v) h)
    · change s'.db.truth k = s.db.truth k
      rw [hdb]
    · change s'.snaps k = s.snaps k
      rw [hsn]

/-- A commit: every key it changes is one that it owes a tombstone. -/
theorem step_commit (hf : AllFit cfg kinds t) (hop : ∀ h, op ≠ .readRow h)
    (hsn : s'.snaps = s.snaps) (hnow : s'.now = s.now)
    (hdue : ∀ k, ¬ (phaseOf cfg kinds p t).Due s.db k)
    (hfl : ∀ k v, ¬ ((phaseOf cfg kinds p t).after cfg.toSettings op a).Flight k v)
    (hhosts : ∀ pk h, h ∈ s.db.hostsOf pk → h ∈ s'.db.hostsOf pk ∨
      ((phaseOf cfg kinds p t).after cfg.toSettings op a).Due s'.db (.host h))
    (htruth : ∀ k, s'.db.truth k = s.db.truth k ∨
      ((phaseOf cfg kinds p t).after cfg.toSettings op a).Due s'.db k) :
    HoldCache.Step cfg.holdSeconds (view cfg kinds t s)
      (view cfg kinds (⟨.answer p op (.ok a), s, s'⟩ :: t) s') where
  now := hnow.ge
  flight k v τ h := .inl (flight_of_ok hf hop (fun h => (hfl k v h).elim) h)
  key k hk := by
    have hown : ¬ ((phaseOf cfg kinds p t).after cfg.toSettings op a).Due s'.db k :=
      fun h => hk ((due_ok hf).2 (.inr h))
    have hbefore : ¬ Due cfg kinds t s k := by
      rintro ⟨q, hq⟩
      have hpq : q ≠ p := by
        rintro rfl
        exact hdue k hq
      refine hk ((due_ok hf).2 (.inl ⟨q, hpq, ?_⟩))
      -- A status writer that has not named its keys may have lost a hostname to this commit.
      cases hφ : phaseOf cfg kinds q t <;> rw [hφ] at hq <;> try exact hq.elim
      case changed tenant =>
        rcases hq with hs | ⟨h, hh, rfl⟩
        · exact .inl hs
        · exact .inr ⟨h, (hhosts tenant.id h hh).resolve_right hown, rfl⟩
      case owes o => exact hq
    refine .keep hbefore ((htruth k).resolve_right hown) ?_ fun v τ h =>
      .inl (flight_of_ok hf hop (fun h => (hfl k v h).elim) h)
    change s'.snaps k = s.snaps k
    rw [hsn]

end OneStep

/-! ### Commits -/

section Commits

/-- A status change is owed to the hostnames and the schema of its tenant. -/
theorem step_updateStatus {tenant : TenantSnapshot} {expected : List Status} {st : Status}
    (hf : AllFit cfg kinds t) (hφ : phaseOf cfg kinds p t = .loaded tenant)
    (hknown : Known s.db tenant) (hm : s.statusMatches tenant.id expected = true) :
    HoldCache.Step cfg.holdSeconds (view cfg kinds t s) (view cfg kinds
      (⟨.answer p (.updateStatus tenant.id expected st) (.ok true), s,
        (Req.updateStatus tenant.id expected st).apply p s⟩ :: t)
      ((Req.updateStatus tenant.id expected st).apply p s)) := by
  have hs' : (Req.updateStatus tenant.id expected st).apply p s =
      { s with db := s.db.setStatus tenant.id st } := if_pos hm
  have hafter : (phaseOf cfg kinds p t).after cfg.toSettings
      (.updateStatus tenant.id expected st) true = .changed tenant := by rw [hφ]; rfl
  rw [hs']
  refine step_commit hf (fun _ h => by cases h) rfl rfl ?_ ?_ (fun pk h hh => .inl hh) ?_
  · intro k hd
    rw [hφ] at hd
    exact hd
  · intro k v hv
    rw [hafter] at hv
    exact hv
  · intro k
    rw [hafter]
    cases k with
    | host h =>
      by_cases hh : h ∈ s.db.hostsOf tenant.id
      · exact .inr (.inr ⟨h, hh, rfl⟩)
      · exact .inl (Database.rowOf_setStatus hh)
    | schema n =>
      by_cases hn : n = tenant.schemaName
      · exact .inr (.inl (congrArg Key.schema hn))
      · refine .inl (Database.bySchema_setStatus fun u hu hid hsch => hn ?_)
        obtain ⟨w, hw, hwid, hws⟩ := hknown
        have huw := List.inj_on_of_nodup_map s.db.tenant_id hu hw (hid.trans hwid.symm)
        rw [← hsch, huw, hws]

/-- A process that writes the rows of some hostnames was idle and owes them their tombstones. -/
theorem step_domains {a : op.Ans} (hs : List Host) (hf : AllFit cfg kinds t)
    (hop : ∀ h, op ≠ .readRow h) (hφ : phaseOf cfg kinds p t = .idle)
    (hafter : Phase.idle.after cfg.toSettings op a = .owes (.ofHosts cfg.toSettings hs))
    (hsn : s'.snaps = s.snaps) (hnow : s'.now = s.now) (htenants : s'.db.tenants = s.db.tenants)
    (hrows : ∀ h, h ∉ hs → ∀ d : Domain, d.domain = h → (d ∈ s'.db.domains ↔ d ∈ s.db.domains)) :
    HoldCache.Step cfg.holdSeconds (view cfg kinds t s)
      (view cfg kinds (⟨.answer p op (.ok a), s, s'⟩ :: t) s') := by
  have hdue : ∀ h ∈ hs, (Phase.owes (.ofHosts cfg.toSettings hs)).Due s'.db (.host h) :=
    fun h hh => List.mem_map_of_mem hh
  refine step_commit hf hop hsn hnow ?_ ?_ ?_ ?_ <;> rw [hφ]
  · exact fun k hd => hd
  · rw [hafter]
    exact fun k v hv => hv
  · rw [hafter]
    intro pk h hh
    by_cases hm : h ∈ hs
    · exact .inr (hdue h hm)
    · obtain ⟨d, hd, hdom, hpk⟩ := Database.mem_hostsOf.1 hh
      exact .inl (Database.mem_hostsOf.2 ⟨d, (hrows h hm d hdom).2 hd, hdom, hpk⟩)
  · rw [hafter]
    intro k
    cases k with
    | host h =>
      by_cases hm : h ∈ hs
      · exact .inr (hdue h hm)
      · exact .inl (Database.rowOf_congr htenants (hrows h hm))
    | schema n => exact .inl (Database.bySchema_congr htenants n)

private theorem step_insertDomain {d : Domain} {db' : Database} (hf : AllFit cfg kinds t)
    (hφ : phaseOf cfg kinds p t = .idle) (hi : s.db.insertDomain d = some db') :
    HoldCache.Step cfg.holdSeconds (view cfg kinds t s) (view cfg kinds
      (⟨.answer p (.insertDomain d) (.ok true), s, { s with db := db' }⟩ :: t)
      { s with db := db' }) := by
  obtain ⟨hfresh, hsave⟩ := Database.insertDomain_eq_some hi
  refine step_domains [d.domain] hf (fun _ h => by cases h) hφ rfl rfl rfl
    (Database.saveDomain_tenants hsave) fun h hh r hr => ?_
  refine Database.mem_saveDomain_of_ne hsave (fun h' => hh ?_) (fun r hr hid => ?_) hr
  · rw [h']
    exact List.mem_cons_self
  · exact absurd hid (hfresh r hr)

private theorem step_saveDomain {d : Domain} {h : Host} {db' : Database} (hf : AllFit cfg kinds t)
    (hφ : phaseOf cfg kinds p t = .idle) (hcur : d.Current s.db)
    (hsave : s.db.saveDomain { d with domain := h } = some db') :
    HoldCache.Step cfg.holdSeconds (view cfg kinds t s) (view cfg kinds
      (⟨.answer p (.saveDomain d h) (.ok true), s, { s with db := db' }⟩ :: t)
      { s with db := db' }) := by
  refine step_domains [h, d.domain] hf (fun _ h => by cases h) hφ rfl rfl rfl
    (Database.saveDomain_tenants hsave) fun x hx r hr => ?_
  simp only [List.mem_cons, List.not_mem_nil, or_false, not_or] at hx
  refine Database.mem_saveDomain_of_ne hsave hx.1 (fun r hr hid => ?_) hr
  rw [hcur r hr hid]
  exact Ne.symm hx.2

private theorem step_deleteDomain {d : Domain} (hf : AllFit cfg kinds t)
    (hφ : phaseOf cfg kinds p t = .idle) (hcur : d.Current s.db) :
    HoldCache.Step cfg.holdSeconds (view cfg kinds t s) (view cfg kinds
      (⟨.answer p (.deleteDomain d) (.ok ()), s, (Req.deleteDomain d).apply p s⟩ :: t)
      ((Req.deleteDomain d).apply p s)) := by
  refine step_domains [d.domain] hf (fun _ h => by cases h) hφ rfl rfl rfl rfl
    fun x hx r hr => ?_
  refine Database.mem_deleteDomain (fun r hr hid => ?_) hr
  rw [hcur r hr hid]
  exact fun h => hx (h ▸ List.mem_cons_self)

end Commits

/-! ### Reads and writes of snapshots -/

section Snapshots

variable {ttl : Option Nat} {x : Cached TenantSnapshot}

/-- A resolver takes off with the truth. -/
theorem step_readRow {h : Host} {a : Option TenantSnapshot} (hf : AllFit cfg kinds t)
    (hφ : phaseOf cfg kinds p t = .idle) (ha : a = s.db.rowOf h) :
    HoldCache.Step cfg.holdSeconds (view cfg kinds t s)
      (view cfg kinds (⟨.answer p (.readRow h) (.ok a), s, s⟩ :: t) s) := by
  have hread : phaseOf cfg kinds p (⟨.answer p (.readRow h) (.ok a), s, s⟩ :: t) = .read h a :=
    phaseOf_ok (hf p).1
  have hnew : ∀ k v τ, (view cfg kinds (⟨.answer p (.readRow h) (.ok a), s, s⟩ :: t) s).flight k v τ →
      (view cfg kinds t s).flight k v τ ∨ v = s.db.truth k ∧ τ ≤ s.now := by
    rintro k v τ ⟨q, hq, hτ⟩
    by_cases hpq : p = q
    · subst hpq
      rw [hread] at hq
      have hτ : τ = s.now := hτ.trans (if_pos rfl)
      refine .inr ⟨?_, hτ.le⟩
      obtain ⟨rfl, rfl | ⟨tenant, ht, rfl⟩⟩ := hq
      · exact ha
      · have hrow : s.db.rowOf h = some tenant := ha.symm.trans ht
        rw [Database.truth_schema_of_row hrow, ha, hrow]
    · rw [phaseOf_answer_of_ne hpq] at hq
      exact .inl ⟨q, hq, hτ.trans (if_neg hpq)⟩
  refine ⟨le_rfl, fun k v τ h => (hnew k v τ h).imp_right And.right, fun k hk => ?_⟩
  refine .keep (not_due_of_ok hf rfl (fun hd => ?_) hk) rfl rfl fun v τ h =>
    (hnew k v τ h).imp_right And.left
  rw [hφ] at hd
  exact hd.elim

/-- A resolver in time writes what it has read, where nothing is cached. -/
theorem step_setNx {a : Bool} (hf : AllFit cfg kinds t)
    (hp : (phaseOf cfg kinds p t).Permits cfg kinds (.setNx k x ttl))
    (htime : s.now < readAt p t + cfg.holdSeconds) :
    HoldCache.Step cfg.holdSeconds (view cfg kinds t s) (view cfg kinds
      (⟨.answer p (.setNx k x ttl) (.ok a), s, (Req.setNx k x ttl).apply p s⟩ :: t)
      ((Req.setNx k x ttl).apply p s)) := by
  -- What is written is in flight, and nothing new is in flight afterwards.
  have hmine : ∃ v, (phaseOf cfg kinds p t).Flight k v ∧ x = v.elim .negative .positive := by
    rcases hp with ⟨h, row, hφ, rfl, rfl⟩ | ⟨tenant, hφ, rfl, rfl⟩
    · exact ⟨row, hφ ▸ ⟨rfl, .inl rfl⟩, rfl⟩
    · exact ⟨some tenant, hφ ▸ ⟨rfl, rfl⟩, rfl⟩
  have hfl : ∀ k' v, ((phaseOf cfg kinds p t).after cfg.toSettings (.setNx k x ttl) a).Flight k' v →
      (phaseOf cfg kinds p t).Flight k' v := by
    intro k' v hv
    rcases hp with ⟨h, row, hφ, _⟩ | ⟨tenant, hφ, _⟩ <;> rw [hφ] at hv ⊢
    · cases row with
      | none => exact hv.elim
      | some tenant => exact ⟨hv.1, .inr ⟨tenant, rfl, hv.2⟩⟩
    · exact hv.elim
  have hdue : ∀ k', ¬ (phaseOf cfg kinds p t).Due s.db k' := by
    intro k' hd
    rcases hp with ⟨h, row, hφ, _⟩ | ⟨tenant, hφ, _⟩ <;> rw [hφ] at hd <;> exact hd
  have hflight : ∀ k' v τ, (view cfg kinds
      (⟨.answer p (.setNx k x ttl) (.ok a), s, (Req.setNx k x ttl).apply p s⟩ :: t)
      ((Req.setNx k x ttl).apply p s)).flight k' v τ → (view cfg kinds t s).flight k' v τ :=
    fun k' v τ h => flight_of_ok hf (fun _ h => by cases h) (hfl k' v) h
  refine ⟨le_rfl, fun k' v τ h => .inl (hflight k' v τ h), fun k' hk' => ?_⟩
  have hnd : ¬ Due cfg kinds t s k' := not_due_of_ok hf rfl (fun h => (hdue k' h).elim) hk'
  rcases TtlStore.setNx_apply s.snaps s.now k (.lasting s.now x ttl) k' with hsame | ⟨rfl, hfree, hnew⟩
  · exact .keep hnd rfl hsame fun v τ h => .inl (hflight k' v τ h)
  · obtain ⟨v, hv, rfl⟩ := hmine
    exact .fill hnd rfl ⟨p, hv, rfl⟩ htime hfree rfl hnew fun v τ h => hflight k' v τ h

/-- A writer puts a tombstone on a key, or a reconcile forces a snapshot on it. -/
theorem step_set {a : Unit} (hf : AllFit cfg kinds t) (hfill : kinds .fill → ¬ kinds .reconcile)
    (hp : (phaseOf cfg kinds p t).Permits cfg kinds (.set k x ttl))
    (hforced : ∀ v, x = .positive v → s.db.truth k = some v ∨ Due cfg kinds t s k) :
    HoldCache.Step cfg.holdSeconds (view cfg kinds t s) (view cfg kinds
      (⟨.answer p (.set k x ttl) (.ok a), s, (Req.set k x ttl).apply p s⟩ :: t)
      ((Req.set k x ttl).apply p s)) := by
  have hfl : ∀ k' v, ((phaseOf cfg kinds p t).after cfg.toSettings (.set k x ttl) a).Flight k' v →
      (phaseOf cfg kinds p t).Flight k' v := by
    intro k' v hv
    rcases hp with ⟨o, hφ, _⟩ | ⟨left, before, rows, added, _, hφ, _⟩ <;> rw [hφ] at hv <;>
      exact hv.elim
  have hflight : ∀ k' v τ, (view cfg kinds
      (⟨.answer p (.set k x ttl) (.ok a), s, (Req.set k x ttl).apply p s⟩ :: t)
      ((Req.set k x ttl).apply p s)).flight k' v τ → (view cfg kinds t s).flight k' v τ :=
    fun k' v τ h => flight_of_ok hf (fun _ h => by cases h) (hfl k' v) h
  refine ⟨le_rfl, fun k' v τ h => .inl (hflight k' v τ h), fun k' hk' => ?_⟩
  by_cases hkk : k' = k
  · subst hkk
    rcases hp with ⟨o, hφ, rfl, rfl⟩ | ⟨left, before, rows, added, v, hφ, rfl, _⟩
    · exact .hold TtlStore.set_self
    · have hrec : kinds .reconcile := (hf p).2 _ (by rw [hφ]; rfl)
      have hnd : ¬ Due cfg kinds t s k' := by
        refine not_due_of_ok hf rfl (fun hd => ?_) hk'
        rw [hφ] at hd
        exact hd.elim
      refine .force (fun c hc => ⟨v, ?_, (hforced v rfl).resolve_right hnd⟩) fun w τ hw => ?_
      · have := Option.some.inj (TtlStore.set_self.symm.trans hc)
        rw [← this]
        rfl
      · obtain ⟨q, hq, _⟩ := hflight k' w τ hw
        exact hf.not_flight (fun hk => hfill hk hrec) hq
  · refine .keep (not_due_of_ok hf rfl (fun hd => ?_) hk') rfl (TtlStore.set_of_ne hkk) fun v τ h =>
      .inl (hflight k' v τ h)
    rcases hp with ⟨o, hφ, _⟩ | ⟨left, before, rows, added, _, hφ, _⟩ <;> rw [hφ] at hd ⊢
    · refine List.mem_filter.2 ⟨hd, ?_⟩
      simpa using hkk
    · exact hd

/-- Keys are deleted only while no resolver is in flight. -/
theorem step_deleteMany {ks : List Key} {a : Unit} (hf : AllFit cfg kinds t)
    (hfill : kinds .fill → ¬ kinds .reconcile ∧ 0 < cfg.holdSeconds)
    (hp : (phaseOf cfg kinds p t).Permits cfg kinds (.deleteMany ks)) :
    HoldCache.Step cfg.holdSeconds (view cfg kinds t s) (view cfg kinds
      (⟨.answer p (.deleteMany ks) (.ok a), s, (Req.deleteMany ks).apply p s⟩ :: t)
      ((Req.deleteMany ks).apply p s)) := by
  have hnofill : ¬ kinds .fill := by
    intro hk
    rcases hp with ⟨o, _, h0⟩ | ⟨rows, i, found, hφ⟩
    · exact absurd h0 (Nat.ne_of_gt (hfill hk).2)
    · exact (hfill hk).1 ((hf p).2 _ (by rw [hφ]; rfl))
  have hfl : ∀ k' v,
      ((phaseOf cfg kinds p t).after cfg.toSettings (.deleteMany ks) a).Flight k' v →
      (phaseOf cfg kinds p t).Flight k' v := by
    intro k' v hv
    rcases hp with ⟨o, hφ, _⟩ | ⟨rows, i, found, hφ⟩ <;> rw [hφ] at hv <;> exact hv.elim
  have hflight : ∀ k' v τ, (view cfg kinds
      (⟨.answer p (.deleteMany ks) (.ok a), s, (Req.deleteMany ks).apply p s⟩ :: t)
      ((Req.deleteMany ks).apply p s)).flight k' v τ → (view cfg kinds t s).flight k' v τ :=
    fun k' v τ h => flight_of_ok hf (fun _ h => by cases h) (hfl k' v) h
  refine ⟨le_rfl, fun k' v τ h => .inl (hflight k' v τ h), fun k' hk' => ?_⟩
  by_cases hkk : k' ∈ ks
  · refine .force (fun c hc => ?_) fun v τ h => ?_
    · have hnone : (s.snaps.erase ks) k' = none := TtlStore.erase_of_mem hkk
      cases hnone.symm.trans hc
    · obtain ⟨q, hq, _⟩ := hflight k' v τ h
      exact hf.not_flight hnofill hq
  · refine .keep (not_due_of_ok hf rfl (fun hd => ?_) hk') rfl (TtlStore.erase_of_notMem hkk)
      fun v τ h => .inl (hflight k' v τ h)
    rcases hp with ⟨o, hφ, _⟩ | ⟨rows, i, found, hφ⟩ <;> rw [hφ] at hd ⊢
    · refine List.mem_filter.2 ⟨hd, ?_⟩
      simpa using hkk
    · exact hd

end Snapshots

/-! ### Whole runs -/

/-- What is asked of each step: resolvers are in time, domains are edited through current
instances, and snapshots are forced in time. -/
structure Careful (cfg : Config) (kinds : Kind → Prop) (t : List Event) (e : Event) : Prop where
  fills : kinds .fill → FillsInTime cfg t e
  edits : kinds .delete ∨ kinds .repoint → EditsCurrent e
  forced : kinds .reconcile → ForcedInTime cfg kinds t e

/-- Neither reads nor writes of snapshots or tables: what is due stays due, and nothing takes off. -/
theorem Phase.after_quiet {a : op.Ans} (hp : φ.Permits cfg kinds op)
    (ha : op.Answers cfg.keyspace p s a) (hq : op.quiet = true) :
    (∀ k, φ.Due s.db k → (φ.after cfg.toSettings op a).Due s.db k) ∧
      ∀ k v, (φ.after cfg.toSettings op a).Flight k v → φ.Flight k v := by
  cases op
  case readRow | updateStatus | insertDomain | saveDomain | deleteDomain => cases hq
  case set | setNx | deleteMany => cases hq
  case loadTenant pk =>
    obtain ⟨rfl, _⟩ := hp
    cases a with
    | none => exact ⟨fun _ h => h, fun _ _ h => h⟩
    | some tenant => exact ⟨fun _ h => h.elim, fun _ _ h => h.elim⟩
  case readHosts pk =>
    obtain ⟨tenant, rfl, rfl⟩ := hp
    refine ⟨fun k hk => ?_, fun _ _ h => h.elim⟩
    have ha : a = s.db.hostsOf tenant.id := ha
    rw [ha]
    rcases hk with rfl | ⟨h, hh, rfl⟩
    · exact List.mem_append_right _ List.mem_cons_self
    · exact List.mem_append_left _ (List.mem_map_of_mem hh)
  case getMany ks => cases φ <;> exact ⟨fun _ h => h, fun _ _ h => h⟩
  case ping =>
    have ha : a = true := ha
    rw [ha]
    exact ⟨fun _ h => h, fun _ _ h => h⟩
  case incrDirty =>
    obtain ⟨o, rfl, _⟩ := hp
    exact ⟨fun _ h => h, fun _ _ h => h⟩
  case expireHosts ttl =>
    obtain ⟨o, rfl, _⟩ := hp
    exact ⟨fun _ h => h, fun _ _ h => h⟩
  case acquire ttl =>
    obtain ⟨rfl, _⟩ := hp
    cases a <;> exact ⟨fun _ h => h.elim, fun _ _ h => h.elim⟩
  case getDirty =>
    rcases hp with ⟨left, rfl⟩ | ⟨left, before, rows, rfl⟩
    · exact ⟨fun _ h => h.elim, fun _ _ h => h.elim⟩
    · refine ⟨fun _ h => h.elim, fun k v h => ?_⟩
      change (if a = before ∨ left = 0 then Phase.sweeping rows 0 [] else .holding left).Flight k v at h
      split at h <;> exact h.elim
  case existsNew =>
    obtain ⟨left, before, rows, rfl⟩ := hp
    cases a <;> exact ⟨fun _ h => h.elim, fun _ _ h => h.elim⟩
  case deleteNew | readDomains =>
    obtain ⟨left, before, rfl⟩ := hp
    exact ⟨fun _ h => h.elim, fun _ _ h => h.elim⟩
  case saddNew hs' =>
    obtain ⟨left, before, rows, added, rfl⟩ := hp
    exact ⟨fun _ h => h.elim, fun _ _ h => h.elim⟩
  case rename | deleteHosts =>
    obtain ⟨left, before, rows, rfl⟩ := hp
    exact ⟨fun _ h => h.elim, fun _ _ h => h.elim⟩
  case scanHosts i =>
    obtain ⟨rows, found, rfl⟩ := hp
    exact ⟨fun _ h => h.elim, fun _ _ h => h.elim⟩
  case release =>
    refine ⟨fun k h => ?_, fun _ _ h => h.elim⟩
    rcases hp with rfl | ⟨rows, rfl⟩ <;> exact h.elim
  all_goals exact ⟨fun _ h => h, fun _ _ h => h⟩

/-- A status writer gets to know its tenant by loading it. -/
theorem Phase.known_after {a : op.Ans} {tenant : TenantSnapshot} (hp : φ.Permits cfg kinds op)
    (ha : op.Answers cfg.keyspace p s a) (hk : ∀ tenant, φ = .loaded tenant → Known s.db tenant)
    (h : φ.after cfg.toSettings op a = .loaded tenant) : Known (op.apply p s).db tenant := by
  have same (hφ : φ = .loaded tenant) : Known (op.apply p s).db tenant := (hk tenant hφ).apply
  cases op
  case loadTenant pk =>
    obtain ⟨rfl, _⟩ := hp
    cases a with
    | none => cases h
    | some u =>
      cases h
      obtain ⟨ht, _⟩ := Database.tenantOf_eq_some.1 (Eq.symm ha)
      exact ⟨tenant, ht, rfl, rfl⟩
  case readRow => cases h
  case updateStatus pk expected st =>
    obtain ⟨u, rfl, _⟩ := hp
    cases a with
    | true => cases h
    | false => exact same h
  case readHosts pk =>
    obtain ⟨u, rfl, _⟩ := hp
    cases h
  case insertDomain d =>
    cases a with
    | true => cases h
    | false => exact same h
  case saveDomain d h' =>
    cases a with
    | true => cases h
    | false => exact same h
  case deleteDomain => cases h
  case getMany ks => cases φ <;> first | exact same h | cases h
  case set k x ttl =>
    rcases hp with ⟨o, rfl, _⟩ | ⟨left, before, rows, added, v, rfl, _⟩ <;> cases h
  case setNx k x ttl =>
    rcases hp with ⟨h', row, rfl, _⟩ | ⟨u, rfl, _⟩
    · cases row <;> cases h
    · cases h
  case deleteMany ks =>
    rcases hp with ⟨o, rfl, _⟩ | ⟨rows, i, found, rfl⟩ <;> cases h
  case scanHosts i =>
    obtain ⟨rows, found, rfl⟩ := hp
    cases h
  case ping =>
    have ha : a = true := ha
    subst ha
    exact same h
  case incrDirty | expireHosts =>
    obtain ⟨o, rfl, _⟩ := hp
    cases h
  case acquire ttl =>
    obtain ⟨rfl, _⟩ := hp
    cases a <;> cases h
  case getDirty =>
    rcases hp with ⟨left, rfl⟩ | ⟨left, before, rows, rfl⟩
    · cases h
    · change (if a = before ∨ left = 0 then Phase.sweeping rows 0 [] else .holding left) = _ at h
      split at h <;> cases h
  case deleteNew | readDomains =>
    obtain ⟨left, before, rfl⟩ := hp
    cases h
  case saddNew hs =>
    obtain ⟨left, before, rows, added, rfl⟩ := hp
    cases h
  case existsNew =>
    obtain ⟨left, before, rows, rfl⟩ := hp
    cases a <;> cases h
  case rename | deleteHosts =>
    obtain ⟨left, before, rows, rfl⟩ := hp
    cases h
  case release => cases h
  all_goals exact same h

/-- A step that leaves the tables and the snapshots alone. -/
theorem step_still {e : Event} (hdb : s'.db = s.db) (hsn : s'.snaps = s.snaps)
    (hnow : s.now ≤ s'.now) (hread : ∀ q, readAt q (e :: t) = readAt q t)
    (hdue : ∀ q k, (phaseOf cfg kinds q t).Due s.db k → (phaseOf cfg kinds q (e :: t)).Due s.db k)
    (hfl : ∀ q k v, (phaseOf cfg kinds q (e :: t)).Flight k v →
      (phaseOf cfg kinds q t).Flight k v) :
    HoldCache.Step cfg.holdSeconds (view cfg kinds t s) (view cfg kinds (e :: t) s') := by
  have hflight : ∀ k v τ, (view cfg kinds (e :: t) s').flight k v τ →
      (view cfg kinds t s).flight k v τ := by
    rintro k v τ ⟨q, hq, hτ⟩
    exact ⟨q, hfl q k v hq, hτ.trans (hread q)⟩
  refine ⟨hnow, fun k v τ h => .inl (hflight k v τ h), fun k hk => ?_⟩
  refine .keep ?_ (congrArg (Database.truth · k) hdb) (congrFun hsn k) fun v τ h =>
    .inl (hflight k v τ h)
  rintro ⟨q, hq⟩
  refine hk ⟨q, ?_⟩
  rw [hdb]
  exact hdue q k hq

/-- Every step of the resolver is a step of a cache kept coherent by holds. -/
theorem view_step (hf : AllFit cfg kinds t)
    (hknown : ∀ p tenant, phaseOf cfg kinds p t = .loaded tenant → Known s.db tenant)
    (hfill : kinds .fill → ¬ kinds .reconcile ∧ 0 < cfg.holdSeconds)
    (hc : Careful cfg kinds t ⟨l, s, s'⟩) (h : SysMove cfg kinds t s l s') :
    HoldCache.Step cfg.holdSeconds (view cfg kinds t s) (view cfg kinds (⟨l, s, s'⟩ :: t) s') := by
  cases h with
  | @start p hstop =>
    refine step_still rfl rfl le_rfl (fun _ => rfl) (fun q k hq => ?_) fun q k v hq => ?_
    · have hpq : p ≠ q := by
        rintro rfl
        exact hstop.not_due hq
      rwa [phaseOf_start_of_ne hpq]
    · by_cases hpq : p = q
      · subst hpq
        rw [phaseOf_start] at hq
        exact hq.elim
      · rwa [phaseOf_start_of_ne hpq] at hq
  | tick hn => exact step_still rfl rfl hn (fun _ => rfl) (fun _ _ h => h) fun _ _ _ h => h
  | @unnamed p hp _ =>
    obtain ⟨left, before, rows, hφ⟩ := hp
    refine step_still rfl rfl le_rfl (fun _ => rfl) (fun q k hq => ?_) fun q k v hq => ?_
    · have hpq : p ≠ q := by
        rintro rfl
        rw [hφ] at hq
        exact hq
      rwa [phaseOf_answer_of_ne hpq]
    · by_cases hpq : p = q
      · subst hpq
        rw [phaseOf_unnamed (hf p).1] at hq
        exact hq.elim
      · rwa [phaseOf_answer_of_ne hpq] at hq
  | @ok p op a hp ha hen =>
    clear hen
    have quiet (hq : op.quiet = true) : HoldCache.Step cfg.holdSeconds (view cfg kinds t s)
        (view cfg kinds (⟨.answer p op (.ok a), s, op.apply p s⟩ :: t) (op.apply p s)) := by
      obtain ⟨hread, hw, hs⟩ := Req.quiet_iff.1 hq
      obtain ⟨hdue, hfl⟩ := Phase.after_quiet hp ha hq
      exact step_quiet hf hread (apply_db p s hw) (apply_snaps p s hs) (apply_now p s op) hdue hfl
    cases op
    case readRow h => exact step_readRow hf hp.1 ha
    case updateStatus pk expected st =>
      obtain ⟨tenant, hφ, rfl⟩ := hp
      have ha : a = s.statusMatches tenant.id expected := ha
      cases hm : s.statusMatches tenant.id expected with
      | true =>
        rw [hm] at ha
        subst ha
        exact step_updateStatus hf hφ (hknown p tenant hφ) hm
      | false =>
        rw [hm] at ha
        subst ha
        have hs' : (Req.updateStatus tenant.id expected st).apply p s = s := by
          simp [Req.apply, hm]
        rw [hs']
        exact step_quiet hf (fun _ h => by cases h) rfl rfl rfl (fun _ h => h) fun _ _ h => h
    case insertDomain d =>
      have ha : a = (s.db.insertDomain d).isSome := ha
      cases hi : s.db.insertDomain d with
      | some db' =>
        have hs' : (Req.insertDomain d).apply p s = { s with db := db' } := by simp [Req.apply, hi]
        rw [hi] at ha
        subst ha
        rw [hs']
        exact step_insertDomain hf hp.1 hi
      | none =>
        have hs' : (Req.insertDomain d).apply p s = s := by simp [Req.apply, hi]
        rw [hi] at ha
        subst ha
        rw [hs']
        exact step_quiet hf (fun _ h => by cases h) rfl rfl rfl (fun _ h => h) fun _ _ h => h
    case saveDomain d h =>
      have ha : a = (s.db.saveDomain { d with domain := h }).isSome := ha
      cases hi : s.db.saveDomain { d with domain := h } with
      | some db' =>
        have hs' : (Req.saveDomain d h).apply p s = { s with db := db' } := by simp [Req.apply, hi]
        rw [hi] at ha
        subst ha
        have hcur := (hc.edits (.inr hp.2)).2 p d h rfl
        rw [hs']
        exact step_saveDomain hf hp.1 hcur hi
      | none =>
        have hs' : (Req.saveDomain d h).apply p s = s := by simp [Req.apply, hi]
        rw [hi] at ha
        subst ha
        rw [hs']
        exact step_quiet hf (fun _ h => by cases h) rfl rfl rfl (fun _ h => h) fun _ _ h => h
    case deleteDomain d => exact step_deleteDomain hf hp.1 ((hc.edits (.inl hp.2)).1 p d rfl)
    case set k x ttl =>
      refine step_set hf (fun hk => (hfill hk).1) hp ?_
      rintro v rfl
      rcases hp with ⟨_, _, hx, _⟩ | ⟨left, before, rows, added, _, hφ, _⟩
      · cases hx
      · refine hc.forced ((hf p).2 _ ?_) p k v ttl _ rfl
        rw [hφ]
        rfl
    case setNx k x ttl =>
      refine step_setNx hf hp (hc.fills ?_ p k x ttl _ rfl)
      refine (hf p).2 _ ?_
      rcases hp with ⟨h, row, hφ, _⟩ | ⟨tenant, hφ, _⟩ <;> rw [hφ] <;> rfl
    case deleteMany ks => exact step_deleteMany hf hfill hp
    all_goals exact quiet rfl

/-- A loaded tenant is a row of the table, or was one before its status changed. -/
theorem known_step (hf : AllFit cfg kinds t)
    (hknown : ∀ p tenant, phaseOf cfg kinds p t = .loaded tenant → Known s.db tenant)
    (h : SysMove cfg kinds t s l s') :
    ∀ p tenant, phaseOf cfg kinds p (⟨l, s, s'⟩ :: t) = .loaded tenant → Known s'.db tenant := by
  intro q tenant hq
  cases h.part q hf with
  | other _ hphase =>
    rw [hphase] at hq
    have hthere : Known s.db tenant := hknown q tenant hq
    -- Whoever acts, a row that was known stays known.
    cases h with
    | ok _ _ _ => exact hthere.apply
    | start _ | tick _ | unnamed _ _ => exact hthere
  | start hphase _ =>
    rw [hphase] at hq
    cases hq
  | unnamed hphase _ _ =>
    rw [hphase] at hq
    cases hq
  | ok op a _ hstate hphase hp ha =>
    rw [hphase] at hq
    rw [hstate]
    exact Phase.known_after hp ha (hknown q) hq

/-- The snapshots say what the tables say. -/
structure World.Coherent (s : World) : Prop where
  /-- A positive host-snap is the dump of the current row of its host. -/
  host : ∀ h tenant, s.snap (.host h) = some (.positive tenant) → s.db.rowOf h = some tenant
  /-- A positive schema-snap is the dump of the current row of its tenant. -/
  schema : ∀ n tenant, s.snap (.schema n) = some (.positive tenant) → s.db.bySchema n = some tenant
  /-- What has a row is not cached as missing. -/
  negative : ∀ k, s.snap k = some .negative → s.db.truth k = none

theorem World.coherent_iff : s.Coherent ↔
    ∀ k, (∀ tenant, s.snap k = some (.positive tenant) → s.db.truth k = some tenant) ∧
      (s.snap k = some .negative → s.db.truth k = none) := by
  constructor
  · intro h k
    refine ⟨fun tenant hk => ?_, h.negative k⟩
    cases k with
    | host x => exact h.host x tenant hk
    | schema n => exact h.schema n tenant hk
  · intro h
    exact ⟨fun x tenant => (h (.host x)).1 tenant, fun n tenant => (h (.schema n)).1 tenant,
      fun k => (h k).2⟩

/-- The snapshots are a cache kept coherent by holds along every run whose steps are careful. -/
theorem coherent_of_run {c : Core.Config Pid Req Req.Ans Exn World} (h₀ : s₀.Coherent)
    (hfill : kinds .fill → ¬ kinds .reconcile ∧ 0 < cfg.holdSeconds)
    (h : SysRun cfg kinds s₀ t c) (hc : Throughout (Careful cfg kinds) t) :
    HoldCache.Coherent cfg.holdSeconds (view cfg kinds t c.shared) := by
  let I : List Event → World → Prop := fun t s =>
    HoldCache.Coherent cfg.holdSeconds (view cfg kinds t s) ∧
      ∀ p tenant, phaseOf cfg kinds p t = .loaded tenant → Known s.db tenant
  have hI : I [] s₀ := by
    have hflight : ∀ k v τ, ¬ (view cfg kinds [] s₀).flight k v τ := by
      rintro k v τ ⟨q, hq, _⟩
      exact hq
    refine ⟨⟨fun k v τ h => (hflight k v τ h).elim, fun k _ => World.coherent_iff.1 h₀ k,
      fun k _ v τ h => (hflight k v τ h).elim⟩, fun p tenant hp => ?_⟩
    cases hp
  refine (SysRun.invariant (Careful cfg kinds) I hI ?_ h hc).2.1
  rintro t s l s' hf ⟨hcoh, hknown⟩ hcare hs
  exact ⟨hcoh.step (view_step hf hknown hfill hcare hs), known_step hf hknown hs⟩

/-- Once no invalidation is awaited, the snapshots say what the tables say. -/
theorem World.coherent_of_view (h : HoldCache.Coherent cfg.holdSeconds (view cfg kinds t s))
    (hdue : ∀ k, ¬ Due cfg kinds t s k) : s.Coherent :=
  World.coherent_iff.2 fun k => h.truthful k (hdue k)

/-- A program that has ended owes nothing. -/
theorem not_due_of_done {c : Core.Config Pid Req Req.Ans Exn World} (h : SysRun cfg kinds s₀ t c)
    (hdone : ∀ p, ∃ r, c.proc p = some (.done r)) (k : Key) : ¬ Due cfg kinds t c.shared k := by
  rintro ⟨p, hp⟩
  obtain ⟨r, hr⟩ := hdone p
  have hstop : (phaseOf cfg kinds p t).MayStop := h.follows system_follows p hr
  exact hstop.not_due hp

end MtShards.Resolver
