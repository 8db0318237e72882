import MtShards.Models.Migrator.Resume

/-!
# A reported success is true

`migrate_tenant` may meet any error, and others may do to the tenant what they like, short of
moving it to another schema or taking away what its schema records. A result of kind `ok` or
`noop` still means that the schema records every migration of the code.
-/

namespace MtShards.Migrator

open MtShards.Core Program

/-- The schema keeps existing, and keeps what it records. -/
def Grows (t : Tenant) (s s' : Site) : Prop :=
  ∀ c, s.schemas t.shard.dbAlias t.schemaName = some c →
    ∃ c', s'.schemas t.shard.dbAlias t.schemaName = some c' ∧ ∀ x ∈ c.applied, x ∈ c'.applied

/-- Others leave a tenant in its schema and on its shard, and its schema keeps what it records. -/
structure KeepsSchema (p : Pid) (pk : Pk) (t : Tenant) (s m : Site) : Prop where
  tx : m.world.tx p = s.world.tx p
  placed : (∀ row, s.world.tenant pk = some row → SameSchema t row) →
    ∀ row, m.world.tenant pk = some row → SameSchema t row
  content : Grows t s m

/-- `p` is without a transaction, and the tenant is in its schema, if it is still there. -/
structure Placed (p : Pid) (pk : Pk) (t : Tenant) (s : Site) : Prop where
  idle : s.world.tx p = none
  same : ∀ row, s.world.tenant pk = some row → SameSchema t row

/-- The schema of the tenant records every migration of the code. -/
def Migrated (known : Plan) (t : Tenant) (s : Site) : Prop :=
  ∃ c, s.schemas t.shard.dbAlias t.schemaName = some c ∧ c.Complete known

/-- A schema keeps what it records while nothing happens. -/
theorem Grows.refl (t : Tenant) (s : Site) : Grows t s s := fun c hc => ⟨c, hc, fun _ hx => hx⟩

/-- A schema that keeps what it records twice keeps it throughout. -/
theorem Grows.trans {t : Tenant} {s s₁ s₂ : Site} (h : Grows t s s₁) (h' : Grows t s₁ s₂) :
    Grows t s s₂ := by
  intro c hc
  obtain ⟨c₁, hc₁, hsub⟩ := h c hc
  obtain ⟨c₂, hc₂, hsub'⟩ := h' c₁ hc₁
  exact ⟨c₂, hc₂, fun x hx => hsub' x (hsub x hx)⟩

/-- A migrated schema stays so while it keeps what it records. -/
theorem Migrated.grows {known : Plan} {t : Tenant} {s s' : Site} (h : Migrated known t s)
    (hg : Grows t s s') : Migrated known t s' := by
  obtain ⟨c, hc, hall⟩ := h
  obtain ⟨c', hc', hsub⟩ := hg c hc
  exact ⟨c', hc', fun x hx => hsub x (hall x hx)⟩

/-- Whether a tenant is migrated depends on its shard and its schema only. -/
theorem Migrated.same {known : Plan} {t t' : Tenant} {s : Site} (h : Migrated known t s)
    (hs : SameSchema t t') : Migrated known t' s := by
  obtain ⟨c, hc, hall⟩ := h
  exact ⟨c, by rw [hs.shard, hs.schemaName, hc], hall⟩

/-- What a program knows: a plain fact, that the schema exists, that it is migrated. -/
structure Fact where
  sure : Prop
  present : Prop
  complete : Prop

namespace Fact

variable {known : Plan} {t : Tenant} {f g : Fact} {s : Site}

/-- Nothing is known. -/
def nothing : Fact := ⟨True, False, False⟩

/-- Both are known. -/
def and (f g : Fact) : Fact := ⟨f.sure ∧ g.sure, f.present ∨ g.present, f.complete ∨ g.complete⟩

/-- What is known holds of a site. -/
structure Holds (known : Plan) (t : Tenant) (f : Fact) (s : Site) : Prop where
  sure : f.sure
  present : f.present → (s.schemas t.shard.dbAlias t.schemaName).isSome = true
  complete : f.complete → Migrated known t s

/-- What holds of two facts holds of both. -/
theorem Holds.and (h : f.Holds known t s) (h' : g.Holds known t s) :
    (f.and g).Holds known t s :=
  ⟨⟨h.sure, h'.sure⟩, fun hp => hp.elim h.present h'.present,
    fun hc => hc.elim h.complete h'.complete⟩

/-- Of every site holds that nothing is known. -/
theorem holds_nothing : nothing.Holds known t s := ⟨trivial, False.elim, False.elim⟩

/-- What a result claims. -/
def reported (res : Result) : Fact := ⟨True, False, res.kind = .ok ∨ res.kind = .noop⟩

/-- What an early result claims, if there is one. -/
def shortcut (o : Option Result) : Fact :=
  ⟨True, False, ∃ res, o = some res ∧ (res.kind = .ok ∨ res.kind = .noop)⟩

end Fact

/-- The requests of a migrator of the tenant, without targeted flags. -/
def Req.untargeted (pk : Pk) (op : Req) : Prop :=
  op.migrates pk (fun _ => True) ∧ ∀ a o n, op = .shard a (.runMigrations o n) → o.targeted = false

section Requests

variable {known : Plan} {p : Pid} {pk : Pk} {t : Tenant} {f : Fact} {s s' m : Site} {op : Req}
  {r : Except Exn op.Ans}

/-- A step that leaves the schemas alone lets each keep what it records. -/
theorem Grows.of_eq (h : s'.schemas = s.schemas) : Grows t s s' := fun c hc =>
  ⟨c, by rw [h]; exact hc, fun _ hx => hx⟩

/-- Writing to a schema lets each keep what it records, if that one does. -/
theorem Grows.put {a : Alias} {schema : SchemaName} {g : Content → Content}
    {c₀ : Option Content} (h : s'.schemas = m.schemas.put a schema c₀)
    (hc₀ : ∀ c, m.schemas a schema = some c → c₀ = some (g c))
    (hg : ∀ c, ∀ x ∈ c.applied, x ∈ (g c).applied) : Grows t m s' := by
  intro c hc
  rw [h]
  by_cases hat : (t.shard.dbAlias, t.schemaName) = (a, schema)
  · obtain ⟨ha, hn⟩ := Prod.mk.inj hat
    rw [ha, hn] at hc ⊢
    exact ⟨g c, by rw [Schemas.put_self, hc₀ c hc], hg c⟩
  · rw [Schemas.put_of_ne hat]
    exact ⟨c, hc, fun _ hx => hx⟩

/-- No request takes anything away from a schema. -/
theorem grows_of_leaves (hop : ∀ a o n, op = .shard a (.runMigrations o n) → o.targeted = false)
    {done : Bool} (hl : op.Leaves known done m.schemas s'.schemas) : Grows t m s' := by
  cases op with
  | shard a q =>
    cases q with
    | createSchema n =>
      rcases hl with hsc | ⟨_, hsc⟩
      · exact Grows.put (g := id) hsc (fun c hc => by rw [hc, Option.getD_some, id]) fun _ _ hx => hx
      · exact Grows.of_eq hsc
    | runMigrations o n =>
      rw [Req.Leaves, ShardReq.Leaves, if_neg (by rw [hop a o n rfl]; exact Bool.false_ne_true)] at hl
      obtain ⟨k, rel, hsc, _⟩ := hl
      exact Grows.put (g := fun c => c.advance known k rel) hsc
        (fun c hc => by rw [hc, Option.map_some]) fun _ _ hx => Content.mem_advance hx
    | _ => exact Grows.of_eq hl
  | _ => exact Grows.of_eq hl

/-- A request of a migrator leaves the tenant in its schema. -/
theorem placed_of_exec (hop : op.untargeted pk) (h : Placed p pk t m)
    (he : machine.exec p op m.world r s'.world) : Placed p pk t s' := by
  have htx : op.transacts = false := by
    cases op with
    | begin | commit | rollback => exact hop.1.elim
    | insertLease k | lockLease k => exact hop.1.elim
    | adminUpdate k old dest => exact hop.1.elim
    | saveTenant k c stamp => exact hop.1.elim
    | _ => rfl
  refine ⟨idle_of_exec h.idle htx he, fun row hrow => ?_⟩
  cases acts_tenantChange (l := .answer p op r) pk he with
  | kept hk => exact h.same row (hk ▸ hrow)
  | fenced q expected w r' _ _ _ hnew =>
    obtain ⟨old, hold, rfl⟩ := Option.map_eq_some_iff.mp (hnew ▸ hrow)
    exact ⟨(h.same old hold).schemaName, (h.same old hold).shard⟩
  | console q source dest r' hlabel _ _ _ =>
    cases hlabel
    exact hop.1.elim
  | committed q x new hlabel _ _ _ =>
    obtain ⟨r', hlabel⟩ := hlabel
    cases hlabel
    exact hop.1.elim
  | deleted hlabel _ _ => cases hlabel

/-- What is known stays true. -/
theorem Fact.Holds.grows (h : f.Holds known t s) (hg : Grows t s s') : f.Holds known t s' := by
  refine ⟨h.sure, fun hp => ?_, fun hc => ?_⟩
  · obtain ⟨c, hc⟩ := Option.isSome_iff_exists.mp (h.present hp)
    obtain ⟨c', hc', _⟩ := hg c hc
    rw [hc', Option.isSome_some]
  · exact (h.complete hc).grows hg

/-- What a request of a migrator keeps. -/
theorem Placed.step (h : Placed p pk t s) (hop : op.untargeted pk)
    (hs : siteSem (KeepsSchema p pk t) known p op s r s') : Placed p pk t s' ∧ Grows t s s' := by
  obtain ⟨m, hm, hexec, _, hleaves⟩ := hs
  have hplaced : Placed p pk t m := ⟨hm.tx.trans h.idle, hm.placed h.same⟩
  exact ⟨placed_of_exec hop hplaced hexec, hm.content.trans (grows_of_leaves hop.2 hleaves)⟩

end Requests

/-! ### Programs that know -/

section Walks

variable {known : Plan} {p : Pid} {pk : Pk} {t : Tenant} {α β : Type}

/-- A program that starts from what it knows, keeps it, and learns something from its value. -/
def Walks (known : Plan) (p : Pid) (pk : Pk) (t : Tenant) (f : Fact) (V : α → Fact) (x : Prog α) :
    Prop :=
  ∀ l s, Placed p pk t s → f.Holds known t s →
    x.Ensures (siteSem (KeepsSchema p pk t) known p) (fun _ _ => True) l s fun _ s' r =>
      Placed p pk t s' ∧ f.Holds known t s' ∧
        onOutcome (fun v => (V v).Holds known t s') (fun _ => True) r

variable {f : Fact} {V : α → Fact} {W : β → Fact} {x : Prog α}

/-- Returning a value needs no more than what is known. -/
theorem walks_pure {v : α} (h : ∀ s, f.Holds known t s → (V v).Holds known t s) :
    Walks known p pk t f V (Pure.pure v) := fun _ s hs hf => ⟨hs, hf, h s hf⟩

/-- An exception tells nothing. -/
theorem walks_raise {e : Exn} : Walks known p pk t f V (Program.raise e) :=
  fun _ _ hs hf => ⟨hs, hf, trivial⟩

/-- A value that promises nothing. -/
theorem walks_quiet {v : α} (hsure : (V v).sure) (hp : ¬ (V v).present) (hc : ¬ (V v).complete) :
    Walks known p pk t f V (Pure.pure v) :=
  walks_pure fun _ _ => ⟨hsure, fun h => absurd h hp, fun h => absurd h hc⟩

/-- A request. -/
theorem walks_call {op : Req} {V : op.Ans → Fact} (hop : op.untargeted pk)
    (hV : ∀ s v s', Placed p pk t s → f.Holds known t s →
      siteSem (KeepsSchema p pk t) known p op s (.ok v) s' → (V v).Holds known t s') :
    Walks known p pk t f V (call op) := by
  intro l s h hf r s' hs
  obtain ⟨hplaced, hgrows⟩ := h.step hop hs
  refine ⟨trivial, hplaced, hf.grows hgrows, ?_⟩
  cases r with
  | ok v => exact hV s v s' h hf hs
  | error e => trivial

/-- A request whose answer tells nothing. -/
theorem walks_ask {op : Req} (hop : op.untargeted pk) :
    Walks known p pk t f (fun _ => .nothing) (call op) :=
  walks_call hop fun _ _ _ _ _ _ => Fact.holds_nothing

/-- A sequence goes on with what its first part has told. -/
theorem Walks.bind {k : α → Prog β} (hx : Walks known p pk t f V x)
    (hk : ∀ v, (V v).sure → Walks known p pk t (f.and (V v)) W (k v)) :
    Walks known p pk t f W (x >>= k) := by
  intro l s h hf
  refine ensures_bind.mpr ((hx l s h hf).mono fun l₁ s₁ r₁ hr₁ => ?_)
  obtain ⟨h₁, hf₁, hout₁⟩ := hr₁
  cases r₁ with
  | error e => exact ⟨h₁, hf₁, trivial⟩
  | ok v =>
    refine (hk v hout₁.sure l₁ s₁ h₁ (hf₁.and hout₁)).mono fun l₂ s₂ r₂ hr₂ => ?_
    obtain ⟨h₂, hf₂, hout₂⟩ := hr₂
    exact ⟨h₂, ⟨hf₂.sure.1, fun hp => hf₂.present (.inl hp), fun hc => hf₂.complete (.inl hc)⟩, hout₂⟩

/-- A guarded program goes on with what its body has told, or with its handler. -/
theorem Walks.guarded {k : α → Prog β} {onError : Exn → Prog β} (hx : Walks known p pk t f V x)
    (hk : ∀ v, (V v).sure → Walks known p pk t (f.and (V v)) W (k v))
    (he : ∀ e, Walks known p pk t f W (onError e)) : Walks known p pk t f W (guarded onError x k) := by
  intro l s h hf
  refine ensures_guarded ((hx l s h hf).mono fun l₁ s₁ r₁ hr₁ => ?_)
  obtain ⟨h₁, hf₁, hout₁⟩ := hr₁
  cases r₁ with
  | error e => exact ⟨fun _ => ⟨h₁, hf₁, trivial⟩, fun _ => he e l₁ s₁ h₁ hf₁⟩
  | ok v =>
    refine (hk v hout₁.sure l₁ s₁ h₁ (hf₁.and hout₁)).mono fun l₂ s₂ r₂ hr₂ => ?_
    obtain ⟨h₂, hf₂, hout₂⟩ := hr₂
    exact ⟨h₂, ⟨hf₂.sure.1, fun hp => hf₂.present (.inl hp), fun hc => hf₂.complete (.inl hc)⟩, hout₂⟩

/-- A cleanup does not change what a program has told. -/
theorem Walks.tryFinally {c : Prog Unit} (hx : Walks known p pk t f V x)
    (hc : ∀ g, Walks known p pk t g (fun _ => .nothing) c) :
    Walks known p pk t f V (tryFinally x c) := by
  intro l s h hf
  refine ensures_tryFinally.mpr ((hx l s h hf).mono fun l₁ s₁ r₁ hr₁ => ?_)
  obtain ⟨h₁, hf₁, hout₁⟩ := hr₁
  cases r₁ with
  | error e =>
    refine (hc f l₁ s₁ h₁ hf₁).mono fun l₂ s₂ r₂ hr₂ => ?_
    cases r₂ with
    | error e' => exact ⟨hr₂.1, hr₂.2.1, trivial⟩
    | ok u => exact ⟨hr₂.1, hr₂.2.1, trivial⟩
  | ok v =>
    refine (hc (f.and (V v)) l₁ s₁ h₁ (hf₁.and hout₁)).mono fun l₂ s₂ r₂ hr₂ => ?_
    obtain ⟨h₂, hf₂, _⟩ := hr₂
    have hkept : f.Holds known t s₂ :=
      ⟨hf₂.sure.1, fun hp => hf₂.present (.inl hp), fun hc => hf₂.complete (.inl hc)⟩
    cases r₂ with
    | error e' => exact ⟨h₂, hkept, trivial⟩
    | ok u =>
      exact ⟨h₂, hkept, hf₂.sure.2, fun hp => hf₂.present (.inr hp), fun hc => hf₂.complete (.inr hc)⟩

end Walks

/-! ### `migrate_tenant` -/

section Program

variable {known : Plan} {p : Pid} {pk : Pk} {t row : Tenant} {opts : RunOptions} {c : Target}
  {f : Fact}

/-- A result that reports no success. -/
theorem walks_report {res : Result} (h : res.kind = .failed ∨ res.kind = .skipped) :
    Walks known p pk t f Fact.reported (Pure.pure res) := by
  refine walks_quiet trivial not_false fun hk => ?_
  rcases h with hf | hf <;> rw [Fact.reported, hf] at hk <;> rcases hk with hk | hk <;> cases hk

/-- A lost status write reports no success. -/
theorem casLost_walks : Walks known p pk t f Fact.reported (casLost pk c) := by
  refine Walks.bind (walks_ask ⟨rfl, fun _ _ _ h => by cases h⟩) fun found _ => ?_
  match found with
  | none => exact walks_report (.inr rfl)
  | some (status, mine) =>
    dsimp only
    split <;> exact walks_report (.inr rfl)

/-- Closing a shard connection is a request of a migrator. -/
theorem untargeted_close (a : Alias) : Req.untargeted pk (.closeShard a) :=
  ⟨trivial, fun _ _ _ h => by cases h⟩

/-- What is reported as a failure is one. -/
theorem failure_walks (e : Exn) (a : Alias) (schema : SchemaName) :
    Walks known p pk t f (fun res => ⟨res.kind = .failed, False, False⟩) (failure e a schema c) := by
  refine Walks.bind (walks_ask (untargeted_close a)) fun _ _ => ?_
  refine Walks.bind (V := fun _ => .nothing) ?_ fun indexes _ => walks_quiet rfl not_false not_false
  exact Walks.guarded (walks_ask ⟨trivial, fun _ _ _ h => by cases h⟩)
    (fun _ _ => walks_quiet trivial not_false not_false) fun _ => walks_quiet trivial not_false not_false

/-- The handler of `_provision` reports a success only for a migrated schema. -/
theorem provisionFailed_walks (side : Side) (claimed : Bool) (e : Exn) :
    Walks known p pk t f Fact.reported (provisionFailed pk row c side claimed e) := by
  rw [provisionFailed]
  split
  · exact walks_report (.inl rfl)
  · refine (failure_walks e _ _).bind fun res hres => ?_
    split
    · refine Walks.guarded (V := Fact.reported) ?_ (fun v _ => walks_pure fun s h => ?_) fun e => ?_
      · refine Walks.bind (walks_ask ⟨rfl, fun _ _ _ h => by cases h⟩) fun won _ => ?_
        split
        · exact Walks.bind (walks_ask ⟨rfl, fun _ _ _ h => by cases h⟩) fun _ _ => walks_report (.inl hres)
        · refine casLost_walks.bind fun lost _ => walks_pure fun s h => ?_
          exact ⟨trivial, False.elim, fun hk => h.complete (.inr hk)⟩
      · exact ⟨trivial, False.elim, fun hk => h.complete (.inr hk)⟩
      · split
        · exact walks_report (.inl hres)
        · exact walks_raise
    · exact walks_report (.inl hres)

/-- `pending_plan` tells whether the schema exists, and an empty plan that it is migrated. -/
theorem pendingPlan_walks (hrow : SameSchema t row) :
    Walks known p pk t f (fun plan => ⟨True, plan.isSome = true, plan = some []⟩) (pendingPlan row) := by
  rw [pendingPlan, hrow.shard, hrow.schemaName]
  refine Walks.bind (V := fun found => ⟨True, found = true, False⟩)
    (walks_call ⟨trivial, fun _ _ _ h => by cases h⟩ ?_) fun found _ => ?_
  · rintro s v s' _ _ ⟨m, _, _, hfinds, hleaves⟩
    refine ⟨trivial, fun hv => ?_, False.elim⟩
    rw [show s'.schemas = m.schemas from hleaves, ← show v = _ from hfinds, hv]
  cases found with
  | false => exact walks_quiet trivial Bool.false_ne_true (Option.some_ne_none _).symm
  | true =>
    refine Walks.tryFinally ?_ fun g => walks_ask (untargeted_close _)
    refine Walks.bind (V := fun plan => ⟨True, True, plan = []⟩)
      (walks_call ⟨trivial, fun _ _ _ h => by cases h⟩ ?_) fun plan _ => ?_
    · rintro s v s' _ hf ⟨m, hm, _, hfinds, hleaves⟩
      obtain ⟨x, hx⟩ := Option.isSome_iff_exists.mp (hf.present (.inr rfl))
      obtain ⟨x', hx', _⟩ := hm.content x hx
      have hs' : s'.schemas t.shard.dbAlias t.schemaName = some x' := by
        rw [show s'.schemas = m.schemas from hleaves, hx']
      refine ⟨trivial, fun _ => by rw [hs', Option.isSome_some], fun hv => ⟨x', hs', ?_⟩⟩
      exact Content.unapplied_eq_nil_iff.mp ((hfinds x' hx').symm.trans hv)
    · refine walks_pure fun s h => ⟨trivial, fun _ => h.present (.inr trivial), fun hp => ?_⟩
      exact h.complete (.inr (Option.some.inj hp))

/-- `run_migrations` that returns leaves an existing schema migrated. -/
theorem runMigrations_walks (ht : opts.targeted = false) (hrow : SameSchema t row)
    (hf : f.present) : Walks known p pk t f (fun _ => ⟨True, False, True⟩)
      (runMigrations (opts.upstream row.shard.dbAlias) row.schemaName) := by
  refine walks_call ⟨trivial, fun a o n h => ?_⟩ ?_
  · cases h
    exact ht
  rintro s v s' _ hs ⟨m, hm, _, _, hleaves⟩
  refine ⟨trivial, False.elim, fun _ => ?_⟩
  obtain ⟨x, hx⟩ := Option.isSome_iff_exists.mp (hs.present hf)
  obtain ⟨x', hx', _⟩ := hm.content x hx
  rw [Req.Leaves, ShardReq.Leaves, RunOptions.upstream_targeted, ht, hrow.shard, hrow.schemaName] at hleaves
  obtain ⟨n, rel, hsc, hn⟩ := hleaves
  refine ⟨x'.advance known n rel, ?_, Content.advance_complete (hn rfl)⟩
  rw [hsc]
  refine Schemas.put_self.trans ?_
  rw [show m.schemas (opts.upstream t.shard.dbAlias).database t.schemaName = some x' from hx',
    Option.map_some]

private theorem provisionSchema_walks (ht : opts.targeted = false) (hrow : SameSchema t row) :
    Walks known p pk t f (fun _ => ⟨True, False, True⟩) (provisionSchema pk row opts) := by
  refine Walks.bind (walks_ask ⟨trivial, fun _ _ _ h => by cases h⟩) fun _ _ => ?_
  refine Walks.bind (walks_ask ⟨trivial, fun _ _ _ h => by cases h⟩) fun _ _ => ?_
  refine Walks.bind (walks_ask ⟨trivial, fun a o n h => by cases h; exact ht⟩) fun _ _ => ?_
  refine (pendingPlan_walks hrow).bind fun plan _ => ?_
  match plan with
  | none => exact walks_raise
  | some [] => exact walks_pure fun s h => ⟨trivial, False.elim, fun _ => h.complete (.inr rfl)⟩
  | some (_ :: _) => exact walks_raise

private theorem provisionClaimed_walks (ht : opts.targeted = false) (hrow : SameSchema t row) :
    Walks known p pk t f Fact.reported (provisionClaimed pk row opts c) := by
  refine (provisionSchema_walks ht hrow).guarded (fun _ _ => ?_) (provisionFailed_walks _ _)
  refine Walks.guarded (walks_ask ⟨trivial, fun _ _ _ h => by cases h⟩) (fun older _ => ?_)
    (provisionFailed_walks _ _)
  split
  · exact walks_report (.inr rfl)
  refine Walks.guarded (walks_ask ⟨rfl, fun _ _ _ h => by cases h⟩) (fun won _ => ?_)
    (provisionFailed_walks _ _)
  split
  · refine Walks.guarded (walks_ask ⟨rfl, fun _ _ _ h => by cases h⟩) (fun _ _ => ?_)
      (provisionFailed_walks _ _)
    have hdone {res : Result} : Walks known p pk t
        ((((f.and ⟨True, False, True⟩).and .nothing).and .nothing).and .nothing) Fact.reported
        (Pure.pure res) :=
      walks_pure fun s h => ⟨trivial, False.elim, fun _ => h.complete (.inl (.inl (.inl (.inr trivial))))⟩
    split <;> exact hdone
  · refine casLost_walks.guarded (fun v _ => walks_pure fun s h => ?_) (provisionFailed_walks _ _)
    exact ⟨trivial, False.elim, fun hk => h.complete (.inr hk)⟩

/-- What follows a lost status write. -/
theorem guardedCasLost_walks {onError : Exn → Prog Result}
    (he : ∀ e, Walks known p pk t f Fact.reported (onError e)) :
    Walks known p pk t f Fact.reported (guarded onError (casLost pk c) Pure.pure) :=
  casLost_walks.guarded
    (fun _ _ => walks_pure fun _ h => ⟨trivial, False.elim, fun hk => h.complete (.inr hk)⟩) he

private theorem provision_walks (ht : opts.targeted = false) (hrow : SameSchema t row) :
    Walks known p pk t f Fact.reported (provision pk row opts c) := by
  rw [provision]
  split
  · exact walks_report (.inr rfl)
  refine Walks.guarded (walks_ask ⟨trivial, fun _ _ _ h => by cases h⟩) (fun older _ => ?_)
    (provisionFailed_walks _ _)
  split
  · exact walks_report (.inr rfl)
  refine Walks.guarded (V := fun _ => .nothing) ?_ (fun foreign _ => ?_) (provisionFailed_walks _ _)
  · split
    · exact walks_ask ⟨trivial, fun _ _ _ h => by cases h⟩
    · exact walks_quiet trivial not_false not_false
  split
  · refine Walks.guarded (walks_ask ⟨rfl, fun _ _ _ h => by cases h⟩) (fun won _ => ?_)
      (provisionFailed_walks _ _)
    split
    · exact Walks.guarded (walks_ask ⟨rfl, fun _ _ _ h => by cases h⟩)
        (fun _ _ => walks_report (.inl rfl)) (provisionFailed_walks _ _)
    · exact guardedCasLost_walks (provisionFailed_walks _ _)
  · refine Walks.guarded (walks_ask ⟨rfl, fun _ _ _ h => by cases h⟩) (fun won _ => ?_)
      (provisionFailed_walks _ _)
    split
    · exact provisionClaimed_walks ht hrow
    · exact guardedCasLost_walks (provisionFailed_walks _ _)

/-- The handler of `_upgrade` reports a success only for a migrated schema. -/
theorem upgradeFailed_walks (side : Side) (e : Exn) :
    Walks known p pk t f Fact.reported (upgradeFailed row c side e) := by
  rw [upgradeFailed]
  split
  · exact walks_report (.inl rfl)
  · intro l s h hf
    refine (failure_walks e _ _ l s h hf).mono fun l' s' r hr => ?_
    obtain ⟨h', hf', hout⟩ := hr
    refine ⟨h', hf', ?_⟩
    cases r with
    | error e => trivial
    | ok res =>
      have hkind : res.kind = .failed := hout.sure
      refine ⟨trivial, False.elim, fun hk => ?_⟩
      rw [Fact.reported, hkind] at hk
      rcases hk with hk | hk <;> cases hk

private theorem upgrade_walks (ht : opts.targeted = false) (hrow : SameSchema t row) :
    Walks known p pk t f Fact.reported (upgrade pk row opts c) := by
  refine (pendingPlan_walks hrow).guarded (fun plan _ => ?_) (upgradeFailed_walks _)
  cases plan with
  | none =>
    dsimp only
    rw [upgradeMissing]
    split
    · exact walks_report (.inl rfl)
    refine Walks.guarded (walks_ask ⟨rfl, fun _ _ _ h => by cases h⟩) (fun won _ => ?_)
      (upgradeFailed_walks _)
    split
    · exact Walks.guarded (walks_ask ⟨rfl, fun _ _ _ h => by cases h⟩)
        (fun _ _ => walks_report (.inl rfl)) (upgradeFailed_walks _)
    · exact guardedCasLost_walks (upgradeFailed_walks _)
  | some plan =>
    dsimp only
    split
    · rename_i hempty
      rw [Bool.and_eq_true] at hempty
      refine walks_pure fun s h => ⟨trivial, False.elim, fun _ => h.complete (.inr ?_)⟩
      rw [List.isEmpty_iff.mp hempty.1]
    · refine Walks.guarded (V := fun _ => ⟨True, False, True⟩) ?_ (fun _ _ => ?_) (upgradeFailed_walks _)
      · exact Walks.bind (walks_ask ⟨trivial, fun _ _ _ h => by cases h⟩) fun _ _ =>
          runMigrations_walks ht hrow (.inl (.inr rfl))
      · rw [if_neg (by rw [ht]; exact Bool.false_ne_true)]
        exact walks_pure fun s h => ⟨trivial, False.elim, fun _ => h.complete (.inr trivial)⟩

/-- `_load`: the row is one of the tenant's schema. -/
theorem load_walks : Walks known p pk t f
    (fun found => ⟨∀ row, found = some row → SameSchema t row, False, False⟩) (load pk) := by
  refine walks_call ⟨rfl, fun _ _ _ h => by cases h⟩ ?_
  rintro s v s' h _ ⟨m, hm, hexec, _⟩
  refine ⟨fun row hrow => ?_, False.elim, False.elim⟩
  have hans : v = m.world.tenantRow p pk := hexec.1
  rw [World.tenantRow, hm.tx, h.idle] at hans
  exact hm.placed h.same row (hans.symm.trans hrow)

/-- The gate reports no success. -/
theorem gate_walks {res : Result} (h : gate row opts c = some res) :
    Walks known p pk t f Fact.reported (Pure.pure res) := by
  rw [gate] at h
  split at h
  · obtain rfl := Option.some.inj h
    exact walks_report (.inr rfl)
  · split at h
    · obtain rfl := Option.some.inj h
      exact walks_report (.inr rfl)
    · cases h

private theorem leasedBody_walks (ht : opts.targeted = false) :
    Walks known p pk t f Fact.reported (leasedBody pk opts c) := by
  refine load_walks.guarded (fun found hfound => ?_) fun e => ?_
  · cases found with
    | none => exact walks_report (.inr rfl)
    | some row =>
      have hrow := hfound row rfl
      dsimp only
      split
      · rename_i res hgate
        exact gate_walks hgate
      split
      · exact provision_walks ht hrow
      · split
        · exact upgrade_walks ht hrow
        · exact walks_report (.inr rfl)
  · split <;> exact walks_report (.inl rfl)

private theorem leasedExit_walks (a : Alias) (finished : Bool) :
    Walks known p pk t f (fun _ => .nothing) (leasedExit pk a finished) := by
  refine Walks.bind (walks_ask ⟨trivial, fun _ _ _ h => by cases h⟩) fun idle _ => ?_
  refine Walks.bind (walks_ask (untargeted_close a)) fun _ _ => ?_
  split
  · refine Walks.guarded (V := fun _ => .nothing) ?_
      (fun _ _ => walks_quiet trivial not_false not_false) fun _ => walks_quiet trivial not_false not_false
    exact Walks.bind (walks_ask ⟨rfl, fun _ _ _ h => by cases h⟩) fun _ _ =>
      walks_quiet trivial not_false not_false
  · exact walks_quiet trivial not_false not_false

/-- A clean-up that depends on how the body has ended. -/
theorem walks_cleaned {x : Prog Result} {c : Except Exn Result → Prog Unit}
    (hx : Walks known p pk t f Fact.reported x)
    (hc : ∀ r {g : Fact}, Walks known p pk t g (fun _ => .nothing) (c r)) :
    Walks known p pk t f Fact.reported (do
      let r ← x.attempt
      c r
      .done r) := by
  intro l s h hf
  refine ensures_bind.mpr (ensures_attempt.mpr ((hx l s h hf).mono fun l₁ s₁ r₁ hr₁ => ?_))
  obtain ⟨h₁, hf₁, hout₁⟩ := hr₁
  cases r₁ with
  | error e =>
    refine ensures_bind.mpr ((hc _ l₁ s₁ h₁ hf₁).mono fun l₂ s₂ r₂ hr₂ => ?_)
    obtain ⟨h₂, hf₂, _⟩ := hr₂
    cases r₂ <;> exact ⟨h₂, hf₂, trivial⟩
  | ok res =>
    refine ensures_bind.mpr ((hc _ l₁ s₁ h₁ (hf₁.and hout₁)).mono fun l₂ s₂ r₂ hr₂ => ?_)
    obtain ⟨h₂, hf₂, _⟩ := hr₂
    have hkept : f.Holds known t s₂ :=
      ⟨hf₂.sure.1, fun hp => hf₂.present (.inl hp), fun hc => hf₂.complete (.inl hc)⟩
    cases r₂ with
    | error e => exact ⟨h₂, hkept, trivial⟩
    | ok u => exact ⟨h₂, hkept, trivial, False.elim, fun hk => hf₂.complete (.inr hk)⟩

private theorem underLease_walks (ht : opts.targeted = false) :
    Walks known p pk t f Fact.reported (underLease pk opts c) :=
  walks_cleaned (leasedBody_walks ht) fun r => leasedExit_walks c.dbAlias (returned r)

/-- Acquiring a lease tells nothing of the schema. -/
theorem leaseAcquire_walks (a : Alias) :
    Walks known p pk t f (fun _ => .nothing) (leaseAcquire pk a) := by
  have hholder {g : Fact} (m : Option LeaseHolder → String) : Walks known p pk t g (fun _ => .nothing)
      (leaseHolder pk >>= fun h => Pure.pure (some (m h))) :=
    Walks.bind (walks_ask ⟨rfl, fun _ _ _ h => by cases h⟩) fun _ _ => walks_quiet trivial not_false not_false
  refine Walks.bind (V := fun _ => .nothing) ?_ fun busy _ => ?_
  · refine Walks.guarded (walks_ask ⟨trivial, fun _ _ _ h => by cases h⟩)
      (fun _ _ => walks_quiet trivial not_false not_false) fun e => ?_
    split <;> exact walks_raise
  · cases busy with
    | some session => exact hholder _
    | none =>
      refine Walks.bind (walks_ask ⟨rfl, fun _ _ _ h => by cases h⟩) fun won _ => ?_
      split
      · exact walks_quiet trivial not_false not_false
      · exact hholder _

private theorem withLease_walks (ht : opts.targeted = false) :
    Walks known p pk t f Fact.reported (withLease pk opts c) := by
  refine (leaseAcquire_walks c.dbAlias).guarded (fun held _ => ?_) fun e => ?_
  · cases held with
    | some msg => exact walks_report (.inr rfl)
    | none => exact underLease_walks ht
  · split
    · exact walks_report (.inl rfl)
    · split
      · exact walks_report (.inl rfl)
      · exact walks_raise

private theorem noopShortcut_walks (hrow : SameSchema t row) :
    Walks known p pk t f Fact.shortcut (noopShortcut row opts c) := by
  have hfailed (res : Result) (hres : res.kind = .failed) {g : Fact} :
      Walks known p pk t g Fact.shortcut (Pure.pure (some res)) := by
    refine walks_quiet trivial not_false ?_
    rintro ⟨res', heq, hk⟩
    obtain rfl := Option.some.inj heq
    rw [hres] at hk
    rcases hk with hk | hk <;> cases hk
  have hnone {g : Fact} : Walks known p pk t g Fact.shortcut (Pure.pure none) := by
    refine walks_quiet trivial not_false ?_
    rintro ⟨res', heq, _⟩
    cases heq
  rw [noopShortcut]
  split
  · refine (pendingPlan_walks hrow).guarded (fun plan _ => ?_) fun e => ?_
    · split
      · rename_i hnil
        exact walks_pure fun s h => ⟨trivial, False.elim, fun _ => h.complete (.inr hnil)⟩
      · exact hnone
    · split
      · exact hfailed _ rfl
      · exact (failure_walks e _ _).bind fun res hres => hfailed res hres
  · exact hnone

/-- `migrate_tenant` reports success of a migrated schema only. -/
theorem migrateTenant_walks (ht : opts.targeted = false) :
    Walks known p pk t f Fact.reported (migrateTenant pk opts) := by
  refine load_walks.guarded (fun found hfound => ?_) fun e => ?_
  · cases found with
    | none => exact walks_report (.inr rfl)
    | some row =>
      dsimp only
      rw [migrateLoaded]
      split
      · exact walks_report (.inl rfl)
      split
      · rename_i res hgate
        exact gate_walks hgate
      refine (noopShortcut_walks (hfound row rfl)).bind fun o _ => ?_
      cases o with
      | none => exact withLease_walks ht
      | some res =>
        exact walks_pure fun s h => ⟨trivial, False.elim, fun hk => h.complete (.inr ⟨res, rfl, hk⟩)⟩
  · split
    · exact walks_report (.inl rfl)
    · exact walks_raise

/-- Whatever fails, and whatever others do to the tenant: a run without targeted flags that reports
`ok` or `noop` leaves a schema that records every migration of the code. -/
theorem reported_success_migrated {l : SiteLog} {s s' : Site} {res : Result}
    (ht : opts.targeted = false) (hrow : ∀ row, s.world.tenant pk = some row → SameSchema t row)
    (htx : s.world.tx p = none)
    (hexec : Exec (siteSem (KeepsSchema p pk t) known p) (migrateTenant pk opts) s l (.done (.ok res)) s')
    (hres : res.kind = .ok ∨ res.kind = .noop) : Migrated known t s' :=
  (hexec.outcome trivial (migrateTenant_walks ht [] s ⟨htx, hrow⟩ Fact.holds_nothing)).2.2.complete hres

/-- While others do nothing, they keep the schema of the tenant. -/
theorem KeepsSchema.refl (p : Pid) (pk : Pk) (t : Tenant) (s : Site) : KeepsSchema p pk t s s :=
  ⟨rfl, id, .refl t s⟩

/-- A new tenant is provisioned, and its schema is migrated. -/
theorem reported_success_migrated_new : ∃ l res s',
    Exec (siteSem (KeepsSchema "app-1:4312" 1 acme) coreTwo "app-1:4312") (migrateTenant 1 .defaults)
      ⟨oneTenant acme, fun _ _ => none⟩ l (.done (.ok res)) s' ∧
      (res.kind = .ok ∨ res.kind = .noop) ∧ Migrated coreTwo acme s' := by
  obtain ⟨l, r, s', hcut, _, res, rfl, hkind, _⟩ := resumes_new.can_finish coreTwo rfl rfl
    (p := "app-1:4312") rfl ⟨rfl, fun i b hb => by cases hb⟩ ⟨rfl, rfl, 0, fun _ _ => rfl⟩
  have hexec : Exec (siteSem (KeepsSchema "app-1:4312" 1 acme) coreTwo "app-1:4312")
      (migrateTenant 1 .defaults) ⟨oneTenant acme, fun _ _ => none⟩ l (.done (.ok res)) s' := by
    refine hcut.mono fun op s r s' hs => ?_
    obtain ⟨⟨m, rfl, hrest⟩, _⟩ := hs
    exact ⟨m, .refl _ _ _ m, hrest⟩
  exact ⟨l, res, s', hexec, hkind, reported_success_migrated rfl
    (fun row hrow => by obtain rfl := Option.some.inj hrow; exact ⟨rfl, rfl⟩) rfl hexec hkind⟩

end Program

/-! ### `migrate_shared` -/

section Shared

variable {known : Plan} {p : Pid} {opts : RunOptions} {f : Fact}

/-- The schema of the shared stage, as that of a tenant. -/
def publicSchema : Tenant := ⟨publicSchemaName, "", "", none, ⟨"default", true⟩, .active, .active, 0, ""⟩

private theorem sharedBody_walks (ht : opts.targeted = false) (hf : f.present) :
    Walks known p 0 publicSchema f Fact.reported (sharedBody opts) := by
  refine Walks.guarded (V := fun _ => ⟨True, False, True⟩) ?_ (fun _ _ => ?_) fun e => ?_
  · exact Walks.bind (walks_ask ⟨trivial, fun _ _ _ h => by cases h⟩) fun _ _ =>
      runMigrations_walks (t := publicSchema) ht ⟨rfl, rfl⟩ (.inl hf)
  · exact walks_pure fun s h => ⟨trivial, False.elim, fun _ => h.complete (.inr trivial)⟩
  · split <;> exact walks_report (.inl rfl)

private theorem sharedExit_walks (leased finished : Bool) :
    Walks known p 0 publicSchema f (fun _ => .nothing) (sharedExit leased finished) := by
  refine Walks.bind (walks_ask ⟨trivial, fun _ _ _ h => by cases h⟩) fun idle _ => ?_
  refine Walks.bind (walks_ask (untargeted_close "default")) fun _ _ => ?_
  split
  · refine Walks.guarded (V := fun _ => .nothing) ?_
      (fun _ _ => walks_quiet trivial not_false not_false) fun _ => walks_quiet trivial not_false not_false
    exact Walks.bind (walks_ask ⟨rfl, fun _ _ _ h => by cases h⟩) fun _ _ =>
      walks_quiet trivial not_false not_false
  · exact walks_quiet trivial not_false not_false

private theorem sharedUnderLease_walks (ht : opts.targeted = false) (hf : f.present) (leased : Bool) :
    Walks known p 0 publicSchema f Fact.reported (sharedUnderLease leased opts) :=
  walks_cleaned (sharedBody_walks ht hf) fun r => sharedExit_walks leased (returned r)

/-- `migrate_shared` reports success of a migrated `public` only. -/
theorem migrateShared_walks (ht : opts.targeted = false) (hf : f.present)
    (leaseTable : Except Exn Bool) :
    Walks known p 0 publicSchema f Fact.reported (migrateShared leaseTable opts) := by
  refine Walks.guarded (V := fun _ => .nothing) ?_ (fun lease _ => ?_) fun e => ?_
  · cases leaseTable with
    | error e => exact walks_raise
    | ok leased =>
      cases leased with
      | false => exact walks_quiet trivial not_false not_false
      | true =>
        exact (leaseAcquire_walks "default").bind fun held _ => walks_quiet trivial not_false not_false
  · split
    · exact walks_report (.inl rfl)
    · exact sharedUnderLease_walks ht (Or.inl hf) _
  · split
    · exact walks_report (.inl rfl)
    · exact walks_raise

end Shared

end MtShards.Migrator
