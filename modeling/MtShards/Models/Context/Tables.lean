import MtShards.Core.Events
import MtShards.Models.Context.Confinement
import MtShards.Models.Context.Migrations

/-!
# Queries find the tables of their tenant

Any number of threads run requests, tenant contexts and tasks, and write rows, while migrations
run on any schemas, one operation at a time. The router, `allow_migrate` and the search path are
three separate rules. Together they send a query to the table that the migrations of its own
schema have made: with a tenant entered that of the tenant, with none that of public. The copies
of the business tables in public stay empty.
-/

namespace MtShards.Context

open MtShards.Core

/-- The settings fit together. -/
structure RouterSettings.Coherent (cfg : RouterSettings) (labels : List String) : Prop where
  /-- Public has the tables of the tenant apps as well. -/
  tenantShared : ∀ label, cfg.appInList label cfg.tenantApps → cfg.appInList label cfg.sharedApps
  strict : cfg.strictRouteLabels = .ok labels
  strictTenant : ∀ label ∈ labels, cfg.appInList label cfg.tenantApps
  guard : cfg.publicModelGuard = .raise

/-- Where the rows of a model are for code that runs inside of some blocks: with the innermost
entered tenant, or in public. -/
def home (cfg : RouterSettings) (m : Model) (fs : List Frame) : Alias × SchemaName :=
  match innermost fs with
  | some t =>
    if cfg.sharedOnly m.appLabel then (defaultAlias, publicSchemaName)
    else (t.shard.dbAlias, t.schemaName)
  | none => (defaultAlias, publicSchemaName)

/-- Where no tenant is entered, a model of a strict app is queried only if it is in the allow-list
and `default` is bound. -/
def Admitted (cfg : RouterSettings) (labels : List String) (m : Model) (fs : List Frame) : Prop :=
  innermost fs = none → m.appLabel ∈ labels →
    m.labelLower ∈ cfg.publicModelAllowlist ∧ bound fs = some defaultAlias

/-- The tenants that are entered have schemas of their own. -/
def Entered (fs : List Frame) : Prop :=
  ∀ f ∈ fs, ∀ t, f.tenant = some t → t.schemaName ≠ publicSchemaName

/-! ### The router in terms of the open blocks -/

section Router

variable {cfg : RouterSettings} {labels : List String} {m : Model} {s : Routing} {fs : List Frame}
  {t : TenantSnapshot} {a : Alias}

/-- The innermost tenant is the one that is bound, on a shard. -/
theorem of_innermost (hl : Linked fs) (h : innermost fs = some t) :
    bound fs = some t.shard.dbAlias ∧ lastOn t.shard.dbAlias fs = some t ∧
      t.shard.dbAlias ≠ defaultAlias ∧ ∃ f ∈ fs, f.tenant = some t := by
  induction fs with
  | nil => cases h
  | cons f fs ih =>
    cases f with
    | request tenant =>
      obtain rfl : fs = [] := hl
      cases h
    | called =>
      obtain ⟨hb, hlast, hne, g, hg, ht⟩ := ih hl h
      exact ⟨hb, hlast, hne, g, List.mem_cons_of_mem _ hg, ht⟩
    | pinned token => cases h
    | switched u prev token =>
      obtain rfl := Option.some.inj h
      exact ⟨rfl, by simp [lastOn, Frame.tenant], hl.1, _, List.mem_cons_self, rfl⟩
    | routed u prev token =>
      obtain rfl := Option.some.inj h
      exact ⟨rfl, by simp [lastOn, Frame.tenant], hl.1, _, List.mem_cons_self, rfl⟩

/-- Without a tenant nothing is bound, or `default` is. -/
theorem bound_of_innermost (h : innermost fs = none) :
    bound fs = none ∨ bound fs = some defaultAlias := by
  cases hb : bound fs with
  | none => exact .inl rfl
  | some a =>
    by_cases ha : a = defaultAlias
    · exact .inr (by rw [ha])
    · obtain ⟨t, ht, -⟩ := innermost_of_bound hb ha
      rw [h] at ht
      cases ht

/-- The public guard, for any model. -/
theorem RouterSettings.Coherent.guardPublic (hc : cfg.Coherent labels) :
    cfg.guardPublic m a s =
      if s.schemaOf a = some publicSchemaName ∧ m.appLabel ∈ labels ∧
        m.labelLower ∉ cfg.publicModelAllowlist
      then .error (.publicSchemaModelDenied m a) else .ok () := by
  unfold RouterSettings.guardPublic
  rw [if_neg (by rw [hc.guard]; decide)]
  cases hs : s.schemaOf a with
  | none => simp
  | some schema =>
    by_cases hpub : schema = publicSchemaName
    · by_cases hmem : m.appLabel ∈ labels
      · by_cases hallow : m.labelLower ∈ cfg.publicModelAllowlist <;>
          simp [hpub, hc.strict, hc.guard, hmem, hallow, Bind.bind, Except.bind]
      · simp [hpub, hc.strict, hmem, Bind.bind, Except.bind]
    · simp [hpub]

/-- The models of a strict app are not shared-only. -/
theorem RouterSettings.Coherent.sharedOnly_strict (hc : cfg.Coherent labels)
    (h : m.appLabel ∈ labels) : cfg.sharedOnly m.appLabel = false := by
  simp [RouterSettings.sharedOnly, hc.strictTenant _ h]

/-- With a tenant entered the router answers for every model. -/
theorem dbForRead_of_innermost (hc : cfg.Coherent labels) (hs : Sound s fs)
    (hempty : s.known "" = false) (hent : Entered fs) (h : innermost fs = some t) :
    cfg.dbForRead m s = .ok (home cfg m fs).1 := by
  obtain ⟨hb, hlast, -, f, hf, hft⟩ := of_innermost hs.linked h
  have hon := hs.on _ t hlast
  have hne : t.shard.dbAlias ≠ "" := by
    intro heq
    rw [Routing.known_eq_schemaOf, ← heq, hon] at hempty
    cases hempty
  have hpub : t.schemaName ≠ publicSchemaName := hent f hf t hft
  have hor : orElse (some t.shard.dbAlias) defaultAlias = t.shard.dbAlias := by simp [orElse, hne]
  unfold RouterSettings.dbForRead
  cases hshared : cfg.sharedOnly m.appLabel with
  | true => simp [home, h, hshared]
  | false =>
    rw [hc.guardPublic, hs.bound, hb, hor, hon]
    simp [home, h, hshared, hpub, Bind.bind, Except.bind]

/-- With none entered it answers `default` for the models that are admitted. -/
theorem dbForRead_of_none (hc : cfg.Coherent labels) (hs : Sound s fs)
    (hpins : bound fs = some defaultAlias → s.schemaOf defaultAlias = some publicSchemaName)
    (h : innermost fs = none) :
    cfg.dbForRead m s = .ok a ↔ a = defaultAlias ∧ Admitted cfg labels m fs := by
  have hor : ∀ b, b = none ∨ b = some defaultAlias → orElse b defaultAlias = defaultAlias := by
    rintro _ (rfl | rfl) <;> rfl
  have hbound := bound_of_innermost h
  unfold RouterSettings.dbForRead Admitted
  by_cases hmem : m.appLabel ∈ labels
  · rw [hc.sharedOnly_strict hmem, if_neg Bool.false_ne_true, hc.guardPublic, hs.bound,
      hor _ hbound]
    rcases hbound with hb | hb
    · by_cases hpub : s.schemaOf defaultAlias = some publicSchemaName ∧
        m.labelLower ∉ cfg.publicModelAllowlist
      · simp [hb, h, hmem, hpub, Bind.bind, Except.bind]
      · simp [hb, h, hmem, hpub, hc.strict, Bind.bind, Except.bind]
    · by_cases hallow : m.labelLower ∈ cfg.publicModelAllowlist
      · simp [hb, h, hmem, hallow, Bind.bind, Except.bind, eq_comm]
      · simp [hb, h, hmem, hallow, hpins hb, Bind.bind, Except.bind]
  · cases hshared : cfg.sharedOnly m.appLabel with
    | true => simp [hmem, eq_comm]
    | false =>
      rw [if_neg Bool.false_ne_true, hc.guardPublic, hs.bound]
      rcases hbound with hb | hb <;> simp [hb, hmem, hc.strict, Bind.bind, Except.bind, eq_comm]

/-- What the router answers at any point: the alias of the model's home, if it is admitted. -/
theorem dbForRead_iff_home (hc : cfg.Coherent labels) (hs : Sound s fs)
    (hempty : s.known "" = false) (hent : Entered fs)
    (hpins : bound fs = some defaultAlias → s.schemaOf defaultAlias = some publicSchemaName) :
    cfg.dbForRead m s = .ok a ↔ a = (home cfg m fs).1 ∧ Admitted cfg labels m fs := by
  cases h : innermost fs with
  | none =>
    rw [dbForRead_of_none hc hs hpins h]
    simp [home, h]
  | some t =>
    rw [dbForRead_of_innermost hc hs hempty hent h]
    simp [Admitted, h, eq_comm]

/-- The table that the search path finds. -/
theorem reach_home {c : Catalog} (hx : c.Exact cfg) (hs : Sound s fs) (hent : Entered fs)
    (hm : cfg.appInList m.appLabel cfg.sharedApps)
    (hmade : Catalog.made m (c.recorded (home cfg m fs).1 (home cfg m fs).2)) :
    ∃ schema, s.schemaOf (home cfg m fs).1 = some schema ∧
      c.reach (home cfg m fs).1 schema m = some (home cfg m fs).2 := by
  have hpublic : ∀ schema, Catalog.made m (c.recorded defaultAlias publicSchemaName) →
      c.reach defaultAlias schema m = some publicSchemaName := by
    intro schema hmade
    have hhost : cfg.Hosts defaultAlias publicSchemaName m.appLabel := by
      simp [RouterSettings.Hosts, hm]
    have htable := (hx defaultAlias publicSchemaName m).mpr ⟨hhost, hmade⟩
    by_cases hpub : schema = publicSchemaName
    · simp [Catalog.reach, hpub, htable]
    · -- No schema of `default` but public has any table.
      have hnone : ¬c.tables defaultAlias schema m := fun ht =>
        ((hx _ _ _).mp ht).1.of_tenant hpub rfl
      simp [Catalog.reach, hnone, htable]
  cases h : innermost fs with
  | none =>
    obtain ⟨schema, hschema⟩ := Option.isSome_iff_exists.mp hs.known
    simp only [home, h] at hmade ⊢
    exact ⟨schema, hschema, hpublic schema hmade⟩
  | some t =>
    obtain ⟨hb, hlast, hne, f, hf, hft⟩ := of_innermost hs.linked h
    cases hshared : cfg.sharedOnly m.appLabel with
    | true =>
      obtain ⟨schema, hschema⟩ := Option.isSome_iff_exists.mp hs.known
      simp only [home, h, hshared, if_true] at hmade ⊢
      exact ⟨schema, hschema, hpublic schema hmade⟩
    | false =>
      have htenant : cfg.appInList m.appLabel cfg.tenantApps := by
        simpa [RouterSettings.sharedOnly, hm] using hshared
      have hhost : cfg.Hosts t.shard.dbAlias t.schemaName m.appLabel := by
        simp [RouterSettings.Hosts, hent f hf t hft, hne, htenant]
      simp only [home, h, hshared, Bool.false_eq_true, if_false] at hmade ⊢
      refine ⟨t.schemaName, hs.on _ t hlast, ?_⟩
      simp [Catalog.reach, (hx _ _ _).mpr ⟨hhost, hmade⟩]

end Router

/-! ### Threads and migrations -/

/-- Any number of threads over the tables of all databases. -/
structure System (Tid : Type) where
  threads : Tid → Thread
  catalog : Catalog

/-- What happens next. -/
inductive SysEvent (Tid : Type)
  /-- A thread makes a move. -/
  | move (i : Tid) (act : Act)
  /-- Code of a thread writes rows of a model, where the router sends it. -/
  | write (i : Tid) (m : Model)
  /-- A migration of a schema comes to its next operation. -/
  | migrate (db : Alias) (schema : SchemaName) (op : Operation)

section System

variable {Tid : Type} [DecidableEq Tid]

/-- A statement that the router refuses, or that finds no connection, writes nothing; so does an
operation that raises. -/
def System.step (cfg : RouterSettings) (s : System Tid) : SysEvent Tid → Option (System Tid)
  | .move i act =>
    ((s.threads i).after act).map fun th => { s with threads := Function.update s.threads i th }
  | .write i m =>
    match cfg.dbForWrite m (s.threads i).routing with
    | .error _ => some s
    | .ok a =>
      match (s.threads i).routing.schemaOf a with
      | none => some s
      | some schema => some { s with catalog := s.catalog.write a schema m }
  | .migrate db schema op =>
    match s.catalog.operate cfg none db schema op with
    | .error _ => some s
    | .ok c => some { s with catalog := c }

/-- The tenants that a block enters are as `Tenant.clean` has them. -/
def Act.Registers : Act → Prop
  | .tenantContext t _ => t.Placed
  | _ => True

omit [DecidableEq Tid] in
/-- Tasks with the public header are run where `default` is on public, and tenants are registered
ones. -/
def System.Allows (s : System Tid) : SysEvent Tid → Prop
  | .move i act => act.PublicSafe (s.threads i) ∧ act.Registers
  | .write _ _ => True
  | .migrate _ _ _ => True

omit [DecidableEq Tid] in
/-- A data migration that writes a policed model is one of a strict app. -/
def SysEvent.Homely (cfg : RouterSettings) (labels : List String) : SysEvent Tid → Prop
  | .migrate _ _ op => ∀ label writes, op = .data label writes →
      ∀ m ∈ writes, cfg.Policed m → label ∈ labels
  | _ => True

/-- The public copies of the policed models have never been written to. -/
def Bare (cfg : RouterSettings) (c : Catalog) : Prop :=
  ∀ m, cfg.Policed m → ∀ db, c.written db publicSchemaName m = false

/-- Threads without a context over tables that are where the migrations put them. -/
structure System.Started (cfg : RouterSettings) (s : System Tid) : Prop where
  threads : ∀ i, (s.threads i).NoContext ∧ (s.threads i).routing.known "" = false
  exact : s.catalog.Exact cfg

/-- What holds of a thread at any moment. -/
structure Thread.Ordered (th : Thread) : Prop where
  sound : Sound th.routing th.frames
  pins : PinsPublic th
  entered : Entered th.frames
  empty : th.routing.known "" = false

/-- What holds at any moment. -/
structure System.Inv (cfg : RouterSettings) (s : System Tid) : Prop where
  threads : ∀ i, (s.threads i).Ordered
  exact : s.catalog.Exact cfg

section Moves

variable {th th' : Thread} {act : Act}

/-- A thread without a context is ordered, if it knows no empty alias. -/
theorem Thread.NoContext.ordered (h : th.NoContext) (hempty : th.routing.known "" = false) :
    th.Ordered := by
  refine ⟨h.sound, ?_, ?_, hempty⟩
  · intro token hmem
    rw [h.noFrame] at hmem
    cases hmem
  · intro f hf
    rw [h.noFrame] at hf
    cases hf

/-- One more frame whose tenant is not `public` leaves the frames entered. -/
theorem Entered.cons {f : Frame} {fs : List Frame} (h : Entered fs)
    (hf : ∀ t, f.tenant = some t → t.schemaName ≠ publicSchemaName) : Entered (f :: fs) :=
  List.forall_mem_cons.mpr ⟨hf, h⟩

/-- Entering a context of a tenant other than `public` leaves the frames entered. -/
theorem Entered.enter {t : TenantSnapshot} (h : Entered th.frames)
    (ht : t.schemaName ≠ publicSchemaName) (fault : Option Bool)
    (opened : Option Recorded → Option Alias → Frame)
    (hopen : ∀ prev token, (opened prev token).tenant = some t) :
    Entered (th.enter t fault opened).frames := by
  unfold Thread.enter
  cases hc : th.routing.connections t.shard.dbAlias with
  | none => exact h
  | some c =>
    cases fault with
    | some recorded => exact h
    | none =>
      refine h.cons fun u hu => ?_
      rw [hopen] at hu
      exact Option.some.inj hu ▸ ht

/-- The routing middleware enters a tenant outside of `default` only, which is not public. -/
theorem Entered.route {tenant : Option Registered} (h : Entered th.frames) (fault : Option Bool) :
    Entered (th.route tenant fault).frames := by
  have hpin : Entered th.pin.frames := h.cons fun t ht => by cases ht
  unfold Thread.route
  cases tenant with
  | none => exact hpin
  | some t =>
    by_cases hdefault : t.1.shard.dbAlias = defaultAlias
    · simp only [hdefault, if_true]
      exact hpin
    have hpub : t.1.schemaName ≠ publicSchemaName := fun hp => hdefault (t.2.mp hp)
    have henter := h.enter hpub fault (.routed t.1) fun _ _ => rfl
    simp only [hdefault, if_false]
    split
    · exact h
    · exact henter

/-- Every step that registers its tenants leaves the frames entered. -/
theorem Entered.after (h : Entered th.frames) (hact : act.Registers)
    (hstep : th.after act = some th') : Entered th'.frames := by
  have hrequest : ∀ tenant, Entered [.request tenant] := fun tenant f hf t ht => by
    obtain rfl := List.mem_singleton.mp hf
    cases ht
  cases act with
  | processRequest =>
    simp only [Thread.after] at hstep
    split at hstep
    · obtain rfl := Option.some.inj hstep
      exact hrequest none
    · cases hstep
  | setTenant t =>
    simp only [Thread.after] at hstep
    split at hstep
    · obtain rfl := Option.some.inj hstep
      exact hrequest (some t)
    · cases hstep
  | route fault =>
    simp only [Thread.after] at hstep
    split at hstep
    · obtain rfl := Option.some.inj hstep
      exact h.route fault
    · cases hstep
  | tenantContext t fault =>
    simp only [Thread.after] at hstep
    split at hstep
    · cases hstep
    · rename_i hne
      obtain rfl := Option.some.inj hstep
      exact h.enter (fun hp => hne (hact.mp hp)) fault _ fun _ _ => rfl
  | task header tenant fault =>
    simp only [Thread.after] at hstep
    split at hstep
    · obtain rfl := Option.some.inj hstep
      exact h.cons fun t ht => by cases ht
    split at hstep
    · obtain rfl := Option.some.inj hstep
      exact h.cons fun t ht => by cases ht
    rename_i hpublic
    split at hstep
    · obtain rfl := Option.some.inj hstep
      exact h
    split at hstep
    · rename_i t hname
      obtain rfl := Option.some.inj hstep
      exact h.enter (fun hp => hpublic (hname.symm.trans hp)) fault _ fun _ _ => rfl
    · cases hstep
  | leave =>
    simp only [Thread.after] at hstep
    split at hstep
    · cases hstep
    · rename_i f fs hfs
      obtain rfl := Option.some.inj hstep
      rw [hfs] at h
      exact fun g hg => h g (List.mem_cons_of_mem _ hg)

/-- Every step that is safe for `public` leaves the thread ordered. -/
theorem Thread.Ordered.after (h : th.Ordered) (hsafe : act.PublicSafe th) (hact : act.Registers)
    (hstep : th.after act = some th') : th'.Ordered where
  sound := h.sound.after hstep
  pins := h.pins.after h.sound hsafe hstep
  entered := h.entered.after hact hstep
  empty := by
    rw [Thread.known_after hstep]
    exact h.empty

/-- What the router answers to the code of a thread. -/
theorem Thread.Ordered.dbForRead_iff {cfg : RouterSettings} {labels : List String} {m : Model}
    {a : Alias} (h : th.Ordered) (hc : cfg.Coherent labels) :
    cfg.dbForRead m th.routing = .ok a ↔
      a = (home cfg m th.frames).1 ∧ Admitted cfg labels m th.frames := by
  refine dbForRead_iff_home hc h.sound h.empty h.entered fun hb => ?_
  obtain ⟨token, htoken⟩ := pinned_of_bound h.sound.linked hb
  exact h.pins token htoken

end Moves

section Writes

variable {cfg : RouterSettings} {labels : List String} {c c' : Catalog} {db : Alias}
  {schema : SchemaName} {m : Model} {op : Operation}

/-- A write on a shard, in a schema other than public, never ends up in public. -/
theorem Bare.write (h : Bare cfg c) (hx : c.Exact cfg)
    (hplace : cfg.Policed m → db ≠ defaultAlias ∧ schema ≠ publicSchemaName) :
    Bare cfg (c.write db schema m) := by
  intro m' hm' db'
  by_contra hw
  obtain hold | ⟨-, rfl, hreach⟩ := Catalog.written_write (by simpa using hw)
  · rw [h m' hm' db'] at hold
    cases hold
  · obtain ⟨hdb, hschema⟩ := hplace hm'
    unfold Catalog.reach at hreach
    split at hreach
    · exact hschema (Option.some.inj hreach)
    split at hreach
    · -- The shards have no tables in public.
      rename_i htable
      exact hdb ((hx _ _ _).mp htable).1.of_public
    · cases hreach

/-- Writes to policed models outside `public` leave its copies empty. -/
theorem Bare.foldl_write {writes : List Model} (h : Bare cfg c) (hx : c.Exact cfg)
    (hplace : ∀ m ∈ writes, cfg.Policed m → db ≠ defaultAlias ∧ schema ≠ publicSchemaName) :
    Bare cfg (writes.foldl (fun c m => c.write db schema m) c) := by
  induction writes generalizing c with
  | nil => exact h
  | cons m writes ih =>
    obtain ⟨hm, hrest⟩ := List.forall_mem_cons.mp hplace
    exact ih (h.write hx hm) hx.write hrest

/-- A mark that is taken away leaves the rest. -/
theorem Bare.put (h : Bare cfg c) :
    Bare cfg { c with written := c.written.put db schema m false } := by
  intro m' hm' db'
  simp [Marks.put, h m' hm' db']

/-- A data migration of a strict app is not run on public. -/
theorem Bare.operate (h : Bare cfg c) (hc : cfg.Coherent labels) (hx : c.Exact cfg)
    (hdata : ∀ label writes, op = .data label writes → ∀ m ∈ writes, cfg.Policed m → label ∈ labels)
    (hop : c.operate cfg none db schema op = .ok c') : Bare cfg c' := by
  obtain ⟨allowed, hallow, rfl⟩ := Catalog.operate_cases hop
  cases allowed with
  | false => exact h
  | true =>
    cases op with
    | create m => exact h.put
    | delete m => exact h.put
    | data label writes =>
      change cfg.allowMigrate none db schema label none = .ok true at hallow
      rw [RouterSettings.allowMigrate_data hc.strict] at hallow
      obtain ⟨hhost, hpub⟩ := of_decide_eq_true (Except.ok.inj hallow)
      refine h.foldl_write hx fun m hm hpol => ?_
      have hne : schema ≠ publicSchemaName := fun hp => hpub hp (hdata label writes rfl m hm hpol)
      exact ⟨hhost.of_tenant hne, hne⟩

end Writes

section Results

variable {cfg : RouterSettings} {labels : List String} {s s₀ s' : System Tid} {m : Model}

/-- One step keeps the invariant. -/
theorem System.Inv.step {e : SysEvent Tid} (h : s.Inv cfg) (hR : s.Allows e)
    (hstep : s.step cfg e = some s') : s'.Inv cfg := by
  cases e with
  | move i act =>
    obtain ⟨th, hth, rfl⟩ := Option.map_eq_some_iff.mp hstep
    refine ⟨fun j => ?_, h.exact⟩
    by_cases hj : j = i
    · subst hj
      simp only [Function.update_self]
      exact (h.threads j).after hR.1 hR.2 hth
    · simp only [Function.update_of_ne hj]
      exact h.threads j
  | write i m =>
    simp only [System.step] at hstep
    split at hstep
    · exact Option.some.inj hstep ▸ h
    rename_i a hdb
    split at hstep
    · exact Option.some.inj hstep ▸ h
    exact Option.some.inj hstep ▸ ⟨h.threads, h.exact.write⟩
  | migrate db schema op =>
    simp only [System.step] at hstep
    split at hstep
    · exact Option.some.inj hstep ▸ h
    rename_i c hop
    exact Option.some.inj hstep ▸ ⟨h.threads, h.exact.operate hop⟩

/-- No step writes to the public copy of a policed model. -/
theorem System.Inv.bare_step {e : SysEvent Tid} (h : s.Inv cfg) (hbare : Bare cfg s.catalog)
    (hc : cfg.Coherent labels) (he : e.Homely cfg labels) (hstep : s.step cfg e = some s') :
    Bare cfg s'.catalog := by
  cases e with
  | move i act =>
    obtain ⟨th, _, rfl⟩ := Option.map_eq_some_iff.mp hstep
    exact hbare
  | write i m =>
    simp only [System.step] at hstep
    split at hstep
    · exact Option.some.inj hstep ▸ hbare
    rename_i a hdb
    split at hstep
    · exact Option.some.inj hstep ▸ hbare
    rename_i schema hschema
    obtain rfl := Option.some.inj hstep
    refine hbare.write h.exact fun hpol => ?_
    -- The router lets a policed model pass only with a tenant entered.
    have hord := h.threads i
    obtain ⟨rfl, hadm⟩ := (hord.dbForRead_iff hc).mp hdb
    obtain ⟨labels', hlabels, hmem⟩ := hpol.strict
    obtain rfl := Except.ok.inj (hlabels.symm.trans hc.strict)
    cases hin : innermost (s.threads i).frames with
    | none => exact absurd (hadm hin hmem).1 hpol.notAllowed
    | some t =>
      obtain ⟨hb, hlast, hne, f, hf, hft⟩ := of_innermost hord.sound.linked hin
      simp only [home, hin, hc.sharedOnly_strict hmem, Bool.false_eq_true, if_false] at hschema ⊢
      rw [hord.sound.on _ t hlast] at hschema
      obtain rfl := Option.some.inj hschema
      exact ⟨hne, hord.entered f hf t hft⟩
  | migrate db schema op =>
    simp only [System.step] at hstep
    split at hstep
    · exact Option.some.inj hstep ▸ hbare
    rename_i c hop
    exact Option.some.inj hstep ▸ hbare.operate hc h.exact he hop

omit [DecidableEq Tid] in
/-- A system that has started meets the invariant. -/
theorem System.Started.inv (h₀ : s₀.Started cfg) : s₀.Inv cfg :=
  ⟨fun i => (h₀.threads i).1.ordered (h₀.threads i).2, h₀.exact⟩

omit [DecidableEq Tid] in
/-- The settings with the one strict app are coherent. -/
theorem productSettings_coherent : productSettings.Coherent ["products"] :=
  ⟨by simp [productSettings], rfl, by decide, rfl⟩

/-- One fresh thread, and databases without tables. -/
def freshSystem : System Unit := ⟨fun _ => freshThread, .blank⟩

/-- A fresh system has started. -/
theorem freshSystem_started : freshSystem.Started productSettings :=
  ⟨fun _ => ⟨freshThread_noContext, rfl⟩, Catalog.blank_exact _⟩

/-- The products are migrated on public and on the schema of acme, which is then served. -/
def servedAcme : List (SysEvent Unit) :=
  [.migrate "default" "public" (.create product), .migrate "shard1" "acme" (.create product),
    .move () .processRequest, .move () (.setTenant acmeTenant), .move () (.route none),
    .write () product]

/-- Every step of the request that is served is allowed. -/
theorem servedAcme_allowed (s : System Unit) :
    Allowed (System.step productSettings)
      (fun s e => s.Allows e ∧ e.Homely productSettings ["products"]) s servedAcme := by
  refine .of_forall_mem fun s e he => ?_
  simp only [servedAcme, List.mem_cons, List.not_mem_nil, or_false] at he
  rcases he with rfl | rfl | rfl | rfl | rfl | rfl <;>
    simp [System.Allows, SysEvent.Homely, Act.PublicSafe, Act.Registers]

/-- In every state of every run, the router sends the statement of a thread to the home of its model
exactly when the model is admitted there, and the search path of the connection then finds the table
that the migrations of that very schema have made. -/
theorem queries_find_their_tables (hc : cfg.Coherent labels) (h₀ : s₀.Started cfg)
    (h : Trace (System.step cfg) System.Allows s₀ s) (i : Tid)
    (hm : cfg.appInList m.appLabel cfg.sharedApps) :
    (∀ a, cfg.dbForRead m (s.threads i).routing = .ok a ↔
      a = (home cfg m (s.threads i).frames).1 ∧ Admitted cfg labels m (s.threads i).frames) ∧
    (Catalog.made m (s.catalog.recorded (home cfg m (s.threads i).frames).1
        (home cfg m (s.threads i).frames).2) →
      ∃ schema, (s.threads i).routing.schemaOf (home cfg m (s.threads i).frames).1 = some schema ∧
        s.catalog.reach (home cfg m (s.threads i).frames).1 schema m =
          some (home cfg m (s.threads i).frames).2) := by
  have hinv : s.Inv cfg := h.invariant h₀.inv fun _ _ _ hs hR hstep => hs.step hR hstep
  have hord := hinv.threads i
  exact ⟨fun a => hord.dbForRead_iff hc, reach_home hinv.exact hord.sound hord.entered hm⟩

/-- Its queries find the products of acme. -/
theorem queries_find_their_tables_served : ∃ s : System Unit,
    Trace (System.step productSettings) System.Allows freshSystem s ∧
      productSettings.dbForRead product (s.threads ()).routing = .ok "shard1" ∧
      s.catalog.reach "shard1" "acme" product = some "acme" := by
  obtain ⟨s, hs⟩ : ∃ s, runEvents (System.step productSettings) freshSystem servedAcme = some s :=
    ⟨_, rfl⟩
  have htrace := Trace.start.of_runEvents ((servedAcme_allowed _).mono fun _ _ h => h.1) hs
  obtain ⟨hread, hreach⟩ := queries_find_their_tables productSettings_coherent freshSystem_started
    htrace () (m := product) (by decide)
  obtain rfl := Option.some.inj hs
  obtain ⟨schema, hschema, hreach⟩ := hreach (by decide)
  obtain rfl := Option.some.inj hschema
  exact ⟨_, htrace, (hread _).mpr ⟨rfl, fun h => by cases h⟩, hreach⟩

/-- In every state of every run, no row has been written to the public copy of a policed model, and
no shard has any table in public. -/
theorem public_copies_stay_empty (hc : cfg.Coherent labels) (h₀ : s₀.Started cfg)
    (hbare : Bare cfg s₀.catalog)
    (h : Trace (System.step cfg) (fun s e => s.Allows e ∧ e.Homely cfg labels) s₀ s) :
    (∀ m, cfg.Policed m → ∀ db, s.catalog.written db publicSchemaName m = false) ∧
      ∀ m db, db ≠ defaultAlias → s.catalog.tables db publicSchemaName m = false := by
  obtain ⟨hinv, hbare⟩ : s.Inv cfg ∧ Bare cfg s.catalog := by
    refine h.invariant (I := fun s => s.Inv cfg ∧ Bare cfg s.catalog) ⟨h₀.inv, hbare⟩ ?_
    rintro s e s' ⟨hs, hbare⟩ ⟨hR, he⟩ hstep
    exact ⟨hs.step hR hstep, hs.bare_step hbare hc he hstep⟩
  refine ⟨hbare, fun m db hdb => ?_⟩
  by_contra htable
  exact hdb ((hinv.exact _ _ _).mp (by simpa using htable)).1.of_public

/-- The product of acme is written to its own table. -/
theorem public_copies_stay_empty_served : ∃ s : System Unit,
    Trace (System.step productSettings)
      (fun s e => s.Allows e ∧ e.Homely productSettings ["products"]) freshSystem s ∧
      s.catalog.written "shard1" "acme" product ∧
      s.catalog.written "default" "public" product = false := by
  obtain ⟨s, hs⟩ : ∃ s, runEvents (System.step productSettings) freshSystem servedAcme = some s :=
    ⟨_, rfl⟩
  have htrace := Trace.start.of_runEvents (servedAcme_allowed _) hs
  have hempty := (public_copies_stay_empty productSettings_coherent freshSystem_started
    (fun _ _ _ => rfl) htrace).1 product product_policed "default"
  obtain rfl := Option.some.inj hs
  exact ⟨_, htrace, by decide, hempty⟩

end Results

end System

end MtShards.Context
