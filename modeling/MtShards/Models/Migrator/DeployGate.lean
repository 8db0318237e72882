import MtShards.Models.Migrator.Reconcile

/-!
# The deploy gate and the report, at a site

`reconcile_tenants` on a site where nothing changes while it runs: the number of problems that
`--check` reports is a count over the ACTIVE tenants, and following the next step that `--report`
shows leads to a tenant with nothing left to do.
-/

namespace MtShards.Migrator

open MtShards.Core Program

/-- What the command is told describes a site: every tenant has a row, the shards for which
`reach` gives an exception cannot be reached, and the others show what their schemas record. The
verdict of the gate does not hang on the leases; for the report, `TellsLeases` describes them. -/
structure Describes (known : Plan) (s : Site) (rows : List Row) (reach : Alias → Option Exn)
    (told : Told) : Prop where
  row : ∀ r ∈ rows, s.world.tenant r.pk = some r.tenant ∧ r.tenant.schemaName ≠ "public"
  all : ∀ pk t, s.world.tenant pk = some t → t.schemaName ≠ "public" → ∃ r ∈ rows, r.pk = pk
  tenants : ∀ schema status, told.tenants schema status = .ok (rows.filter fun r =>
    schema.all (fun n => n == r.tenant.schemaName) && status.all fun st => st == r.tenant.status)
  lost : ∀ a e, reach a = some e → e.lost = true
  plan : ∀ r ∈ rows, told.pendingPlan r.pk = (reach r.dbAlias).elim
    (.ok ((s.schemas r.dbAlias r.tenant.schemaName).map fun c => c.unapplied known)) Except.error
  session : ∀ r ∈ rows, ∃ busy, told.pendingSession r.dbAlias r.pk =
    (reach r.dbAlias).elim (.ok busy) Except.error

section Counts

variable (known : Plan) (s : Site) (reach : Alias → Option Exn)

/-- The shard of the tenant answers, and its schema is missing. -/
def Row.missing (r : Row) : Bool :=
  (reach r.dbAlias).isNone && (s.schemas r.dbAlias r.tenant.schemaName).isNone

/-- The shard of the tenant answers, and its schema does not record every migration. -/
def Row.outdated (r : Row) : Bool :=
  (reach r.dbAlias).isNone &&
    (s.schemas r.dbAlias r.tenant.schemaName).any fun c => !(c.unapplied known).isEmpty

/-- The shards of the rows that do not answer. -/
def lostShards (rows : List Row) : Finset Alias :=
  ((rows.map Row.dbAlias).filter fun a => (reach a).isSome).toFinset

/-- The number of problems on the shards. -/
def shardProblems (rows : List Row) : Nat :=
  (lostShards reach rows).card + rows.countP (Row.missing s reach) +
    rows.countP (Row.outdated known s reach)

variable {known s reach} {told : Told} {rows : List Row} {f : Found} {r : Row}

/-- What the loop has collected accounts for the tenants it has seen. -/
structure Accounts (known : Plan) (s : Site) (reach : Alias → Option Exn) (base : Nat)
    (rows : List Row) (f : Found) : Prop where
  nodup : f.unreachable.Nodup
  unreachable : ∀ a, a ∈ f.unreachable ↔ a ∈ lostShards reach rows
  missing : f.missing = rows.countP (Row.missing s reach)
  behind : f.behind = rows.countP (Row.outdated known s reach)
  problems : f.problems.length = base + f.unreachable.length + f.missing + f.behind

/-- The shards that are lost are those of the rows that cannot be reached. -/
theorem mem_lostShards {a : Alias} :
    a ∈ lostShards reach rows ↔ ∃ r ∈ rows, r.dbAlias = a ∧ (reach a).isSome = true := by
  simp only [lostShards, List.mem_toFinset, List.mem_filter, List.mem_map]
  constructor
  · rintro ⟨⟨r, hr, rfl⟩, ha⟩
    exact ⟨r, hr, rfl, ha⟩
  · rintro ⟨r, hr, rfl, ha⟩
    exact ⟨⟨r, hr, rfl⟩, ha⟩

/-- One more row loses its shard, if that cannot be reached. -/
theorem mem_lostShards_snoc {a : Alias} : a ∈ lostShards reach (rows ++ [r]) ↔
    a ∈ lostShards reach rows ∨ (r.dbAlias = a ∧ (reach a).isSome = true) := by
  simp only [mem_lostShards, List.mem_append, List.mem_singleton]
  constructor
  · rintro ⟨x, hx | rfl, hrest⟩
    · exact .inl ⟨x, hx, hrest⟩
    · exact .inr hrest
  · rintro (⟨x, hx, hrest⟩ | hrest)
    · exact ⟨x, .inl hx, hrest⟩
    · exact ⟨r, .inr rfl, hrest⟩

/-- A turn of the loop accounts for one more tenant. -/
theorem Accounts.step {base : Nat} (h : Accounts known s reach base rows f)
    (hlost : ∀ a e, reach a = some e → e.lost = true)
    (hplan : told.pendingPlan r.pk = (reach r.dbAlias).elim
      (.ok ((s.schemas r.dbAlias r.tenant.schemaName).map fun c => c.unapplied known)) Except.error) :
    ∃ f', checkTenant told f r = .ok f' ∧ Accounts known s reach base (rows ++ [r]) f' := by
  have hcount {P : Row → Bool} : (rows ++ [r]).countP P = rows.countP P + if P r then 1 else 0 := by
    rw [List.countP_append, List.countP_singleton]
  have hmem := fun a => h.unreachable a
  rw [checkTenant, Migrator.behind, hplan]
  cases hreach : reach r.dbAlias with
  | some e =>
    have hquiet : Row.missing s reach r = false ∧ Row.outdated known s reach r = false := by
      rw [Row.missing, Row.outdated, hreach]
      exact ⟨rfl, rfl⟩
    have hcounts {P : Row → Bool} (hP : P r = false) : (rows ++ [r]).countP P = rows.countP P := by
      rw [hcount, hP]
      rfl
    by_cases hin : r.dbAlias ∈ f.unreachable
    · rw [if_pos hin]
      refine ⟨f, rfl, h.nodup, fun a => ?_, ?_, ?_, h.problems⟩
      · rw [mem_lostShards_snoc, ← hmem]
        refine ⟨.inl, ?_⟩
        rintro (ha | ⟨rfl, _⟩)
        · exact ha
        · exact hin
      · rw [hcounts hquiet.1, h.missing]
      · rw [hcounts hquiet.2, h.behind]
    · rw [if_neg hin]
      dsimp only [Option.elim, Except.map]
      rw [if_pos (hlost _ e hreach)]
      refine ⟨_, rfl, ?_, fun a => ?_, ?_, ?_, ?_⟩
      · exact h.nodup.append (List.nodup_singleton _) (by simpa using hin)
      · rw [List.mem_append, List.mem_singleton, mem_lostShards_snoc, ← hmem]
        refine or_congr_right ⟨?_, fun hr => hr.1.symm⟩
        rintro rfl
        exact ⟨rfl, by rw [hreach]; rfl⟩
      · rw [hcounts hquiet.1, h.missing]
      · rw [hcounts hquiet.2, h.behind]
      · simp only [List.length_append, List.length_singleton, h.problems]
        omega
  | none =>
    have hout : r.dbAlias ∉ f.unreachable := by
      rw [hmem, mem_lostShards]
      rintro ⟨x, _, _, hsome⟩
      rw [hreach] at hsome
      cases hsome
    have hsame (a : Alias) : a ∈ f.unreachable ↔ a ∈ lostShards reach (rows ++ [r]) := by
      rw [mem_lostShards_snoc, ← hmem]
      refine ⟨.inl, ?_⟩
      rintro (ha | ⟨rfl, hsome⟩)
      · exact ha
      · rw [hreach] at hsome
        cases hsome
    rw [if_neg hout]
    cases hc : s.schemas r.dbAlias r.tenant.schemaName with
    | none =>
      have hmissing : Row.missing s reach r = true ∧ Row.outdated known s reach r = false := by
        rw [Row.missing, Row.outdated, hreach, hc]
        exact ⟨rfl, rfl⟩
      simp only [Option.elim_none, Option.map_none, Except.map]
      refine ⟨_, rfl, h.nodup, hsame, ?_, ?_, ?_⟩
      · rw [hcount, hmissing.1, if_pos rfl, h.missing]
      · rw [hcount, hmissing.2, h.behind]
        rfl
      · simp only [List.length_append, List.length_singleton, h.problems]
        omega
    | some c =>
      cases hu : c.unapplied known with
      | nil =>
        have hfine : Row.missing s reach r = false ∧ Row.outdated known s reach r = false := by
          rw [Row.missing, Row.outdated, hreach, hc]
          simp [hu]
        simp only [Option.elim_none, Option.map_some, Except.map, hu, List.length_nil]
        refine ⟨f, rfl, h.nodup, hsame, ?_, ?_, h.problems⟩
        · rw [hcount, hfine.1, h.missing]
          rfl
        · rw [hcount, hfine.2, h.behind]
          rfl
      | cons m ms =>
        have hbehind : Row.missing s reach r = false ∧ Row.outdated known s reach r = true := by
          rw [Row.missing, Row.outdated, hreach, hc]
          simp [hu]
        simp only [Option.elim_none, Option.map_some, Except.map, hu, List.length_cons]
        refine ⟨_, rfl, h.nodup, hsame, ?_, ?_, ?_⟩
        · rw [hcount, hbehind.1, h.missing]
          rfl
        · rw [hcount, hbehind.2, if_pos rfl, h.behind]
        · simp only [List.length_append, List.length_singleton, h.problems]
          omega

/-- The whole loop. -/
theorem Accounts.run {base : Nat} {seen : List Row} (h : Accounts known s reach base seen f)
    (hlost : ∀ a e, reach a = some e → e.lost = true)
    (hplan : ∀ r ∈ rows, told.pendingPlan r.pk = (reach r.dbAlias).elim
      (.ok ((s.schemas r.dbAlias r.tenant.schemaName).map fun c => c.unapplied known)) Except.error) :
    ∃ f', rows.foldlM (checkTenant told) f = .ok f' ∧ Accounts known s reach base (seen ++ rows) f' := by
  induction rows generalizing f seen with
  | nil => exact ⟨f, rfl, by rw [List.append_nil]; exact h⟩
  | cons r rows ih =>
    obtain ⟨f₁, hstep, h₁⟩ := h.step hlost (hplan r List.mem_cons_self)
    obtain ⟨f', hrun, h'⟩ := ih h₁ fun x hx => hplan x (List.mem_cons_of_mem _ hx)
    refine ⟨f', ?_, ?_⟩
    · rw [List.foldlM_cons, hstep]
      exact hrun
    · rw [List.append_assoc] at h'
      exact h'

end Counts

/-! ### The verdict of the gate -/

section Verdict

variable {known : Plan} {s : Site} {rows : List Row} {reach : Alias → Option Exn} {told : Told}
  {holders : Holders} {older : Bool} {plan : Plan}

/-- How the gate ends, by the number of problems. -/
def verdict : Nat → Except Exn Unit
  | 0 => .ok ()
  | n + 1 => .error (commandError s!"reconcile_tenants --check: {n + 1} problem(s).")

/-- The rows in a status. -/
def rowsIn (st : Status) (rows : List Row) : List Row :=
  rows.filter fun r => decide (r.tenant.status = st)

/-- The tenants that are told are the rows of the status. -/
theorem Describes.tenantsIn (h : Describes known s rows reach told) (st : Status) :
    told.tenants none (some st) = .ok (rowsIn st rows) := by
  rw [h.tenants, rowsIn]
  congr 1
  refine List.filter_congr fun r _ => ?_
  rw [Option.all_none, Option.all_some, Bool.true_and, Bool.eq_iff_iff, beq_iff_eq, decide_eq_true_eq,
    eq_comm]

/-- A PENDING tenant never keeps the gate from its verdict. -/
theorem Describes.stuckState (h : Describes known s rows reach told) {r : Row} (hr : r ∈ rows) :
    ∃ state, stuckState told holders r = .ok state := by
  have hsession (lease : String) : (∃ state, sessionState told r lease = .ok state) ∨
      ∃ e, e.lost = true ∧ sessionState told r lease = .error e := by
    obtain ⟨busy, hbusy⟩ := h.session r hr
    rw [sessionState, hbusy]
    cases hreach : reach r.dbAlias with
    | some e => exact .inr ⟨e, h.lost _ e hreach, rfl⟩
    | none => cases busy <;> exact .inl ⟨_, rfl⟩
  have hstate : (∃ state, pendingState told holders r = .ok state) ∨
      ∃ e, e.lost = true ∧ pendingState told holders r = .error e := by
    rw [pendingState]
    cases holders.lookup r.pk with
    | none => exact hsession _
    | some held =>
      dsimp only
      split
      · exact hsession _
      · exact .inl ⟨_, rfl⟩
  rw [Migrator.stuckState]
  rcases hstate with ⟨state, hs⟩ | ⟨e, he, hs⟩
  · rw [hs]
    exact ⟨state, rfl⟩
  · rw [hs]
    dsimp only
    rw [if_pos he]
    exact ⟨_, rfl⟩

private theorem length_defaultProblems :
    (defaultProblems older plan).length = (if older then 1 else 0) + if plan.isEmpty then 0 else 1 := by
  rw [defaultProblems, List.length_append]
  cases older <;> cases plan <;> rfl

/-- The gate ends by a count over the ACTIVE tenants. -/
theorem Describes.check (h : Describes known s rows reach told)
    (holder : told.codeOlderThanDb = .ok older) (hplan : told.publicPlan = .ok plan) :
    (check told holders).outcome = verdict ((if older then 1 else 0) +
      (if plan.isEmpty then 0 else 1) + shardProblems known s reach (rowsIn .active rows)) := by
  have hread : checkDefault told = .ok (defaultProblems older plan, rowsIn .active rows,
      rowsIn .pending rows) :=
    checkDefault_ok_iff.mpr ⟨older, plan, holder, hplan, h.tenantsIn .active, h.tenantsIn .pending, rfl⟩
  have hbase : Accounts known s reach (defaultProblems older plan).length []
      ⟨defaultProblems older plan, 0, 0, []⟩ :=
    ⟨List.nodup_nil, fun a => iff_of_false List.not_mem_nil (by simp [mem_lostShards]), rfl, rfl, rfl⟩
  obtain ⟨f, hrun, hf⟩ := hbase.run h.lost fun r (hr : r ∈ rowsIn .active rows) =>
    h.plan r (List.mem_filter.mp hr).1
  have hends : (checkPending told holders (rowsIn .pending rows)).outcome = .ok () :=
    checkPending_ok_iff.mpr fun r hr => h.stuckState (List.mem_filter.mp hr).1
  have hlost : f.unreachable.length = (lostShards reach (rowsIn .active rows)).card := by
    rw [← List.toFinset_card_of_nodup hf.nodup]
    congr 1
    ext a
    rw [List.mem_toFinset, hf.unreachable, List.nil_append]
  have hcount : f.problems.length = (if older then 1 else 0) + (if plan.isEmpty then 0 else 1) +
      shardProblems known s reach (rowsIn .active rows) := by
    rw [hf.problems, hf.missing, hf.behind, hlost, length_defaultProblems, shardProblems,
      List.nil_append]
    omega
  rw [← hcount, Migrator.check, hread]
  dsimp only
  rw [hrun]
  dsimp only
  rw [hends]
  dsimp only
  cases hp : f.problems with
  | nil => rfl
  | cons x xs => rfl

private theorem verdict_ok_iff {n : Nat} : verdict n = .ok () ↔ n = 0 := by
  cases n with
  | zero => exact iff_of_true rfl rfl
  | succ n => exact iff_of_false (fun h => by cases h) (Nat.succ_ne_zero n)

/-- No problem on the shards: every shard that holds one of the tenants answers, and the tenants
are migrated. -/
theorem shardProblems_eq_zero_iff : shardProblems known s reach rows = 0 ↔
    ∀ r ∈ rows, reach r.dbAlias = none ∧ Migrated known r.tenant s := by
  rw [shardProblems, Nat.add_eq_zero_iff, Nat.add_eq_zero_iff, Finset.card_eq_zero,
    List.countP_eq_zero, List.countP_eq_zero]
  constructor
  · rintro ⟨⟨hlost, hmissing⟩, houtdated⟩ r hr
    have hreach : reach r.dbAlias = none := by
      by_contra hne
      have hmem : r.dbAlias ∈ lostShards reach rows :=
        mem_lostShards.mpr ⟨r, hr, rfl, Option.isSome_iff_ne_none.mpr hne⟩
      rw [hlost] at hmem
      exact absurd hmem (Finset.notMem_empty _)
    refine ⟨hreach, ?_⟩
    have hm := hmissing r hr
    have ho := houtdated r hr
    rw [Row.missing, hreach] at hm
    rw [Row.outdated, hreach] at ho
    cases hc : s.schemas r.dbAlias r.tenant.schemaName with
    | none => simp [hc] at hm
    | some c =>
      refine ⟨c, hc, Content.unapplied_eq_nil_iff.mp ?_⟩
      simpa [hc] using ho
  · intro hall
    refine ⟨⟨?_, fun r hr => ?_⟩, fun r hr => ?_⟩
    · rw [Finset.eq_empty_iff_forall_notMem]
      intro a ha
      obtain ⟨r, hr, rfl, hsome⟩ := mem_lostShards.mp ha
      rw [(hall r hr).1] at hsome
      cases hsome
    · obtain ⟨_, c, hc, _⟩ := hall r hr
      rw [Row.missing, Row.dbAlias, hc, Option.isNone_some, Bool.and_false]
      exact Bool.false_ne_true
    · obtain ⟨_, c, hc, hcomplete⟩ := hall r hr
      rw [Row.outdated, Row.dbAlias, hc, Option.any_some, Content.unapplied_eq_nil_iff.mpr hcomplete]
      simp

/-- When the gate passes. -/
theorem Describes.check_ok_iff (h : Describes known s rows reach told)
    (holder : told.codeOlderThanDb = .ok older) (hplan : told.publicPlan = .ok plan) :
    (Migrator.check told holders).outcome = .ok () ↔ older = false ∧ plan = [] ∧
      ∀ pk t, s.world.tenant pk = some t → t.schemaName ≠ "public" → t.status = .active →
        reach t.shard.dbAlias = none ∧ Migrated known t s := by
  rw [h.check holder hplan, verdict_ok_iff, Nat.add_eq_zero_iff,
    Nat.add_eq_zero_iff, shardProblems_eq_zero_iff, and_assoc]
  refine and_congr (by cases older <;> simp) (and_congr (by cases plan <;> simp) ?_)
  constructor
  · intro hall pk t ht hpublic hst
    obtain ⟨r, hr, rfl⟩ := h.all pk t ht hpublic
    obtain rfl := Option.some.inj ((h.row r hr).1.symm.trans ht)
    exact hall r (List.mem_filter.mpr ⟨hr, decide_eq_true hst⟩)
  · intro hall r hr
    obtain ⟨hmem, hst⟩ := List.mem_filter.mp hr
    obtain ⟨hrow, hpublic⟩ := h.row r hmem
    exact hall r.pk r.tenant hrow hpublic (of_decide_eq_true hst)

/-- The gate reports one problem for code that is older, one for `public` behind, one for each
shard with ACTIVE tenants that does not answer, and one for each ACTIVE tenant elsewhere without a
schema or with one that is behind; it passes exactly when the code is not older, `public` is
migrated, and every ACTIVE tenant is migrated on a shard that answers. -/
theorem check_verdict (h : Describes known s rows reach told)
    (holder : told.codeOlderThanDb = .ok older) (hplan : told.publicPlan = .ok plan) :
    (check told holders).outcome = verdict ((if older then 1 else 0) +
      (if plan.isEmpty then 0 else 1) + shardProblems known s reach (rowsIn .active rows)) ∧
    ((check told holders).outcome = .ok () ↔ older = false ∧ plan = [] ∧
      ∀ pk t, s.world.tenant pk = some t → t.schemaName ≠ "public" → t.status = .active →
        reach t.shard.dbAlias = none ∧ Migrated known t s) :=
  ⟨h.check holder hplan, h.check_ok_iff holder hplan⟩

/-- What the command is told at a site whose shards all answer. -/
def readings (known : Plan) (s : Site) (rows : List Row) : Told where
  leaseHolders := .ok []
  codeOlderThanDb := .ok false
  publicPlan := .ok []
  tenants schema status := .ok (rows.filter fun r =>
    schema.all (fun n => n == r.tenant.schemaName) && status.all fun st => st == r.tenant.status)
  pendingPlan pk := .ok ((rows.find? fun r => r.pk == pk).bind fun r =>
    (s.schemas r.dbAlias r.tenant.schemaName).map fun c => c.unapplied known)
  pendingSession _ _ := .ok none
  leaseSession _ _ := .ok none
  invalidIndexes _ := []

/-- The readings of a site describe it, if the rows are its tenants. -/
theorem describes_readings (hrow : ∀ r ∈ rows, s.world.tenant r.pk = some r.tenant ∧
    r.tenant.schemaName ≠ "public")
    (hall : ∀ pk t, s.world.tenant pk = some t → t.schemaName ≠ "public" → ∃ r ∈ rows, r.pk = pk) :
    Describes known s rows (fun _ => none) (readings known s rows) := by
  refine ⟨hrow, hall, fun _ _ => rfl, fun a e h => (by cases h), fun r hr => ?_, fun r _ => ⟨none, rfl⟩⟩
  -- the row that the key finds is a row of the same tenant
  obtain ⟨x, hx⟩ : ∃ x, rows.find? (fun x => x.pk == r.pk) = some x :=
    Option.isSome_iff_exists.mp (List.find?_isSome.mpr ⟨r, hr, beq_self_eq_true _⟩)
  have hpk : x.pk = r.pk := beq_iff_eq.mp (List.find?_some (p := fun x : Row => x.pk == r.pk) hx)
  have hsame : x.tenant = r.tenant := by
    have hxrow := (hrow x (List.mem_of_find?_eq_some hx)).1
    rw [hpk, (hrow r hr).1] at hxrow
    exact (Option.some.inj hxrow).symm
  rw [readings, Option.elim_none]
  dsimp only
  rw [hx, Option.bind_some, Row.dbAlias, Row.dbAlias, hsame]

/-- The one tenant is ACTIVE, and its schema lacks the second migration. -/
def acmeBehind : Site :=
  ⟨oneTenant acmeActive, fun a n => if a = "shard1" ∧ n = "acme" then
    some ⟨[("core", "0001_initial")], true⟩ else none⟩

/-- The readings of a site with one tenant describe it. -/
theorem describes_acme (hs : s.world.tenant = (oneTenant acmeActive).tenant) :
    Describes known s [⟨1, acmeActive, true⟩] (fun _ => none) (readings known s [⟨1, acmeActive, true⟩]) := by
  refine describes_readings (fun r hr => ?_) fun pk t ht _ => ?_
  · rw [List.mem_singleton.mp hr, hs]
    exact ⟨rfl, by simp [acmeActive, acme]⟩
  · rw [hs, oneTenant] at ht
    dsimp only at ht
    split at ht
    · rename_i hpk
      exact ⟨_, List.mem_singleton.mpr rfl, hpk.symm⟩
    · cases ht

/-- The verdict over a tenant that is behind counts its shard only. -/
theorem check_verdict_behind :
    (check (readings coreTwo acmeBehind [⟨1, acmeActive, true⟩]) []).outcome =
      verdict (0 + 0 + shardProblems coreTwo acmeBehind (fun _ => none)
        (rowsIn .active [⟨1, acmeActive, true⟩])) :=
  (check_verdict (describes_acme rfl) rfl rfl).1

end Verdict

/-! ### The next step of the report -/

/-- The holder of a lease, as a process without transaction reads it. -/
def World.holder (s : World) (k : Pk) : Option LeaseHolder :=
  (s.lease k).join.map fun h => ⟨h.owner, h.since, h.untilAt, decide (h.untilAt < s.now)⟩

/-- The leases that the command is told are those of the site. -/
structure TellsLeases (s : Site) (told : Told) (holders : Holders) : Prop where
  told : told.leaseHolders = .ok holders
  lookup : ∀ k, holders.lookup k = s.world.holder k

/-- A tenant has no holder exactly if its lease is free. -/
theorem TellsLeases.lookup_eq_none_iff {s : Site} {told : Told} {holders : Holders} {k : Pk}
    (h : TellsLeases s told holders) : holders.lookup k = none ↔ s.world.leaseOwner k = none := by
  rw [h.lookup, World.holder, World.leaseOwner, Option.map_eq_none_iff, Option.map_eq_none_iff]

/-- A lease without owner can be taken. -/
theorem World.claimable_of_unowned {w : World} {k : Pk} (h : w.leaseOwner k = none) :
    w.claimable k = true := by
  rw [leaseOwner, Option.map_eq_none_iff] at h
  rw [claimable]
  split
  · rename_i held hrow
    rw [hrow] at h
    cases h
  · rfl

section Advice

variable {known : Plan} {s s' : Site} {rows rows' : List Row} {reach reach' : Alias → Option Exn}
  {told told' : Told} {holders holders' : Holders} {r r' : Row} {p : Pid} {l : SiteLog}

/-- The next step of a tenant whose lease is free, whose shard answers and whose indexes are
valid. -/
theorem Describes.rowState (h : Describes known s rows reach told) (hr : r ∈ rows)
    (hreach : reach r.dbAlias = none) (hfree : holders.lookup r.pk = none)
    (hvalid : told.invalidIndexes r.pk = []) : ∃ notes step,
      rowState told holders r = .ok
        ((s.schemas r.dbAlias r.tenant.schemaName).map fun c => c.unapplied known, [], notes, step) ∧
      nextStep told holders r ((s.schemas r.dbAlias r.tenant.schemaName).map fun c => c.unapplied known) []
        = .ok step := by
  have hplan := h.plan r hr
  obtain ⟨busy, hbusy⟩ := h.session r hr
  rw [hreach, Option.elim_none] at hplan hbusy
  obtain ⟨step, hstep⟩ : ∃ step, nextStep told holders r
      ((s.schemas r.dbAlias r.tenant.schemaName).map fun c => c.unapplied known) [] = .ok step := by
    rw [nextStep.eq_def, hfree]
    dsimp only
    repeat' split
    all_goals exact ⟨_, rfl⟩
  obtain ⟨state, hstate⟩ : ∃ state, pendingState told holders r = .ok state := by
    rw [pendingState, hfree]
    dsimp only
    rw [sessionState, hbusy]
    cases busy <;> exact ⟨_, rfl⟩
  rw [Migrator.rowState, hplan]
  simp only [Bind.bind, Except.bind, hvalid, ite_self, hstate, Pure.pure, Except.pure]
  by_cases hpending : r.tenant.status = .pending
  · rw [if_pos hpending]
    simp only [hstep]
    exact ⟨_, step, rfl, rfl⟩
  · rw [if_neg hpending]
    simp only [hstep]
    exact ⟨_, step, rfl, rfl⟩

/-- When nothing is left to do. -/
theorem next_nothing_iff (hfree : holders.lookup r.pk = none) {plan : Option Plan} :
    nextStep told holders r plan [] = .ok .nothing ↔
      r.tenant.status ∈ upgradableStatuses ∧ plan = some [] := by
  rw [nextStep.eq_def, hfree]
  cases hst : r.tenant.status <;> cases plan with
  | none => simp [provisionable, upgradableStatuses]
  | some plan => cases plan <;> simp [provisionable, upgradableStatuses]

/-- When the report tells to run the migrator. -/
theorem next_migrate_iff (hfree : holders.lookup r.pk = none) {plan : Option Plan}
    {schema : SchemaName} : nextStep told holders r plan [] = .ok (.migrate schema) ↔
      schema = r.tenant.schemaName ∧ (r.tenant.status ∈ provisionable ∨
        r.tenant.status ∈ upgradableStatuses ∧ ∃ m ms, plan = some (m :: ms)) := by
  rw [nextStep.eq_def, hfree]
  cases hst : r.tenant.status <;> cases plan with
  | none => simp [provisionable, upgradableStatuses, eq_comm]
  | some plan => cases plan <;> simp [provisionable, upgradableStatuses, eq_comm]

/-- What a row of the report is made from. -/
theorem rowState_inv {plan : Option Plan} {invalid notes : List String} {step : Next}
    (h : rowState told holders r = .ok (plan, invalid, notes, step)) :
    told.pendingPlan r.pk = .ok plan ∧ nextStep told holders r plan invalid = .ok step := by
  rw [Migrator.rowState] at h
  cases hp : told.pendingPlan r.pk with
  | error e =>
    rw [hp] at h
    cases h
  | ok plan₀ =>
    rw [hp] at h
    simp only [Bind.bind, Except.bind, Pure.pure, Except.pure] at h
    generalize (if plan₀.isSome = true then told.invalidIndexes r.pk else []) = invalid₀ at h
    cases hs : nextStep told holders r plan₀ invalid₀ with
    | error e =>
      rw [hs] at h
      split at h
      · cases hst : pendingState told holders r <;> rw [hst] at h <;> cases h
      · cases h
    | ok step₀ =>
      rw [hs] at h
      split at h
      · cases hst : pendingState told holders r <;> rw [hst] at h <;> cases h
        exact ⟨rfl, hs⟩
      · cases h
        exact ⟨rfl, hs⟩

/-- A held lease never leads to the migrator. -/
theorem leaseNext_ne_migrate {h : LeaseHolder} {key : Pk} {target schema : SchemaName}
    {aliases : List Alias} : leaseNext told h key target aliases ≠ .ok (.migrate schema) := by
  induction aliases with
  | nil => exact fun h => by cases h
  | cons a rest ih =>
    rw [leaseNext]
    split
    · cases told.leaseSession a key with
      | error e => exact fun h => by cases h
      | ok busy =>
        cases busy with
        | none => exact ih
        | some b => exact fun h => by cases h
    · exact fun h => by cases h

/-- Following the report to the migrator leads to a tenant with nothing left to do: where the row of
a tenant that is not a foreign one says to run `migrate_schemas -s`, and that run is not hindered, the
row after it says `-`, if its shard answers again and shows no INVALID index. -/
theorem advice_closes (h : Describes known s rows reach told) (hleases : TellsLeases s told holders)
    (hr : r ∈ rows) {plan : Option Plan}
    {notes : List String} {schema : SchemaName}
    (hadvice : rowState told holders r = .ok (plan, [], notes, .migrate schema))
    (hown : r.tenant.status = .new → r.tenant.previousStatus ≠ .failed →
      ((s.schemas r.dbAlias r.tenant.schemaName).map Content.relations).getD false = false)
    (hdef : r.tenant.shard.isDefault = false) (htx : s.world.tx p = none)
    (hsession : s.world.NoSession p r.dbAlias r.pk) {res : Except Exn Result}
    (hexec : Exec (cutSem (Elsewhere p r.pk r.dbAlias r.tenant.schemaName) known p)
      (migrateTenant r.pk .defaults) s l (.done res) s') (hl : ¬ Hindered l)
    (h' : Describes known s' rows' reach' told') (hleases' : TellsLeases s' told' holders')
    (hr' : r' ∈ rows') (hpk : r'.pk = r.pk) (hreach' : reach' r'.dbAlias = none)
    (hvalid' : told'.invalidIndexes r'.pk = []) :
    ∃ plan' notes', rowState told' holders' r' = .ok (plan', [], notes', .nothing) := by
  obtain ⟨hplan, hnext⟩ := rowState_inv hadvice
  have hfree : holders.lookup r.pk = none := by
    cases hlook : holders.lookup r.pk with
    | none => rfl
    | some held =>
      rw [nextStep.eq_def, hlook] at hnext
      exact absurd hnext leaseNext_ne_migrate
  have hmigrate := ((next_migrate_iff hfree).mp hnext).2
  have hcontent : plan = (s.schemas r.dbAlias r.tenant.schemaName).map fun c => c.unapplied known := by
    have hread := h.plan r hr
    rw [hplan] at hread
    cases hreach : reach r.dbAlias with
    | some e =>
      rw [hreach] at hread
      cases hread
    | none =>
      rw [hreach] at hread
      exact Except.ok.inj hread
  have hresumes : Resumes r.pk r.tenant .defaults s := by
    refine ⟨r.tenant, (h.row r hr).1, ⟨rfl, rfl⟩, rfl, ?_⟩
    rcases hmigrate with hprov | ⟨hup, m, ms, hsome⟩
    · rcases List.mem_cons.mp hprov with hnew | hpending
      · exact .inl ⟨hnew, hown hnew⟩
      · exact .inr (.inl (List.mem_singleton.mp hpending))
    · refine .inr (.inr ⟨?_, ?_⟩)
      · rw [upgradable, decide_eq_true hup, Bool.true_or]
      · rw [hsome] at hcontent
        obtain ⟨c, hc, _⟩ := Option.map_eq_some_iff.mp hcontent.symm
        rw [← Row.dbAlias, hc]
        rfl
  have hunowned : s.world.leaseOwner r.pk = none := hleases.lookup_eq_none_iff.mp hfree
  have hready : s.world.Ready p r.dbAlias r.pk :=
    ⟨World.claimable_of_unowned hunowned, hsession⟩
  have hfree' : holders'.lookup r'.pk = none := by
    rw [hpk]
    exact hleases'.lookup_eq_none_iff.mpr
      (hresumes.exec_lease rfl hdef htx hexec hready hunowned hl)
  obtain ⟨res', rfl, _, row, c, hrow, hsame, hst, hc, hcomplete⟩ :=
    (hresumes.exec rfl hdef htx hexec).2 res rfl hready hl
  have hrow' : r'.tenant = row := by
    have hthere := (h'.row r' hr').1
    rw [hpk, hrow] at hthere
    exact (Option.some.inj hthere).symm
  have hc' : s'.schemas r'.dbAlias r'.tenant.schemaName = some c := by
    rw [Row.dbAlias, hrow', hsame.shard, hsame.schemaName, hc]
  have hst' : r'.tenant.status ∈ upgradableStatuses := by
    rw [hrow', hst]
    rcases hmigrate with hprov | ⟨hup, _⟩
    · rcases List.mem_cons.mp hprov with hnew | hpending
      · rw [hnew]
        exact List.mem_cons_self
      · rw [List.mem_singleton.mp hpending]
        exact List.mem_cons_self
    · rcases List.mem_cons.mp hup with hactive | hoff
      · rw [hactive]
        exact List.mem_cons_self
      · rw [List.mem_singleton.mp hoff]
        exact List.mem_cons_of_mem _ List.mem_cons_self
  obtain ⟨notes', step, hstate, hstep⟩ := h'.rowState hr' hreach' hfree' hvalid'
  rw [hc', Option.map_some, Content.unapplied_eq_nil_iff.mpr hcomplete] at hstate hstep
  rw [(next_nothing_iff hfree').mpr ⟨hst', rfl⟩] at hstep
  obtain rfl := Except.ok.inj hstep
  exact ⟨_, notes', hstate⟩

/-- The schema of the tenant records the first migration only. -/
theorem schemas_acmeBehind :
    acmeBehind.schemas "shard1" "acme" = some ⟨[("core", "0001_initial")], true⟩ := by
  simp [acmeBehind]

/-- The tenant that is behind resumes. -/
theorem resumes_acmeBehind : Resumes 1 acmeActive .defaults acmeBehind :=
  ⟨acmeActive, rfl, ⟨rfl, rfl⟩, rfl, .inr (.inr ⟨rfl, by
    rw [show acmeBehind.schemas acmeActive.shard.dbAlias acmeActive.schemaName = _ from
      schemas_acmeBehind]
    rfl⟩)⟩

/-- The row of an ACTIVE tenant that is behind tells to run the migrator. -/
theorem rowState_acmeBehind : ∃ plan notes,
    rowState (readings coreTwo acmeBehind [⟨1, acmeActive, true⟩]) [] ⟨1, acmeActive, true⟩ =
      .ok (plan, [], notes, .migrate "acme") := by
  have hread : Describes coreTwo acmeBehind [⟨1, acmeActive, true⟩] _ _ := describes_acme rfl
  have hplan : (acmeBehind.schemas "shard1" "acme").map (fun c => c.unapplied coreTwo) =
      some [("core", "0002_price")] := by
    rw [schemas_acmeBehind]
    simp [Content.unapplied, coreTwo]
  have hfree : ([] : Holders).lookup (1 : Pk) = none := rfl
  obtain ⟨notes, step, hstate, hstep⟩ := hread.rowState (List.mem_singleton.mpr rfl) rfl hfree rfl
  have hmigrate : nextStep (readings coreTwo acmeBehind [⟨1, acmeActive, true⟩]) []
      ⟨1, acmeActive, true⟩ _ [] = .ok (.migrate "acme") :=
    (next_migrate_iff hfree).mpr ⟨rfl, .inr ⟨by exact List.mem_cons_self, _, _, hplan⟩⟩
  obtain rfl := Except.ok.inj (hstep.symm.trans hmigrate)
  exact ⟨_, notes, hstate⟩

/-- An ACTIVE tenant that is behind is migrated, and then nothing is left to do. -/
theorem advice_closes_behind : ∃ l res s' row,
    Exec (cutSem (Elsewhere "app-1:4312" 1 "shard1" "acme") coreTwo "app-1:4312")
      (migrateTenant 1 .defaults) acmeBehind l (.done res) s' ∧ s'.world.tenant 1 = some row ∧
      ∃ plan notes, rowState (readings coreTwo s' [⟨1, row, true⟩]) [] ⟨1, row, true⟩ =
        .ok (plan, [], notes, .nothing) := by
  obtain ⟨plan, notes, hadvice⟩ := rowState_acmeBehind
  have hsession : acmeBehind.world.NoSession "app-1:4312" "shard1" 1 := fun i b hb => by cases hb
  have hready : acmeBehind.world.Ready "app-1:4312" "shard1" 1 := ⟨rfl, hsession⟩
  obtain ⟨l, res, s', hexec, hl, _, _, _, row, _, hrow, hsame, _⟩ :=
    resumes_acmeBehind.can_finish coreTwo rfl rfl rfl hready ⟨rfl, rfl, 0, fun _ _ => rfl⟩
  have hafter : Describes coreTwo s' [⟨1, row, true⟩] (fun _ => none)
      (readings coreTwo s' [⟨1, row, true⟩]) := by
    refine describes_readings (fun r hr => ?_) fun pk t ht _ => ?_
    · rw [List.mem_singleton.mp hr]
      refine ⟨hrow, ?_⟩
      rw [hsame.schemaName]
      simp [acmeActive, acme]
    · by_cases hpk : pk = 1
      · exact ⟨_, List.mem_singleton.mpr rfl, hpk.symm⟩
      · rw [exec_alone_tenant hexec hpk] at ht
        have hnone : acmeBehind.world.tenant pk = none := if_neg hpk
        rw [hnone] at ht
        cases ht
  have hrun : Exec (cutSem (Elsewhere "app-1:4312" 1 "shard1" "acme") coreTwo "app-1:4312")
      (migrateTenant 1 .defaults) acmeBehind l (.done res) s' := cutSem_elsewhere hexec
  have hbefore : TellsLeases acmeBehind (readings coreTwo acmeBehind [⟨1, acmeActive, true⟩]) [] :=
    ⟨rfl, fun _ => rfl⟩
  have hleases : TellsLeases s' (readings coreTwo s' [⟨1, row, true⟩]) [] := by
    refine ⟨rfl, fun k => ?_⟩
    have hunowned : s'.world.leaseOwner k = none := by
      by_cases hk : k = 1
      · subst hk
        exact resumes_acmeBehind.exec_lease rfl rfl rfl hrun hready rfl hl
      · rw [World.leaseOwner, exec_alone_lease hexec hk]
        rfl
    rw [World.leaseOwner, Option.map_eq_none_iff] at hunowned
    rw [World.holder, hunowned]
    rfl
  refine ⟨l, res, s', row, hrun, hrow, ?_⟩
  exact advice_closes (r := ⟨1, acmeActive, true⟩) (describes_acme rfl) hbefore
    (List.mem_singleton.mpr rfl) hadvice (fun h => by cases h) rfl rfl hsession hrun hl hafter hleases
    (List.mem_singleton.mpr rfl) rfl rfl rfl

end Advice

end MtShards.Migrator
