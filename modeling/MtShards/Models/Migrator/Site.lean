import MtShards.Models.Migrator.Frames
import MtShards.Models.Migrator.Inventory

/-!
# What the schemas of the shards hold

The state behind the statements of a shard: which schemas exist, which migrations are recorded
in each, and whether it has any relation. `run_migrations` applies what the code knows and the
schema does not record, one migration after another, and may be cut off after any of them; the
plan is what is left. A process works on one tenant while others work elsewhere.
-/

namespace MtShards.Migrator

open MtShards.Core

/-- What a schema holds: the rows of its `django_migrations`, and whether it has any relation. -/
structure Content where
  applied : Plan
  relations : Bool
  deriving DecidableEq, Repr

namespace Content

variable (known : Plan) (c : Content)

/-- A schema that was just created. -/
def empty : Content := ⟨[], false⟩

/-- The migrations of the code that the schema does not record. -/
def unapplied : Plan := known.filter fun m => decide (m ∉ c.applied)

/-- Every migration of the code is recorded. -/
def Complete : Prop := ∀ m ∈ known, m ∈ c.applied

/-- The first `n` migrations of the plan are applied; `rel` when relations have appeared. -/
def advance (n : Nat) (rel : Bool) : Content :=
  ⟨c.applied ++ (c.unapplied known).take n, c.relations || rel⟩

variable {known c}

/-- A schema has nothing left to apply exactly if it is complete. -/
theorem unapplied_eq_nil_iff : c.unapplied known = [] ↔ c.Complete known := by
  simp only [unapplied, List.filter_eq_nil_iff, decide_eq_true_eq, not_not, Complete]

/-- A schema that is advanced by the whole plan is complete. -/
theorem advance_complete {n : Nat} {rel : Bool} (hn : known.length ≤ n) :
    (c.advance known n rel).Complete known := by
  intro m hm
  have hlen : (c.unapplied known).length ≤ n := Nat.le_trans (List.length_filter_le _ _) hn
  rw [advance, List.take_of_length_le hlen, List.mem_append]
  by_cases hmem : m ∈ c.applied
  · exact .inl hmem
  · exact .inr (List.mem_filter.mpr ⟨hm, decide_eq_true hmem⟩)

/-- What was recorded stays recorded. -/
theorem mem_advance {n : Nat} {rel : Bool} {m : String × String} (hm : m ∈ c.applied) :
    m ∈ (c.advance known n rel).applied := List.mem_append_left _ hm

end Content

/-- The schemas of every shard. -/
abbrev Schemas := Alias → SchemaName → Option Content

/-- The schemas after one of them was written. -/
def Schemas.put (sc : Schemas) (a : Alias) (schema : SchemaName) (c : Option Content) : Schemas :=
  Function.update sc a (Function.update (sc a) schema c)

/-- A schema that was put is there. -/
@[simp] theorem Schemas.put_self {sc : Schemas} {a : Alias} {schema : SchemaName}
    {c : Option Content} : sc.put a schema c a schema = c := by
  rw [put, Function.update_self, Function.update_self]

/-- Putting back what is there changes nothing. -/
@[simp] theorem Schemas.put_same {sc : Schemas} {a : Alias} {schema : SchemaName} :
    sc.put a schema (sc a schema) = sc := by
  rw [put, Function.update_eq_self, Function.update_eq_self]

/-- Putting a schema leaves the others alone. -/
theorem Schemas.put_of_ne {sc : Schemas} {a b : Alias} {schema n : SchemaName}
    {c : Option Content} (h : (b, n) ≠ (a, schema)) : sc.put a schema c b n = sc b n := by
  by_cases hb : b = a
  · subst hb
    have hn : n ≠ schema := fun heq => h (by rw [heq])
    rw [put, Function.update_self, Function.update_of_ne hn]
  · rw [put, Function.update_of_ne hb]

/-- The shared state, and what the schemas of the shards hold. -/
structure Site where
  world : World
  schemas : Schemas

/-- `RunOptions.targeted`, of the options passed on. -/
def UpstreamOptions.targeted (o : UpstreamOptions) : Bool :=
  o.fake || o.fakeInitial || o.prune || o.runSyncdb || (o.appLabel.getD "" != "") ||
    (o.migrationName.getD "" != "")

/-- The upstream options of a run are as targeted as it is. -/
theorem RunOptions.upstream_targeted (o : RunOptions) (a : Alias) :
    (o.upstream a).targeted = o.targeted := rfl

/-! ### Shard requests over the schemas -/

/-- What a shard statement leaves, `done` when it returned. Targeted flags may do anything to
their schema. -/
def ShardReq.Leaves (known : Plan) (a : Alias) (done : Bool) (sc sc' : Schemas) : ShardReq → Prop
  | .createSchema schema =>
    sc' = sc.put a schema (some ((sc a schema).getD .empty)) ∨ (done = false ∧ sc' = sc)
  | .runMigrations opts schema =>
    if opts.targeted then ∀ b n, (b, n) ≠ (a, schema) → sc' b n = sc b n
    else ∃ n rel, sc' = sc.put a schema ((sc a schema).map fun c => c.advance known n rel) ∧
      (done = true → known.length ≤ n)
  | _ => sc' = sc

/-- What a request leaves in the schemas. -/
def Req.Leaves (known : Plan) (done : Bool) (sc sc' : Schemas) : Req → Prop
  | .shard a q => q.Leaves known a done sc sc'
  | _ => sc' = sc

/-- What the answer to a request says about the schemas. -/
def Req.Finds (known : Plan) (sc : Schemas) : (op : Req) → Except Exn op.Ans → Prop
  | .shard a (.schemaExists schema), .ok found => found = (sc a schema).isSome
  | .shard a (.schemaHasRelations schema), .ok found =>
    found = ((sc a schema).map Content.relations).getD false
  | .shard a (.migrationPlan schema), .ok plan =>
    ∀ c, sc a schema = some c → plan = c.unapplied known
  | _, _ => True

/-! ### One process at work on one tenant -/

/-- No session labelled `tm:<pk>` is at work on the alias, and `p` is not connected under that
label. -/
def World.NoSession (s : World) (p : Pid) (a : Alias) (pk : Pk) : Prop :=
  ∀ i b, s.backends i = some b → b.dbAlias = a → b.label = some pk →
    b.state = .idle ∧ connected p a b = false

/-- Without a session nothing is running. -/
theorem World.NoSession.not_busy {s : World} {p : Pid} {a : Alias} {pk : Pk}
    (h : s.NoSession p a pk) : ¬ s.Busy p a pk := by
  rintro ⟨i, b, hb, ha, hl, hst, _⟩
  exact hst (h i b hb ha hl).1

/-- A step that leaves the sessions alone begins none. -/
theorem World.NoSession.of_backends {s s' : World} {p : Pid} {a : Alias} {pk : Pk}
    (h : s.NoSession p a pk) (hb : s'.backends = s.backends) : s'.NoSession p a pk := by
  intro i b hi
  rw [hb] at hi
  exact h i b hi

/-- A statement that labels nothing. -/
theorem World.NoSession.of_uses {s s' : World} {p : Pid} {a c : Alias} {pk : Pk} {st : Activity}
    (h : s.NoSession p a pk) (hu : s.Uses p c st id s') : s'.NoSession p a pk := by
  intro i b hi ha hl
  rcases hu with ⟨j, b', hj, hconn, rfl⟩ | ⟨_, j, _, rfl⟩ <;> dsimp only at hi <;> by_cases hij : i = j
  · subst hij
    rw [Function.update_self, Option.some.injEq] at hi
    subst hi
    -- its own connection carries another label, or it is on another alias
    have hc : b'.dbAlias = c := by
      simp only [connected, Bool.and_eq_true, decide_eq_true_eq] at hconn
      exact hconn.2
    have hfree := (h i b' hj ha hl).2
    rw [← show b'.dbAlias = a from ha, hc, hconn] at hfree
    cases hfree
  · rw [Function.update_of_ne hij] at hi
    exact h i b hi ha hl
  · subst hij
    rw [Function.update_self, Option.some.injEq] at hi
    subst hi
    cases hl
  · rw [Function.update_of_ne hij] at hi
    exact h i b hi ha hl

/-- Losing a connection begins no session. -/
theorem World.NoSession.detach {s : World} {p : Pid} {a c : Alias} {pk : Pk}
    (h : s.NoSession p a pk) : (s.detach p c).NoSession p a pk := by
  intro i b hi ha hl
  obtain ⟨b', hb', rfl⟩ := Option.map_eq_some_iff.mp hi
  by_cases hc : connected p c b' = true
  · rw [if_pos hc] at ha hl ⊢
    exact ⟨(h i b' hb' ha hl).1, rfl⟩
  · rw [if_neg hc] at ha hl ⊢
    exact h i b' hb' ha hl

/-- Closing a connection begins no session. -/
theorem World.NoSession.closeConn {s : World} {p : Pid} {a c : Alias} {pk : Pk}
    (h : s.NoSession p a pk) : (s.closeConn p c).NoSession p a pk := by
  intro i b hi ha hl
  obtain ⟨b', hb', hkept⟩ := Option.bind_eq_some_iff.mp hi
  split at hkept
  · split at hkept
    · cases hkept
      exact ⟨(h i b' hb' ha hl).1, rfl⟩
    · cases hkept
  · cases hkept
    exact h i b hb' ha hl

/-- No request puts a session of the tenant to work but the one that labels it. -/
theorem World.NoSession.of_exec {s s' : World} {p : Pid} {a : Alias} {pk : Pk} {op : Req}
    {r : Except Exn op.Ans} (h : s.NoSession p a pk) (hop : ∀ c k, op ≠ .shard c (.openShard k))
    (he : machine.exec p op s r s') : s'.NoSession p a pk := by
  by_cases hshard : op.usesShard = true
  · cases op with
    | shard c q =>
      have hid : Req.relabel q = id := by
        cases q with
        | openShard k => exact absurd rfl (hop c k)
        | _ => rfl
      cases r with
      | ok v =>
        obtain ⟨_, st, _, hu⟩ := he
        rw [hid] at hu
        exact h.of_uses hu
      | error e =>
        rcases he.2 with ⟨st, _, hu⟩ | ⟨_, hw⟩
        · exact h.of_uses hu
        · rw [hw]
          exact h.detach
    | closeShard c =>
      cases r with
      | ok v =>
        rw [he.2.2]
        exact h.closeConn
      | error e =>
        rcases he.2 with hw | ⟨_, hw⟩
        · rw [hw]
          exact h.closeConn
        · rw [hw]
          exact h
    | _ => cases hshard
  · exact h.of_backends (exec_backends (eq_false_of_ne_true hshard) he)

/-- The lease can be taken, and no session of the tenant is at work on its shard. -/
structure World.Ready (s : World) (p : Pid) (a : Alias) (pk : Pk) : Prop where
  claimable : s.claimable pk = true
  noSession : s.NoSession p a pk

/-- Others leave the tenant, its lease and its schema alone, and do not work under its label. -/
structure Elsewhere (p : Pid) (pk : Pk) (a : Alias) (schema : SchemaName) (s m : Site) : Prop where
  tenant : m.world.tenant pk = s.world.tenant pk
  lease : m.world.lease pk = s.world.lease pk
  tx : m.world.tx p = s.world.tx p
  content : m.schemas a schema = s.schemas a schema
  clock : s.world.now ≤ m.world.now
  quiet : s.world.NoSession p a pk → m.world.NoSession p a pk

/-- Others who do nothing are elsewhere. -/
theorem Elsewhere.refl (p : Pid) (pk : Pk) (a : Alias) (schema : SchemaName) (s : Site) :
    Elsewhere p pk a schema s s := ⟨rfl, rfl, rfl, rfl, Nat.le_refl _, id⟩

/-- Time passes, and nothing else. -/
def Ticks (s m : Site) : Prop :=
  ∃ n, s.world.now ≤ n ∧ m = { s with world := { s.world with now := n } }

/-- The passing of time is elsewhere. -/
theorem Ticks.elsewhere {p : Pid} {pk : Pk} {a : Alias} {schema : SchemaName} {s m : Site}
    (h : Ticks s m) : Elsewhere p pk a schema s m := by
  obtain ⟨n, hn, rfl⟩ := h
  exact ⟨rfl, rfl, rfl, rfl, hn, id⟩

/-- The requests of `p` on a site, with what others do before each of them. -/
def siteSem (env : Site → Site → Prop) (known : Plan) (p : Pid) :
    Semantics Req Req.Ans Exn Site := fun op s r s' =>
  ∃ m, env s m ∧ machine.exec p op m.world r s'.world ∧ op.Finds known m.schemas r ∧
    op.Leaves known (returned r) m.schemas s'.schemas

/-- What a request of `p` may change: one tenant with its lease, and one schema. -/
structure OwnStep (pk : Pk) (a : Alias) (schema : SchemaName) (m s' : Site) : Prop where
  tenant : ∀ k, k ≠ pk → s'.world.tenant k = m.world.tenant k
  lease : ∀ k, k ≠ pk → s'.world.lease k = m.world.lease k
  content : ∀ b n, (b, n) ≠ (a, schema) → s'.schemas b n = m.schemas b n

end MtShards.Migrator
