import MtShards.Models.Migrator.AdminForm

/-!
# When the migrator looks at a schema before it works on it

`_provision` asks for the relations of the schema only for a tenant that is NEW and was not
FAILED before. A ghost automaton over the requests of one run: the row it has re-read under
its lease, and whether the schema of that row was found to hold no relations. Without the
look, only a row that is neither FAILED nor fresh is claimed or migrated; and the schema that
is migrated is the one of the row that was re-read.
-/

namespace MtShards.Migrator

open MtShards.Core Program

/-- A tenant whose schema `_provision` looks at: NEW, and not after FAILED. -/
def Fresh (row : Tenant) : Prop := row.status = .new ∧ row.previousStatus ≠ .failed

instance (row : Tenant) : Decidable (Fresh row) :=
  inferInstanceAs (Decidable (row.status = .new ∧ row.previousStatus ≠ .failed))

/-- A tenant that the migrator works on without a look at its schema. -/
def Vetted (row : Tenant) : Prop := row.status ≠ .failed ∧ ¬ Fresh row

/-- Where a run stands with respect to the schema of its tenant. -/
inductive Vetting
  | out
  | leased (k : Pk)
  /-- The row was re-read under the lease. -/
  | read (k : Pk) (row : Tenant)
  /-- Its schema was found to hold no relations. -/
  | cleared (k : Pk) (row : Tenant)
  /-- The work is over, what is left is the clean-up. -/
  | ended (k : Pk)
  deriving DecidableEq, Repr

/-- The request with which the clean-up begins. -/
def Req.ends : Req → Prop
  | .shardIdle _ => True
  | _ => False

/-- Requests that say nothing about a row or a lease, migrate nothing and end nothing. -/
def Req.plain : Req → Prop
  | .load _ | .leaseUpsert _ | .fencedCas _ _ _ | .shard _ (.runMigrations _ _)
  | .shardIdle _ => False
  | _ => True

/-- The requests of a run on the row that it has re-read; `free` lets it claim and migrate. -/
def Req.takes (k : Pk) (row : Tenant) (free : Prop) : Req → Prop
  | .load _ | .leaseUpsert _ | .shardIdle _ => False
  | .fencedCas k' _ w => k' = k ∧ (w.status = .pending → free)
  | .shard a (.runMigrations _ schema) => free ∧ a = row.shard.dbAlias ∧ schema = row.schemaName
  | _ => True

namespace Vetting

/-- The requests a phase permits. -/
def permits : Vetting → Req → Prop
  | out, op => ∀ k expected w, op ≠ .fencedCas k expected w
  | leased k, op => op = .load k ∨ op.ends ∨ op.plain
  | read k row, op => op.ends ∨ op.takes k row (Vetted row)
  | cleared k row, op => op.ends ∨ op.takes k row True
  | ended _, op => op.plain

/-- After an answer to a run without lease. -/
def outNext : (op : Req) → Except Exn op.Ans → Vetting
  | .leaseUpsert k, .ok won => cond won (leased k) out
  | _, _ => out

/-- After an answer to a run that has acquired the lease. -/
def leasedNext (k : Pk) : (op : Req) → Except Exn op.Ans → Vetting
  | .load k', .ok (some row) => if k' = k then read k row else leased k
  | .shardIdle _, _ => ended k
  | _, _ => leased k

/-- After an answer to a run that has re-read the row. -/
def readNext (k : Pk) (row : Tenant) : (op : Req) → Except Exn op.Ans → Vetting
  | .shard a (.schemaHasRelations schema), .ok relations =>
    if relations = false ∧ a = row.shard.dbAlias ∧ schema = row.schemaName then cleared k row
    else read k row
  | .shardIdle _, _ => ended k
  | _, _ => read k row

/-- After an answer to a run that has looked at the schema. -/
def clearedNext (k : Pk) (row : Tenant) : (op : Req) → Except Exn op.Ans → Vetting
  | .shardIdle _, _ => ended k
  | _, _ => cleared k row

/-- The phase after an answer. -/
def next : Vetting → (op : Req) → Except Exn op.Ans → Vetting
  | out => outNext
  | leased k => leasedNext k
  | read k row => readNext k row
  | cleared k row => clearedNext k row
  | ended k => fun _ _ => ended k

end Vetting

/-- No claim and no migration without a look that is due. -/
def vetting : Protocol Req Req.Ans Exn Vetting where
  init := .out
  permits := Vetting.permits
  next := Vetting.next
  mayStop _ := True
  mayStop_init := trivial

/-- The run has re-read the row, and may have looked at its schema. -/
def Vetting.Holds (k : Pk) (row : Tenant) (φ : Vetting) : Prop := φ = .read k row ∨ φ = .cleared k row

section Phases

variable {k pk : Pk} {row : Tenant} {φ : Vetting} {op : Req} {free : Prop}

/-- The clean-up begins with the idle test. -/
theorem Req.ends.shardIdle (h : op.ends) : ∃ a, op = .shardIdle a := by
  cases op with
  | shardIdle a => exact ⟨a, rfl⟩
  | _ => exact h.elim

/-- A plain request is taken under any row. -/
theorem Req.plain.takes (h : op.plain) : op.takes pk row free := by
  cases op with
  | load k => exact h.elim
  | leaseUpsert k => exact h.elim
  | fencedCas k expected w => exact h.elim
  | shardIdle a => exact h.elim
  | shard a q =>
    cases q with
    | runMigrations o schema => exact h.elim
    | _ => trivial
  | _ => trivial

/-- What is taken under one condition is taken under a weaker one. -/
theorem Req.takes.mono {free' : Prop} (h : op.takes pk row free) (hfree : free → free') :
    op.takes pk row free' := by
  cases op with
  | fencedCas k expected w => exact ⟨h.1, fun hw => hfree (h.2 hw)⟩
  | shard a q =>
    cases q with
    | runMigrations o schema => exact ⟨hfree h.1, h.2⟩
    | _ => trivial
  | load k => exact h
  | leaseUpsert k => exact h
  | shardIdle a => exact h
  | _ => trivial

/-- A request that is taken leaves the row held. -/
theorem Vetting.holds_next (h : φ.Holds k row) (hop : op.takes k row free)
    (r : Except Exn op.Ans) : (φ.next op r).Holds k row := by
  rcases h with rfl | rfl
  · simp only [Vetting.next, Vetting.readNext.eq_def]
    split
    · split
      · exact .inr rfl
      · exact .inl rfl
    · exact hop.elim
    · exact .inl rfl
  · simp only [Vetting.next, Vetting.clearedNext.eq_def]
    split
    · exact hop.elim
    · exact .inr rfl

/-- A request that is taken leaves a cleared row cleared. -/
theorem Vetting.cleared_next (hop : op.takes k row free) (r : Except Exn op.Ans) :
    (Vetting.cleared k row).next op r = .cleared k row := by
  simp only [Vetting.next, Vetting.clearedNext.eq_def]
  split
  · exact hop.elim
  · rfl

/-- How a run comes to have the lease. -/
theorem Vetting.next_leased {σ : Type} {x : Taken Req Req.Ans Exn σ}
    (h : φ.next x.op x.answer = .leased k) : φ = .leased k ∨
      (φ = .out ∧ ∃ s s', x = ⟨.leaseUpsert k, .ok true, s, s'⟩) := by
  obtain ⟨op, r, s, s'⟩ := x
  cases φ with
  | out =>
    simp only [Vetting.next, Vetting.outNext.eq_def] at h
    split at h
    · rename_i k' won
      cases won with
      | true =>
        cases h
        exact .inr ⟨rfl, s, s', rfl⟩
      | false => cases h
    · cases h
  | leased k' =>
    simp only [Vetting.next, Vetting.leasedNext.eq_def] at h
    split at h
    · split at h
      · cases h
      · exact .inl h
    · cases h
    · exact .inl h
  | read k' row =>
    simp only [Vetting.next, Vetting.readNext.eq_def] at h
    split at h
    · split at h <;> cases h
    · cases h
    · cases h
  | cleared k' row =>
    simp only [Vetting.next, Vetting.clearedNext.eq_def] at h
    split at h <;> cases h
  | ended k' => cases h

/-- How a run comes to have the row. -/
theorem Vetting.next_holds {σ : Type} {x : Taken Req Req.Ans Exn σ}
    (h : (φ.next x.op x.answer).Holds k row) : (φ.Holds k row ∧ ¬ x.op.ends) ∨
      (φ = .leased k ∧ ∃ s s', x = ⟨.load k, .ok (some row), s, s'⟩) := by
  obtain ⟨op, r, s, s'⟩ := x
  cases φ with
  | out =>
    simp only [Vetting.next, Vetting.outNext.eq_def] at h
    split at h
    · rename_i k' won
      cases won <;> rcases h with h | h <;> cases h
    · rcases h with h | h <;> cases h
  | leased k' =>
    simp only [Vetting.next, Vetting.leasedNext.eq_def] at h
    split at h
    · split at h
      · rename_i hk
        subst hk
        rcases h with h | h
        · cases h
          exact .inr ⟨rfl, s, s', rfl⟩
        · cases h
      · rcases h with h | h <;> cases h
    · rcases h with h | h <;> cases h
    · rcases h with h | h <;> cases h
  | read k' row' =>
    simp only [Vetting.next, Vetting.readNext.eq_def] at h
    split at h
    · split at h
      · rcases h with h | h
        · cases h
        · cases h
          exact .inl ⟨.inl rfl, id⟩
      · rcases h with h | h
        · exact .inl ⟨.inl h, id⟩
        · cases h
    · rcases h with h | h <;> cases h
    · rename_i hother
      refine .inl ⟨h, fun hends => ?_⟩
      obtain ⟨a, rfl⟩ := hends.shardIdle
      exact hother a r rfl HEq.rfl
  | cleared k' row' =>
    simp only [Vetting.next, Vetting.clearedNext.eq_def] at h
    split at h
    · rcases h with h | h <;> cases h
    · rename_i hother
      refine .inl ⟨h, fun hends => ?_⟩
      obtain ⟨a, rfl⟩ := hends.shardIdle
      exact hother a r rfl HEq.rfl
  | ended k' => rcases h with h | h <;> cases h

/-- How a run comes to have looked at the schema. -/
theorem Vetting.next_cleared {σ : Type} {x : Taken Req Req.Ans Exn σ}
    (h : φ.next x.op x.answer = .cleared k row) : φ = .cleared k row ∨
      (φ = .read k row ∧ ∃ s s', x =
        ⟨.shard row.shard.dbAlias (.schemaHasRelations row.schemaName), .ok false, s, s'⟩) := by
  obtain ⟨op, r, s, s'⟩ := x
  cases φ with
  | out =>
    simp only [Vetting.next, Vetting.outNext.eq_def] at h
    split at h
    · rename_i k' won
      cases won <;> cases h
    · cases h
  | leased k' =>
    simp only [Vetting.next, Vetting.leasedNext.eq_def] at h
    split at h
    · split at h <;> cases h
    · cases h
    · cases h
  | read k' row' =>
    simp only [Vetting.next, Vetting.readNext.eq_def] at h
    split at h
    · split at h
      · rename_i hlook
        obtain ⟨rfl, rfl, rfl⟩ := hlook
        cases h
        exact .inr ⟨rfl, s, s', rfl⟩
      · cases h
    · cases h
    · cases h
  | cleared k' row' =>
    simp only [Vetting.next, Vetting.clearedNext.eq_def] at h
    split at h
    · cases h
    · exact .inl h
  | ended k' => cases h

/-- A lease is acquired by a run that has none. -/
theorem Vetting.of_permits_upsert (h : φ.permits (.leaseUpsert k)) : φ = .out := by
  cases φ with
  | out => rfl
  | leased k' => rcases h with h | h | h <;> cases h
  | read k' row => rcases h with h | h <;> cases h
  | cleared k' row => rcases h with h | h <;> cases h
  | ended k' => cases h

/-- What a run may do with the row it has re-read. -/
theorem vetting_of_takes (hφ : φ.Holds k row) (hfree : free → Vetted row ∨ φ = .cleared k row)
    (h : op.takes k row free) : vetting.permits φ op ∧ ∀ r, (vetting.next φ op r).Holds k row := by
  refine ⟨?_, Vetting.holds_next hφ h⟩
  rcases hφ with rfl | rfl
  · refine .inr (h.mono fun hf => ?_)
    rcases hfree hf with hvetted | hcleared
    · exact hvetted
    · cases hcleared
  · exact .inr (h.mono fun _ => trivial)

end Phases

/-! ### Which requests each part issues -/

section Takes

variable {pk : Pk} {row : Tenant} {opts : RunOptions} {c : Target} {free : Prop}

/-- Reading the plan makes only plain requests. -/
theorem pendingPlan_plain (row : Tenant) : (pendingPlan row).Only Req.plain := by
  refine Only.bind (only_call trivial) fun found => ?_
  cases found with
  | true =>
    refine Only.tryFinally ?_ (only_call trivial)
    exact Only.bind (only_call trivial) fun plan => trivial
  | false => trivial

/-- Reporting a failure makes only plain requests. -/
theorem failure_plain (e : Exn) (a : Alias) (schema : SchemaName) (c : Target) :
    (failure e a schema c).Only Req.plain := by
  refine Only.bind (only_call trivial) fun _ => Only.bind ?_ fun indexes => trivial
  exact only_guarded (only_call trivial) (fun _ => trivial) fun _ => trivial

/-- Looking into a lost status write makes only plain requests. -/
theorem casLost_plain : (casLost pk c).Only Req.plain := by
  refine Only.bind (only_call trivial) fun found => ?_
  match found with
  | none => trivial
  | some (status, mine) =>
    dsimp only
    split <;> trivial

/-- What the clean-up does after it has asked whether the shard is idle. -/
theorem leasedExit_rest_plain (a : Alias) (release : Bool) :
    (closeShard a >>= fun _ => if release then
      catching (leaseRelease pk >>= fun _ => (Pure.pure () : Prog Unit)) fun _ => Pure.pure ()
      else Pure.pure ()).Only Req.plain := by
  refine Only.bind (only_call trivial) fun _ => ?_
  split
  · exact only_guarded (Only.bind (only_call trivial) fun _ => trivial) (fun _ => trivial)
      fun _ => trivial
  · trivial

/-- Plain requests are taken under any row. -/
theorem takes_of_plain {α : Type} {x : Prog α} (h : x.Only Req.plain) :
    x.Only (Req.takes pk row free) := h.mono fun _ => Req.plain.takes

/-- The handler of `_provision` writes FAILED at most. -/
theorem provisionFailed_takes (side : Side) (claimed : Bool) (e : Exn) :
    (provisionFailed pk row c side claimed e).Only (Req.takes pk row free) := by
  rw [provisionFailed]
  split
  · trivial
  · refine (takes_of_plain (failure_plain e _ _ c)).bind fun res => ?_
    split
    · refine only_guarded ?_ (fun _ => trivial) fun e2 => ?_
      · refine Only.bind (only_call ⟨rfl, fun h => by cases h⟩) fun won => ?_
        split
        · exact Only.bind (only_call trivial) fun _ => trivial
        · exact (takes_of_plain casLost_plain).bind fun lost => trivial
      · split <;> trivial
    · trivial

private theorem provisionSchema_takes : (provisionSchema pk row opts).Only (Req.takes pk row True) := by
  refine Only.bind (only_call trivial) fun _ => Only.bind (only_call trivial) fun _ => ?_
  refine Only.bind (only_call ⟨trivial, rfl, rfl⟩) fun _ => ?_
  refine (takes_of_plain (pendingPlan_plain row)).bind fun plan => ?_
  match plan with
  | none => trivial
  | some [] => trivial
  | some (_ :: _) => trivial

private theorem provisionClaimed_takes :
    (provisionClaimed pk row opts c).Only (Req.takes pk row True) := by
  refine only_guarded provisionSchema_takes (fun _ => ?_) (provisionFailed_takes _ _)
  refine only_guarded (only_call trivial) (fun older => ?_) (provisionFailed_takes _ _)
  split
  · trivial
  · refine only_guarded (only_call ⟨rfl, nofun⟩) (fun won => ?_) (provisionFailed_takes _ _)
    split
    · refine only_guarded (only_call trivial) (fun _ => ?_) (provisionFailed_takes _ _)
      split <;> trivial
    · exact only_guarded (takes_of_plain casLost_plain) (fun _ => trivial) (provisionFailed_takes _ _)

/-- From its claim on, a provisioning makes only requests that are taken under its row. -/
theorem provisionClaim_takes : (provisionClaim pk row opts c).Only (Req.takes pk row True) := by
  refine only_guarded (only_call ⟨rfl, fun _ => trivial⟩) (fun won => ?_)
    (provisionFailed_takes _ _)
  split
  · exact provisionClaimed_takes
  · exact only_guarded (takes_of_plain casLost_plain) (fun _ => trivial) (provisionFailed_takes _ _)

/-- The branch of a foreign schema writes FAILED at most. -/
theorem schemaExists_takes {msg : String} {res : Result} :
    (guarded (provisionFailed pk row c .default false) (fencedCas pk [.new] ⟨.failed, .new, msg⟩)
      fun won => if won then
        guarded (provisionFailed pk row c .default false) (forget pk) fun _ => Pure.pure res
      else guarded (provisionFailed pk row c .default false) (casLost pk c) Pure.pure).Only
      (Req.takes pk row free) := by
  refine only_guarded (only_call ⟨rfl, nofun⟩) (fun won => ?_) (provisionFailed_takes _ _)
  split
  · exact only_guarded (only_call trivial) (fun _ => trivial) (provisionFailed_takes _ _)
  · exact only_guarded (takes_of_plain casLost_plain) (fun _ => trivial) (provisionFailed_takes _ _)

private theorem provision_takes : (provision pk row opts c).Only (Req.takes pk row True) := by
  rw [provision]
  split
  · trivial
  · refine only_guarded (only_call trivial) (fun older => ?_) (provisionFailed_takes _ _)
    split
    · trivial
    · refine only_guarded ?_ (fun foreign => ?_) (provisionFailed_takes _ _)
      · split
        · exact only_call trivial
        · trivial
      · split
        · exact schemaExists_takes
        · exact provisionClaim_takes

/-- The handler of `_upgrade` makes only requests that are taken under its row. -/
theorem upgradeFailed_takes (side : Side) (e : Exn) :
    (upgradeFailed row c side e).Only (Req.takes pk row free) := by
  rw [upgradeFailed]
  split
  · trivial
  · exact takes_of_plain (failure_plain e _ _ c)

private theorem upgradeMissing_takes : (upgradeMissing pk row c).Only (Req.takes pk row free) := by
  rw [upgradeMissing]
  split
  · trivial
  · refine only_guarded (only_call ⟨rfl, fun h => by cases h⟩) (fun won => ?_)
      (upgradeFailed_takes _)
    split
    · exact only_guarded (only_call trivial) (fun _ => trivial) (upgradeFailed_takes _)
    · exact only_guarded (takes_of_plain casLost_plain) (fun _ => trivial) (upgradeFailed_takes _)

private theorem upgrade_takes : (upgrade pk row opts c).Only (Req.takes pk row True) := by
  refine only_guarded (takes_of_plain (pendingPlan_plain row)) (fun plan => ?_) (upgradeFailed_takes _)
  cases plan with
  | none => exact upgradeMissing_takes
  | some plan =>
    dsimp only
    split
    · trivial
    · refine only_guarded ?_ (fun _ => ?_) (upgradeFailed_takes _)
      · exact Only.bind (only_call trivial) fun _ => only_call ⟨trivial, rfl, rfl⟩
      · split
        · exact only_guarded (takes_of_plain (pendingPlan_plain row)) (fun _ => trivial)
            (upgradeFailed_takes _)
        · trivial

end Takes

/-! ### `migrate_tenant` keeps to it -/

section Follows

variable {pk : Pk} {row : Tenant} {opts : RunOptions} {c : Target} {φ : Vetting} {α : Type}

/-- The requests of programs that take no lease and no fenced status write. -/
def Req.leaseless : Req → Prop
  | .leaseUpsert _ | .fencedCas _ _ _ => False
  | _ => True

/-- Without them a run has no lease. -/
theorem follows_out {x : Prog α} (hx : x.Only Req.leaseless) :
    x.Follows vetting .out fun φ _ => φ = .out := by
  refine hx.follows fun op hop => ⟨fun k expected w => ?_, fun r => ?_⟩
  · rintro rfl
    exact hop
  · cases op with
    | leaseUpsert k => exact hop.elim
    | _ => rfl

private theorem looks_leaseless {x : Prog α} (hx : x.Only Req.looks) : x.Only Req.leaseless := by
  refine hx.mono fun op hop => ?_
  cases op with
  | leaseUpsert k => exact hop
  | fencedCas k expected w => exact hop
  | _ => trivial

/-- What a run with the row does, when it may claim and migrate, or does neither. -/
theorem follows_holds {x : Prog α} {free : Prop} (hφ : φ.Holds pk row)
    (hfree : free → Vetted row) (hx : x.Only (Req.takes pk row free)) :
    x.Follows vetting φ fun φ' _ => φ'.Holds pk row := by
  have hfollows := hx.within.follows (S := Vetting.Holds pk row)
    (fun φ op hφ hop => vetting_of_takes hφ (fun hf => .inl (hfree hf)) hop) hφ
  exact hfollows.mono fun φ' r hr => hr.1

/-- After the look a run may claim and migrate. -/
theorem follows_cleared {x : Prog α} (hx : x.Only (Req.takes pk row True)) :
    x.Follows vetting (.cleared pk row) fun φ' _ => φ'.Holds pk row := by
  have hfollows := hx.within.follows (S := fun φ => φ = .cleared pk row)
    (fun φ op hφ hop => ⟨(vetting_of_takes (.inr hφ) (fun _ => .inr hφ) hop).1,
      fun r => hφ ▸ Vetting.cleared_next hop r⟩) rfl
  exact hfollows.mono fun φ' r hr => .inr hr.1

private theorem provision_vetting (hφ : φ.Holds pk row) (hrow : row.status ≠ .failed) :
    (provision pk row opts c).Follows vetting φ fun φ' _ => φ'.Holds pk row := by
  by_cases hfresh : ¬ Fresh row
  · exact follows_holds hφ (fun _ => ⟨hrow, hfresh⟩) provision_takes
  replace hfresh : Fresh row := Decidable.of_not_not hfresh
  have hfailed : ∀ φ side e, Vetting.Holds pk row φ → (provisionFailed pk row c side false e).Follows
      vetting φ fun φ' _ => φ'.Holds pk row :=
    fun φ side e hφ => follows_holds hφ False.elim (provisionFailed_takes side false e)
  rw [provision]
  split
  · exact hφ
  have holder : Req.takes pk row False .codeOlderThanDb := trivial
  refine follows_guarded ⟨(vetting_of_takes hφ False.elim holder).1, fun older => ?_⟩
  have hφ₁ : (vetting.next φ .codeOlderThanDb older).Holds pk row :=
    Vetting.holds_next hφ holder older
  rcases older with e | _ | _
  · exact ⟨fun _ => hφ₁, fun _ => hfailed _ _ e hφ₁⟩
  swap
  · exact hφ₁
  have hdue : row.status = .new ∧ row.previousStatus ≠ .failed := hfresh
  rw [follows_done, onOutcome_ok, if_neg Bool.false_ne_true, if_pos hdue]
  generalize vetting.next φ .codeOlderThanDb (.ok false) = φ₁ at hφ₁
  have hlook : Req.takes pk row False
      (.shard row.shard.dbAlias (.schemaHasRelations row.schemaName)) := trivial
  refine follows_guarded ⟨(vetting_of_takes hφ₁ False.elim hlook).1, fun foreign => ?_⟩
  have hφ₂ : (vetting.next φ₁ (.shard row.shard.dbAlias (.schemaHasRelations row.schemaName))
      foreign).Holds pk row := Vetting.holds_next hφ₁ hlook foreign
  rcases foreign with e | _ | _
  · exact ⟨fun _ => hφ₂, fun _ => hfailed _ _ e hφ₂⟩
  · have hcleared : vetting.next φ₁ (.shard row.shard.dbAlias (.schemaHasRelations row.schemaName))
        (.ok false) = .cleared pk row := by
      rcases hφ₁ with rfl | rfl
      · exact if_pos ⟨rfl, rfl, rfl⟩
      · rfl
    rw [hcleared]
    exact follows_cleared provisionClaim_takes
  · exact follows_holds hφ₂ False.elim schemaExists_takes

private theorem workOn_vetting : (workOn pk opts c row).Follows vetting (.read pk row)
    fun φ' _ => φ'.Holds pk row := by
  rw [workOn]
  split
  · exact .inl rfl
  · rename_i hgate
    have hrow : row.status ≠ .failed := by
      intro hfailed
      rw [gate, if_pos hfailed] at hgate
      cases hgate
    split
    · exact provision_vetting (.inl rfl) hrow
    · rename_i hstatus
      split
      · refine follows_holds (.inl rfl) (fun _ => ⟨hrow, fun hfresh => hstatus ?_⟩) upgrade_takes
        rw [hfresh.1]
        simp [provisionable]
      · exact .inl rfl

/-- The run has acquired the lease of the tenant. -/
def Vetting.Of (pk : Pk) (φ : Vetting) : Prop :=
  φ = .leased pk ∨ (∃ row, φ.Holds pk row) ∨ φ = .ended pk

/-- A vetting of a tenant stays one of it. -/
theorem Vetting.Of.next (hφ : φ.Of pk) {op : Req} (r : Except Exn op.Ans) :
    (φ.next op r).Of pk := by
  rcases hφ with rfl | ⟨row, rfl | rfl⟩ | rfl
  · simp only [Vetting.next, Vetting.leasedNext.eq_def]
    split
    · rename_i k' row
      split
      · exact .inr (.inl ⟨row, .inl rfl⟩)
      · exact .inl rfl
    · exact .inr (.inr rfl)
    · exact .inl rfl
  · simp only [Vetting.next, Vetting.readNext.eq_def]
    split
    · split
      · exact .inr (.inl ⟨row, .inr rfl⟩)
      · exact .inr (.inl ⟨row, .inl rfl⟩)
    · exact .inr (.inr rfl)
    · exact .inr (.inl ⟨row, .inl rfl⟩)
  · simp only [Vetting.next, Vetting.clearedNext.eq_def]
    split
    · exact .inr (.inr rfl)
    · exact .inr (.inl ⟨row, .inr rfl⟩)
  · exact .inr (.inr rfl)

/-- A run may come to its clean-up from everywhere, and nothing else follows. -/
theorem Vetting.ends_over (hφ : φ = .leased pk ∨ ∃ row, φ.Holds pk row) (a : Alias) :
    vetting.permits φ (.shardIdle a) ∧ ∀ r, vetting.next φ (.shardIdle a) r = .ended pk := by
  rcases hφ with rfl | ⟨row, rfl | rfl⟩
  · exact ⟨.inr (.inl trivial), fun _ => rfl⟩
  · exact ⟨.inl trivial, fun _ => rfl⟩
  · exact ⟨.inl trivial, fun _ => rfl⟩

private theorem leasedBody_vetting : (leasedBody pk opts c).Follows vetting (.leased pk)
    fun φ' _ => φ' = .leased pk ∨ ∃ row, φ'.Holds pk row := by
  refine follows_guarded ⟨.inl rfl, fun found => ?_⟩
  match found with
  | .error e =>
    refine ⟨fun _ => .inl rfl, fun _ => ?_⟩
    split <;> exact .inl rfl
  | .ok none => exact .inl rfl
  | .ok (some row) =>
    have hread : vetting.next (.leased pk) (.load pk) (.ok (some row)) = .read pk row := if_pos rfl
    rw [hread]
    exact workOn_vetting.mono fun φ' r hr => .inr ⟨row, hr⟩

private theorem follows_over {x : Prog α} (hx : x.Only Req.plain) :
    x.Follows vetting (.ended pk) fun φ' _ => φ' = .ended pk :=
  hx.follows fun _ hop => ⟨hop, fun _ => rfl⟩

private theorem underLease_vetting : (underLease pk opts c).Follows vetting (.leased pk)
    fun φ' _ => φ' = .ended pk := by
  rw [underLease, follows_bind, follows_attempt]
  refine leasedBody_vetting.mono fun φ' r hr => follows_bind.mpr ?_
  obtain ⟨hpermits, hnext⟩ := Vetting.ends_over hr c.dbAlias
  refine ⟨hpermits, fun idle => ?_⟩
  rw [hnext]
  cases idle with
  | error e => rfl
  | ok idle =>
    refine (follows_over (leasedExit_rest_plain c.dbAlias (returned r || idle))).mono ?_
    intro φ'' u hu
    cases u with
    | ok _ => exact hu
    | error e => exact hu

/-- Where `lease_acquire` stops: it has acquired the lease exactly when it returns no reason. -/
def Acquired (pk : Pk) (φ : Vetting) (r : Except Exn (Option String)) : Prop :=
  (φ = .out ∧ r ≠ .ok none) ∨ (φ = .leased pk ∧ r = .ok none)

private theorem leaseAcquire_vetting {a : Alias} :
    (leaseAcquire pk a).Follows vetting .out (Acquired pk) := by
  have hlook : ∀ (msg : Option LeaseHolder → String), (leaseHolder pk >>= fun h =>
      (Pure.pure (some (msg h)) : Prog (Option String))).Follows vetting .out (Acquired pk) := by
    refine fun msg => ⟨nofun, fun h => ?_⟩
    cases h <;> exact .inl ⟨rfl, nofun⟩
  refine follows_bind.mpr (follows_guarded ⟨nofun, fun busy => ?_⟩)
  match busy with
  | .error e =>
    refine ⟨fun _ => .inl ⟨rfl, nofun⟩, fun _ => ?_⟩
    split <;> exact .inl ⟨rfl, nofun⟩
  | .ok (some busy) => exact hlook fun h => busyMsg h busy
  | .ok none =>
    refine ⟨nofun, fun won => ?_⟩
    match won with
    | .error e => exact .inl ⟨rfl, nofun⟩
    | .ok true => exact .inr ⟨rfl, rfl⟩
    | .ok false => exact hlook lockedMsg

private theorem withLease_vetting : (withLease pk opts c).Follows vetting .out fun _ _ => True := by
  refine follows_guarded (leaseAcquire_vetting.mono fun φ' r hr => ?_)
  rcases hr with ⟨rfl, hr⟩ | ⟨rfl, rfl⟩
  · match r with
    | .error e =>
      refine ⟨fun _ => trivial, fun _ => ?_⟩
      split
      · trivial
      · split <;> trivial
    | .ok (some msg) => trivial
    | .ok none => exact absurd rfl hr
  · exact underLease_vetting.mono fun _ _ _ => trivial

private theorem migrateLoaded_vetting (row : Tenant) :
    (migrateLoaded pk opts row).Follows vetting .out fun _ _ => True := by
  rw [migrateLoaded]
  split
  · trivial
  · split
    · trivial
    · have hlooks := follows_out (looks_leaseless
        (noopShortcut_looks row opts ⟨row.schemaName, row.shard.dbAlias⟩))
      refine follows_bind.mpr (hlooks.mono fun φ r hφ => ?_)
      obtain rfl := hφ
      rcases r with e | _ | res
      · trivial
      · exact withLease_vetting
      · trivial

private theorem migrateTenant_vetting (pk : Pk) (opts : RunOptions) :
    (migrateTenant pk opts).Follows vetting .out fun _ _ => True := by
  refine follows_guarded ⟨nofun, fun found => ?_⟩
  match found with
  | .error e =>
    refine ⟨fun _ => trivial, fun _ => ?_⟩
    split <;> trivial
  | .ok none => trivial
  | .ok (some row) => exact migrateLoaded_vetting row

end Follows

/-! ### The other programs -/

section Others

variable {pk k : Pk} {row : Tenant} {opts : RunOptions}

/-- A program without a lease follows the vetting. -/
theorem leaseless_vetting {α : Type} {x : Prog α} (hx : x.Only Req.leaseless) :
    x.Follows vetting .out fun _ _ => True := (follows_out hx).mono fun _ _ _ => trivial

/-- The console, the admin and the serializer follow the vetting. -/
theorem edits_vetting {α : Type} {x : Prog α} (hx : x.Only Req.edits) :
    x.Follows vetting .out fun _ _ => True := by
  refine leaseless_vetting (hx.mono fun op hop => ?_)
  cases op with
  | leaseUpsert k => exact hop
  | fencedCas k expected w => exact hop
  | _ => trivial

private theorem releaseCommand_leaseless (label : String) (aliases : List Alias) (force : Bool) :
    (releaseCommand k label aliases force).Only Req.leaseless :=
  releaseCommand_only label aliases force trivial (fun _ _ => trivial) fun _ => trivial

/-- Every program of the system claims and migrates only after the look that is due. -/
theorem system_vetting : AllFollow vetting (fun _ : Pid => Starts true) := by
  intro p prog h
  cases h with
  | migrate pk opts _ => exact (migrateTenant_vetting pk opts).void
  | activate pk => exact (edits_vetting (transition_edits _ _ _ _)).void
  | deactivate pk => exact (edits_vetting (transition_edits _ _ _ _)).void
  | adminChange sub => exact (edits_vetting (adminChange_edits sub)).void
  | serializerUpdate pk ch => exact edits_vetting (serializerUpdate_edits pk ch)
  | releaseCommand k label aliases force =>
    exact (leaseless_vetting (releaseCommand_leaseless label aliases force)).void

end Others

end MtShards.Migrator
