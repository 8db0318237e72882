import MtShards.Models.Resolver.ResolvePath

/-!
# A reconcile against a status change

A reconcile forces the rows it has read on their keys, tombstone or not. A status change bumps no
counter, so nothing makes the reconcile read again: when it has read a row before the commit and
writes it after the tombstone, the outdated snapshot stays, and that of an ACTIVE tenant does not
expire. Otherwise no positive snapshot carries an outdated status.
-/

namespace MtShards.Resolver

open MtShards.Core

/-- Status writers and reconciles. -/
def statusRace (k : Kind) : Prop := k = .status ∨ k = .reconcile

variable {cfg : Config} {s₀ : World} {t : List Event} {c : Core.Config Pid Req Req.Ans Exn World}

/-- In every run in which each snapshot is forced on a key while it is the truth or before the
tombstone of the change that outdates it, a positive snapshot carries the committed status of
its tenant once no status change awaits its invalidation. -/
theorem no_outdated_status_snapshot (h₀ : s₀.Coherent) (h : SysRun cfg statusRace s₀ t c)
    (hforced : Throughout (ForcedInTime cfg statusRace) t)
    (hdue : ∀ k, ¬ Due cfg statusRace t c.shared k) {k : Key} {snapshot tenant : TenantSnapshot}
    (hk : c.shared.snap k = some (.positive snapshot)) (ht : tenant ∈ c.shared.db.tenants)
    (hid : tenant.id = snapshot.id) : snapshot.status = tenant.status := by
  have hnofill : ¬ statusRace .fill := by
    rintro (h | h) <;> cases h
  have hnoedit : ¬ (statusRace .delete ∨ statusRace .repoint) := by
    rintro ((h | h) | (h | h)) <;> cases h
  have hcare : Throughout (Careful cfg statusRace) t := hforced.mono fun t e he =>
    ⟨fun hf => absurd hf hnofill, fun hd => absurd hd hnoedit, fun _ => he⟩
  have hcoh := World.coherent_of_view
    (coherent_of_run h₀ (fun hf => absurd hf hnofill) h hcare) hdue
  have htruth := (World.coherent_iff.1 hcoh k).1 snapshot hk
  have hmem : snapshot ∈ c.shared.db.tenants := by
    cases k with
    | host x =>
      obtain ⟨_, _, _, hmem, _⟩ := Database.rowOf_eq_some.1 htruth
      exact hmem
    | schema n => exact (Database.bySchema_eq_some.1 htruth).1
  rw [List.inj_on_of_nodup_map c.shared.db.tenant_id ht hmem hid]

/-! ### The status of one tenant -/

/-- The WARM stage is on. -/
def warmPage : Config := { onePage with warmEnabled := true }

/-- The tenant after its deactivation. -/
def acmeOff : TenantSnapshot := { acme with status := .deactivated }

/-- A tenant is deactivated, and a reconcile then forces its row over the tombstones. -/
theorem no_outdated_status_snapshot_reconciled : ∃ t c, SysRun warmPage statusRace acmeWorld t c ∧
    c.shared.snap (.host "old") = some (.positive acmeOff) ∧
      ∀ k snapshot, c.shared.snap k = some (.positive snapshot) → snapshot.id = 1 →
        snapshot.status = .deactivated := by
  have r0 : SysRun warmPage statusRace acmeWorld [] (.idle acmeWorld) := .nil
  have r1 := r0.start 2 ⟨.status, .inl rfl, .status 1 [.active] .deactivated⟩ rfl
  have r2 := r1.answer 2 (.loadTenant 1) (.ok (some acme)) ⟨rfl, trivial, rfl⟩ rfl
  have r3 := r2.answer 2 (.updateStatus 1 [.active] .deactivated) (.ok true) ⟨rfl, trivial, rfl⟩ rfl
  have r4 := r3.answer 2 (.readHosts 1) (.ok ["old"]) ⟨rfl, trivial, rfl⟩ rfl
  have r5 := r4.answer 2 (.set (.host "old") .tombstone (some 5)) (.ok ())
    ⟨trivial, trivial, rfl⟩ rfl
  have r6 := r5.answer 2 (.set (.schema "acme") .tombstone (some 5)) (.ok ())
    ⟨trivial, trivial, rfl⟩ rfl
  have r7 := r6.start 1 ⟨.reconcile, .inr rfl, .command⟩ rfl
  have r8 := r7.answer 1 .ping (.ok true) ⟨rfl, trivial, rfl⟩ rfl
  have r9 := r8.answer 1 (.acquire 120) (.ok true) ⟨rfl, trivial, rfl⟩ rfl
  have r10 := r9.answer 1 .ping (.ok true) ⟨rfl, trivial, rfl⟩ rfl
  have r11 := r10.answer 1 .getDirty (.ok none) ⟨rfl, trivial, rfl⟩ rfl
  have r12 := r11.answer 1 .deleteNew (.ok ()) ⟨trivial, trivial, rfl⟩ rfl
  have r13 := r12.answer 1 .readDomains (.ok [⟨"old", acmeOff⟩]) ⟨.refl _, trivial, rfl⟩ rfl
  have r14 := r13.answer 1 (.saddNew ["old"]) (.ok ()) ⟨trivial, trivial, rfl⟩ rfl
  have r15 := r14.answer 1 (.set (.host "old") (.positive acmeOff) (some 3600)) (.ok ())
    ⟨trivial, trivial, rfl⟩ rfl
  have r16 := r15.answer 1 (.set (.schema "acme") (.positive acmeOff) (some 3600)) (.ok ())
    ⟨trivial, trivial, rfl⟩ rfl
  have r17 := r16.answer 1 .existsNew (.ok true) ⟨rfl, trivial, rfl⟩ rfl
  have r18 := r17.answer 1 .rename (.ok ())
    ⟨trivial, (by decide : (∅ ∪ ["old"].toFinset : Finset Host) ≠ ∅), rfl⟩ rfl
  have r19 := r18.answer 1 .getDirty (.ok none) ⟨rfl, trivial, rfl⟩ rfl
  have r20 := r19.answer 1 .readSchemas (.ok ["acme"]) ⟨rfl, trivial, rfl⟩ rfl
  have r21 := r20.answer 1 (.scanHosts 0) (.ok ["old"])
    ⟨scanHosts_of_run [.schema "acme", .host "old", .schema "acme", .host "old"]
        r20 (fun _ => rfl) rfl (by simp), trivial, rfl⟩ rfl
  have r22 := r21.answer 1 (.scanSchemas 0) (.ok ["acme"])
    ⟨scanSchemas_of_run [.schema "acme", .host "old", .schema "acme", .host "old"]
        r21 (fun _ => rfl) rfl (by simp), trivial, rfl⟩ rfl
  have r23 := r22.answer 1 .release (.ok true) ⟨rfl, trivial, rfl⟩ rfl
  have other {t : List Event} {e : Event} (h : isForced e.label = false) :
    ForcedInTime warmPage statusRace t e := .of_not_forced h
  refine ⟨_, _, r23, rfl, fun k snapshot hk hid => ?_⟩
  refine no_outdated_status_snapshot acmeWorld_coherent r23 ?_ (not_due_of_done r23 ?_) hk
    (show acmeOff ∈ _ from List.mem_cons_self) hid.symm
  · exact ⟨other rfl, other rfl, other rfl, other rfl, other rfl, other rfl, other rfl,
      .of_truth rfl, .of_truth rfl, other rfl, other rfl, other rfl, other rfl, other rfl, other rfl,
      other rfl, other rfl, other rfl, other rfl, other rfl, other rfl, other rfl, other rfl, trivial⟩
  · exact r23.all_done [1, 2] rfl ⟨⟨_, rfl⟩, _, rfl⟩

/-- A reconcile has read the row of an active tenant. The tenant is deactivated and its keys get
their tombstones; then the reconcile writes what it has read over them. Both end, the tombstones
would be long gone, and the snapshots still say ACTIVE, without expiry. -/
theorem outdated_status_over_tombstone : acmeWorld.Coherent ∧
    ∃ t c, SysRun warmPage statusRace acmeWorld t c ∧ (∀ p, ∃ r, c.proc p = some (.done r)) ∧
      (∀ k, c.shared.snap k ≠ some .tombstone) ∧ acmeOff ∈ c.shared.db.tenants ∧
      c.shared.snaps (.host "old") = some ⟨.positive acme, none⟩ ∧
      c.shared.snaps (.schema "acme") = some ⟨.positive acme, none⟩ := by
  have r0 : SysRun warmPage statusRace acmeWorld [] (.idle acmeWorld) := .nil
  have r1 := r0.start 1 ⟨.reconcile, .inr rfl, .command⟩ rfl
  have r2 := r1.answer 1 .ping (.ok true) ⟨rfl, trivial, rfl⟩ rfl
  have r3 := r2.answer 1 (.acquire 120) (.ok true) ⟨rfl, trivial, rfl⟩ rfl
  have r4 := r3.answer 1 .ping (.ok true) ⟨rfl, trivial, rfl⟩ rfl
  have r5 := r4.answer 1 .getDirty (.ok none) ⟨rfl, trivial, rfl⟩ rfl
  have r6 := r5.answer 1 .deleteNew (.ok ()) ⟨trivial, trivial, rfl⟩ rfl
  have r7 := r6.answer 1 .readDomains (.ok [⟨"old", acme⟩]) ⟨.refl _, trivial, rfl⟩ rfl
  have r8 := r7.answer 1 (.saddNew ["old"]) (.ok ()) ⟨trivial, trivial, rfl⟩ rfl
  have r9 := r8.start 2 ⟨.status, .inl rfl, .status 1 [.active] .deactivated⟩ rfl
  have r10 := r9.answer 2 (.loadTenant 1) (.ok (some acme)) ⟨rfl, trivial, rfl⟩ rfl
  have r11 := r10.answer 2 (.updateStatus 1 [.active] .deactivated) (.ok true)
    ⟨rfl, trivial, rfl⟩ rfl
  have r12 := r11.answer 2 (.readHosts 1) (.ok ["old"]) ⟨rfl, trivial, rfl⟩ rfl
  have r13 := r12.answer 2 (.set (.host "old") .tombstone (some 5)) (.ok ())
    ⟨trivial, trivial, rfl⟩ rfl
  have r14 := r13.answer 2 (.set (.schema "acme") .tombstone (some 5)) (.ok ())
    ⟨trivial, trivial, rfl⟩ rfl
  have r15 := r14.answer 1 (.set (.host "old") (.positive acme) none) (.ok ())
    ⟨trivial, trivial, rfl⟩ rfl
  have r16 := r15.answer 1 (.set (.schema "acme") (.positive acme) none) (.ok ())
    ⟨trivial, trivial, rfl⟩ rfl
  have r17 := r16.answer 1 .existsNew (.ok true) ⟨rfl, trivial, rfl⟩ rfl
  have r18 := r17.answer 1 .rename (.ok ())
    ⟨trivial, (by decide : (∅ ∪ ["old"].toFinset : Finset Host) ≠ ∅), rfl⟩ rfl
  have r19 := r18.answer 1 .getDirty (.ok none) ⟨rfl, trivial, rfl⟩ rfl
  have r20 := r19.answer 1 .readSchemas (.ok ["acme"]) ⟨rfl, trivial, rfl⟩ rfl
  have r21 := r20.answer 1 (.scanHosts 0) (.ok ["old"])
    ⟨scanHosts_of_run [.schema "acme", .host "old", .schema "acme", .host "old"]
        r20 (fun _ => rfl) rfl (by simp), trivial, rfl⟩ rfl
  have r22 := r21.answer 1 (.scanSchemas 0) (.ok ["acme"])
    ⟨scanSchemas_of_run [.schema "acme", .host "old", .schema "acme", .host "old"]
        r21 (fun _ => rfl) rfl (by simp), trivial, rfl⟩ rfl
  have r23 := r22.answer 1 .release (.ok true) ⟨rfl, trivial, rfl⟩ rfl
  refine ⟨acmeWorld_coherent, _, _, r23, ?_, ?_, ?_, rfl, rfl⟩
  · exact r23.all_done [1, 2] rfl ⟨⟨_, rfl⟩, _, rfl⟩
  · intro k hk
    have hpresent := present_of_run r23 (World.present_of_snap (by rw [hk]; nofun))
    have hm : k ∈ [Key.schema "acme", Key.host "old", Key.schema "acme", Key.host "old"] :=
      hpresent.resolve_left fun h0 => h0 rfl
    simp only [List.mem_cons, List.not_mem_nil, or_false] at hm
    rcases hm with rfl | rfl | rfl | rfl <;> cases hk
  · exact List.mem_cons_self

end MtShards.Resolver
