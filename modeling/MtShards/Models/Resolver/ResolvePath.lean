import MtShards.Models.Resolver.Coherence

/-!
# Coherence of the resolve path

While no reconcile runs, the only writers of snapshots are resolvers, which write where nothing
is cached, and the invalidations of committed changes. The snapshots then say what the tables
say whenever no committed change awaits its invalidation, provided that a domain is edited
through an instance that still carries the hostname of its row. `Domain.save` forgets the
hostname the instance was loaded with, so an instance that has been overtaken by another edit
leaves the hostname in between cached.
-/

namespace MtShards.Resolver

open MtShards.Core

/-- Every kind of program but the reconcile. -/
def resolvePath (k : Kind) : Prop := k ≠ .reconcile

variable {cfg : Config} {s₀ : World} {t : List Event} {c : Core.Config Pid Req Req.Ans Exn World}

/-- In every state in which no committed change awaits its invalidation, the snapshots say what
the tables say, as long as domains are edited through current instances. -/
theorem resolve_path_coherent (hhold : 0 < cfg.holdSeconds) (h₀ : s₀.Coherent)
    (h : SysRun cfg resolvePath s₀ t c) (hfill : Throughout (FillsInTime cfg) t)
    (hedit : Throughout (fun _ => EditsCurrent) t)
    (hdue : ∀ k, ¬ Due cfg resolvePath t c.shared k) :
    c.shared.Coherent := by
  have hcare : Throughout (Careful cfg resolvePath) t :=
    (hfill.and hedit).mono fun t e he => ⟨fun _ => he.1, fun _ => he.2, fun hr => absurd rfl hr⟩
  exact World.coherent_of_view (coherent_of_run h₀ (fun _ => ⟨fun hr => hr rfl, hhold⟩) h hcare) hdue

/-! ### Two edits of one domain -/

/-- An active tenant. -/
def acme : TenantSnapshot := ⟨1, "acme", .active, ⟨1, "shard1"⟩⟩

/-- One tenant with one domain. -/
def acmeDb : Database where
  tenants := [acme]
  domains := [⟨1, "old", 1⟩]
  tenant_id := by simp
  tenant_schema := by simp
  domain_id := by simp
  domain_host := by simp
  foreign_key := by simp [acme]

/-- Nothing is cached yet. -/
def acmeWorld : World :=
  ⟨0, acmeDb, fun _ => none, none, none, none, none, ∅, 0⟩

/-- The defaults, and a scan that takes one page. -/
def onePage : Config where
  keyspace := ⟨1, fun _ => 0, fun _ => Nat.one_pos⟩

theorem acmeWorld_coherent : acmeWorld.Coherent := ⟨nofun, nofun, nofun⟩

/-- A domain is pointed to another hostname, which a resolver then caches. -/
theorem resolve_path_coherent_repointed : ∃ t c, SysRun onePage resolvePath acmeWorld t c ∧
    c.shared.snap (.host "a") = some (.positive acme) ∧ c.shared.Coherent := by
  have r0 : SysRun onePage resolvePath acmeWorld [] (.idle acmeWorld) := .nil
  have r1 := r0.start 1 ⟨.repoint, nofun, .repoint 1 "a"⟩ rfl
  have r2 := r1.answer 1 (.loadDomain 1) (.ok (some ⟨1, "old", 1⟩)) ⟨rfl, trivial, rfl⟩ rfl
  have r3 := r2.answer 1 (.getMany [.host "a"]) (.ok []) ⟨rfl, trivial, rfl⟩ rfl
  have r4 := r3.answer 1 (.saveDomain ⟨1, "old", 1⟩ "a") (.ok true) ⟨rfl, trivial, rfl⟩ rfl
  have r5 := r4.answer 1 (.set (.host "a") .tombstone (some 5)) (.ok ()) ⟨trivial, trivial, rfl⟩ rfl
  have r6 := r5.answer 1 (.getMany [.host "old"]) (.ok []) ⟨rfl, trivial, rfl⟩ rfl
  have r7 := r6.answer 1 (.set (.host "old") .tombstone (some 5)) (.ok ())
    ⟨trivial, trivial, rfl⟩ rfl
  have r8 := r7.env ⟨6, by decide, rfl⟩
  have r9 := r8.start 3 ⟨.fill, nofun, .fill "a"⟩ rfl
  have r10 := r9.answer 3 (.readRow "a") (.ok (some acme)) ⟨rfl, trivial, rfl⟩ rfl
  have r11 := r10.answer 3 (.setNx (.host "a") (.positive acme) (some 3600)) (.ok true)
    ⟨rfl, trivial, rfl⟩ rfl
  have r12 := r11.answer 3 (.setNx (.schema "acme") (.positive acme) (some 3600)) (.ok true)
    ⟨rfl, trivial, rfl⟩ rfl
  refine ⟨_, _, r12, rfl, resolve_path_coherent (by decide) acmeWorld_coherent r12 ?_ ?_ ?_⟩
  · repeat' apply And.intro
    all_goals first | trivial | (intro p k x ttl r h; cases h)
    all_goals decide
  · have hcur : Domain.Current acmeDb ⟨1, "old", 1⟩ := by
      intro r hr _
      rw [List.mem_singleton.1 hr]
    have other {e : Event} (h : isEdit e.label = false) : EditsCurrent e := .of_not_edit h
    refine ⟨other rfl, other rfl, other rfl, other rfl, other rfl, other rfl, other rfl, other rfl,
      ⟨nofun, ?_⟩, other rfl, other rfl, other rfl, trivial⟩
    intro p d h hlabel
    cases hlabel
    exact hcur
  · refine not_due_of_done r12 ?_
    exact r12.all_done [1, 3] rfl ⟨⟨_, rfl⟩, _, rfl⟩

/-- Two editors load the same domain. The first points it to `a`, which a resolver then caches;
the second points it to `b`, and forgets the hostname that it had loaded. The hostname `a` has no
row any more and stays cached. -/
theorem repoint_of_overtaken_instance : 0 < onePage.holdSeconds ∧ acmeWorld.Coherent ∧
    ∃ t c, SysRun onePage resolvePath acmeWorld t c ∧ Throughout (FillsInTime onePage) t ∧
      (∀ k, ¬ Due onePage resolvePath t c.shared k) ∧
      c.shared.snap (.host "a") = some (.positive acme) ∧ ¬ c.shared.db.HasRow "a" ∧
      ¬ c.shared.Coherent := by
  have r0 : SysRun onePage resolvePath acmeWorld [] (.idle acmeWorld) := .nil
  have r1 := r0.start 1 ⟨.repoint, nofun, .repoint 1 "a"⟩ rfl
  have r2 := r1.start 2 ⟨.repoint, nofun, .repoint 1 "b"⟩ rfl
  have r3 := r2.answer 1 (.loadDomain 1) (.ok (some ⟨1, "old", 1⟩)) ⟨rfl, trivial, rfl⟩ rfl
  have r4 := r3.answer 2 (.loadDomain 1) (.ok (some ⟨1, "old", 1⟩)) ⟨rfl, trivial, rfl⟩ rfl
  have r5 := r4.answer 1 (.getMany [.host "a"]) (.ok []) ⟨rfl, trivial, rfl⟩ rfl
  have r6 := r5.answer 1 (.saveDomain ⟨1, "old", 1⟩ "a") (.ok true) ⟨rfl, trivial, rfl⟩ rfl
  have r7 := r6.answer 1 (.set (.host "a") .tombstone (some 5)) (.ok ()) ⟨trivial, trivial, rfl⟩ rfl
  have r8 := r7.answer 1 (.getMany [.host "old"]) (.ok []) ⟨rfl, trivial, rfl⟩ rfl
  have r9 := r8.answer 1 (.set (.host "old") .tombstone (some 5)) (.ok ())
    ⟨trivial, trivial, rfl⟩ rfl
  have r10 := r9.env ⟨6, by decide, rfl⟩
  have r11 := r10.start 3 ⟨.fill, nofun, .fill "a"⟩ rfl
  have r12 := r11.answer 3 (.readRow "a") (.ok (some acme)) ⟨rfl, trivial, rfl⟩ rfl
  have r13 := r12.answer 3 (.setNx (.host "a") (.positive acme) (some 3600)) (.ok true)
    ⟨rfl, trivial, rfl⟩ rfl
  have r14 := r13.answer 3 (.setNx (.schema "acme") (.positive acme) (some 3600)) (.ok true)
    ⟨rfl, trivial, rfl⟩ rfl
  have r15 := r14.answer 2 (.getMany [.host "b"]) (.ok []) ⟨rfl, trivial, rfl⟩ rfl
  have r16 := r15.answer 2 (.saveDomain ⟨1, "old", 1⟩ "b") (.ok true) ⟨rfl, trivial, rfl⟩ rfl
  have r17 := r16.answer 2 (.set (.host "b") .tombstone (some 5)) (.ok ())
    ⟨trivial, trivial, rfl⟩ rfl
  have r18 := r17.answer 2 (.getMany [.host "old"]) (.ok []) ⟨rfl, trivial, rfl⟩ rfl
  have r19 := r18.answer 2 (.set (.host "old") .tombstone (some 5)) (.ok ())
    ⟨trivial, trivial, rfl⟩ rfl
  refine ⟨by decide, acmeWorld_coherent, _, _, r19, ?_, ?_, rfl, ?_, fun h => ?_⟩
  · repeat' apply And.intro
    all_goals first | trivial | (intro p k x ttl r h; cases h)
    all_goals decide
  · refine not_due_of_done r19 ?_
    exact r19.all_done [1, 2, 3] rfl ⟨⟨_, rfl⟩, ⟨_, rfl⟩, _, rfl⟩
  · rintro ⟨d, hd, ha⟩
    rw [List.mem_singleton.1 hd] at ha
    exact absurd ha (by decide)
  · have hrow := h.host "a" acme rfl
    exact absurd hrow (by decide)

end MtShards.Resolver
