import MtShards.Models.Migrator.AdminForm

/-!
# The shard of one `migrate_tenant`

Step 0 fixes the alias: the session check, the clean-up and the `Result` use it. Step 4 reads
the row again, and `_provision` and `_upgrade` take the alias of that row. The two are one
alias as long as the row that is read again is on the shard of step 0, or is a row the run
does not work on.
-/

namespace MtShards.Migrator

open MtShards.Core Program

variable {p : Pid} {pk : Pk} {opts : RunOptions} {a b : Alias} {row : Tenant}

/-- The alias that a request to a shard, or about the connection to it, is made at. -/
def Req.dbAlias : Req → Option Alias
  | .shard a _ | .shardIdle a | .closeShard a => some a
  | _ => none

/-- A row that step 4 reports without working on it: a gated status, or targeted flags for a
tenant that is not provisioned. -/
def Sits (opts : RunOptions) (t : Tenant) : Prop :=
  t.status = .failed ∨ (t.status = .maintenance ∧ opts.maintenance = false) ∨
    (t.status ∈ provisionable ∧ opts.targeted = true)

instance (opts : RunOptions) (t : Tenant) : Decidable (Sits opts t) :=
  inferInstanceAs (Decidable (t.status = .failed ∨
    (t.status = .maintenance ∧ opts.maintenance = false) ∨
    (t.status ∈ provisionable ∧ opts.targeted = true)))

/-! ### The protocol -/

/-- Where a run stands with respect to its alias. -/
inductive Anchor
  | fresh
  /-- Step 0 has found no row. -/
  | gone
  /-- Step 0 has fixed the alias, and no row that the run works on was on another shard. -/
  | fixed (a : Alias)
  /-- A row on another shard was read under the lease. -/
  | strayed
  deriving DecidableEq, Repr

namespace Anchor

/-- After the answer to step 0. -/
def freshNext : (op : Req) → Except Exn op.Ans → Anchor
  | .load _, .ok (some t) => fixed t.shard.dbAlias
  | _, _ => gone

/-- After an answer to a run that has fixed its alias. -/
def fixedNext (opts : RunOptions) (a : Alias) : (op : Req) → Except Exn op.Ans → Anchor
  | .load _, .ok (some t) => if t.shard.dbAlias = a ∨ Sits opts t then fixed a else strayed
  | _, _ => fixed a

/-- The requests of a migrator, with its shard work at the fixed alias. -/
def permits (pk : Pk) : Anchor → Req → Prop
  | fresh, op => op = .load pk
  | gone, _ => False
  | fixed a, op => op.migrates pk (· = a)
  | strayed, op => op.migrates pk fun _ => True

/-- The phase after an answer. -/
def next (opts : RunOptions) : Anchor → (op : Req) → Except Exn op.Ans → Anchor
  | fresh => freshNext
  | gone => fun _ _ => gone
  | fixed a => fixedNext opts a
  | strayed => fun _ _ => strayed

end Anchor

/-- Shard work at the alias of step 0 only. -/
def anchor (pk : Pk) (opts : RunOptions) : Protocol Req Req.Ans Exn Anchor where
  init := .fresh
  permits := Anchor.permits pk
  next := Anchor.next opts
  mayStop _ := True
  mayStop_init := trivial

/-- The alias is fixed, or the run has strayed. -/
def Anchor.Off (a : Alias) (φ : Anchor) : Prop := φ = .fixed a ∨ φ = .strayed

/-- A run that is off a shard stays off it. -/
theorem Anchor.off_next {φ : Anchor} (hφ : φ.Off a) (op : Req) (r : Except Exn op.Ans) :
    (φ.next opts op r).Off a := by
  rcases hφ with rfl | rfl
  · rw [Anchor.next, Anchor.fixedNext.eq_def]
    split
    · split
      · exact .inl rfl
      · exact .inr rfl
    · exact .inl rfl
  · exact .inr rfl

/-- The requests of a migrator, with shard work at more aliases. -/
theorem Req.migrates.mono {A B : Alias → Prop} {op : Req} (h : op.migrates pk A)
    (hAB : ∀ a, A a → B a) : op.migrates pk B := by
  cases op with
  | shard a' q => exact hAB a' h
  | shardIdle a' => exact hAB a' h
  | closeShard a' => exact hAB a' h
  | _ => exact h

/-- Shard work at the fixed alias keeps the run there. -/
theorem anchor_of_migrates {φ : Anchor} {op : Req} (hφ : φ.Off a)
    (h : op.migrates pk (· = a)) :
    (anchor pk opts).permits φ op ∧ ∀ r, ((anchor pk opts).next φ op r).Off a := by
  refine ⟨?_, Anchor.off_next hφ op⟩
  rcases hφ with rfl | rfl
  · exact h
  · exact h.mono fun _ _ => trivial

/-- Where a run stops: past step 0, with a `Result` that names the fixed alias. -/
def NamesShard (a : Alias) (φ : Anchor) (r : Except Exn Result) : Prop :=
  φ.Off a ∧ onOutcome (fun res => res.shard = a) (fun _ => True) r

variable {c : Target}

/-- A result of the target names its shard. -/
theorem namesShard_of_reports {φ : Anchor} {r : Except Exn Result} (hc : c.dbAlias = a)
    (h : φ.Off a ∧ onOutcome c.Reports (fun _ => True) r) : NamesShard a φ r := by
  refine ⟨h.1, ?_⟩
  cases r with
  | ok res => exact h.2.2.trans hc
  | error e => trivial

/-- A run that has strayed may work at any alias. -/
theorem follows_strayed {x : Prog Result} (hc : c.dbAlias = a)
    (hx : x.Within (Req.migrates pk fun _ => True) c.Reports) :
    x.Follows (anchor pk opts) .strayed (NamesShard a) := by
  refine (hx.follows (S := (· = .strayed)) (fun φ op hφ hop => ?_) rfl).mono fun φ r h => ?_
  · subst hφ
    exact ⟨hop, fun _ => rfl⟩
  · exact namesShard_of_reports hc ⟨.inr h.1, h.2⟩

/-- A row that is not worked on is only reported. -/
theorem workOn_of_sits (h : Sits opts row) : ∃ res, workOn pk opts c row = .done (.ok res) ∧
    c.Reports res := by
  cases hg : gate row opts c with
  | some res => exact ⟨res, by simp only [workOn, hg]; rfl, gate_reports hg⟩
  | none =>
    have htargeted : row.status ∈ provisionable ∧ opts.targeted = true := by
      rcases h with h | ⟨h, hm⟩ | h
      · rw [gate, if_pos h] at hg
        cases hg
      · rw [gate, if_neg (by rw [h]; decide), if_pos (by rw [h, hm]; rfl)] at hg
        cases hg
      · exact h
    refine ⟨c.result .skipped .targeted "targeted flags are not allowed for provisioning", ?_,
      c.reports_result ..⟩
    rw [workOn, hg]
    dsimp only
    rw [if_pos htargeted.1, provision, if_pos htargeted.2]
    rfl

/-! ### `migrate_tenant` keeps to it -/

private theorem workOn_anchor (hc : c.dbAlias = a) :
    (workOn pk opts c row).Follows (anchor pk opts)
      ((anchor pk opts).next (.fixed a) (.load pk) (.ok (some row))) (NamesShard a) := by
  change (workOn pk opts c row).Follows _
    (if row.shard.dbAlias = a ∨ Sits opts row then Anchor.fixed a else .strayed) _
  by_cases hrow : row.shard.dbAlias = a
  · rw [if_pos (.inl hrow)]
    exact (((workOn_within hrow).widen fun _ h => h.migrates).follows
      (fun φ op hφ hop => anchor_of_migrates hφ hop)
      (.inl rfl)).mono fun φ r h => namesShard_of_reports hc h
  · by_cases hsits : Sits opts row
    · rw [if_pos (.inr hsits)]
      obtain ⟨res, hres, hreports⟩ := workOn_of_sits hsits
      rw [hres]
      exact ⟨.inl rfl, hreports.2.trans hc⟩
    · rw [if_neg (by simp only [hrow, hsits, or_self, not_false_eq_true])]
      exact follows_strayed hc ((workOn_within trivial).widen fun _ h => h.migrates)

private theorem leasedBody_anchor {φ : Anchor} (hφ : φ.Off a) (hc : c.dbAlias = a) :
    (leasedBody pk opts c).Follows (anchor pk opts) φ (NamesShard a) := by
  rcases hφ with rfl | rfl
  · refine follows_guarded ⟨rfl, fun found => ?_⟩
    cases found with
    | error e =>
      refine ⟨fun _ => ⟨.inl rfl, trivial⟩, fun _ => ?_⟩
      split
      · exact ⟨.inl rfl, hc⟩
      · exact ⟨.inl rfl, hc⟩
    | ok found =>
      cases found with
      | none => exact ⟨.inl rfl, hc⟩
      | some row => exact workOn_anchor hc
  · exact follows_strayed hc ((leasedBody_within fun _ => trivial).widen fun _ h => h.migrates)

private theorem underLease_anchor {φ : Anchor} (hφ : φ.Off a) (hc : c.dbAlias = a) :
    (underLease pk opts c).Follows (anchor pk opts) φ (NamesShard a) := by
  rw [underLease, follows_bind, follows_attempt]
  refine (leasedBody_anchor hφ hc).mono fun φ' r hr => ?_
  refine follows_bind.mpr ?_
  have hexit : (leasedExit pk c.dbAlias (returned r)).Within (Req.migrates pk (· = a))
      fun _ => True := Program.Only.within (leasedExit_migrates (A := (· = a)) hc _)
  refine (hexit.follows (fun φ op hφ hop => anchor_of_migrates hφ hop) hr.1).mono
    fun φ'' u hu => ?_
  cases u with
  | ok _ => exact ⟨hu.1, hr.2⟩
  | error e => exact ⟨hu.1, trivial⟩

private theorem withLease_anchor {φ : Anchor} (hφ : φ.Off a) (hc : c.dbAlias = a) :
    (withLease pk opts c).Follows (anchor pk opts) φ (NamesShard a) := by
  have hacquire : (leaseAcquire pk c.dbAlias).Within (Req.migrates pk (· = a)) fun _ => True :=
    Program.Only.within (leaseAcquire_migrates (A := (· = a)) hc)
  refine follows_guarded ((hacquire.follows (fun φ op hφ hop => anchor_of_migrates hφ hop)
    hφ).mono fun φ' r hr => ?_)
  cases r with
  | ok held =>
    cases held with
    | some msg => exact ⟨hr.1, hc⟩
    | none => exact underLease_anchor hr.1 hc
  | error e =>
    refine ⟨fun _ => ⟨hr.1, trivial⟩, fun _ => ?_⟩
    split
    · exact ⟨hr.1, hc⟩
    · split
      · exact ⟨hr.1, hc⟩
      · exact ⟨hr.1, trivial⟩

private theorem migrateLoaded_anchor (row : Tenant) :
    (migrateLoaded pk opts row).Follows (anchor pk opts) (.fixed row.shard.dbAlias)
      (NamesShard row.shard.dbAlias) := by
  rw [migrateLoaded]
  split
  · exact ⟨.inl rfl, rfl⟩
  · split
    · rename_i res hgate
      exact ⟨.inl rfl, (gate_reports hgate).2⟩
    · refine follows_bind.mpr ?_
      have hshortcut : (noopShortcut row opts ⟨row.schemaName, row.shard.dbAlias⟩).Within
          (Req.migrates pk (· = row.shard.dbAlias)) _ :=
        (noopShortcut_within (A := (· = row.shard.dbAlias)) rfl).widen fun _ h => h.migrates
      refine (hshortcut.follows (fun φ op hφ hop => anchor_of_migrates hφ hop) (.inl rfl)).mono
        fun φ r hr => ?_
      cases r with
      | error e => exact ⟨hr.1, trivial⟩
      | ok first =>
        cases first with
        | some res => exact ⟨hr.1, (hr.2 res rfl).2⟩
        | none => exact withLease_anchor hr.1 rfl

/-- Where `migrate_tenant` stops: before step 0 has found a row, or as after it. -/
def Anchor.Stops (φ : Anchor) (r : Except Exn Result) : Prop := ∀ a, φ = .fixed a → NamesShard a φ r

private theorem migrateTenant_anchor (pk : Pk) (opts : RunOptions) :
    (migrateTenant pk opts).Follows (anchor pk opts) .fresh Anchor.Stops := by
  refine follows_guarded ⟨rfl, fun found => ?_⟩
  cases found with
  | error e =>
    refine ⟨fun _ => nofun, fun _ => ?_⟩
    split
    · exact nofun
    · exact nofun
  | ok found =>
    cases found with
    | none => exact nofun
    | some row =>
      refine (migrateLoaded_anchor row).mono fun φ r hr => ?_
      rintro a rfl
      rcases hr.1 with hφ | hφ
      · cases hφ
        exact hr
      · cases hφ

/-! ### A run among others -/

variable {t : SysTrace}

/-- Step 0 of `p` in a stretch of a trace: its oldest request has found a row on the alias. -/
def FixedAlias (p : Pid) (pk : Pk) (t : SysTrace) (a : Alias) : Prop :=
  ∃ l row s s', takenBy p t = l ++ [⟨.load pk, .ok (some row), s, s'⟩] ∧ row.shard.dbAlias = a

/-- When `p` reads the row again, it is on the alias of step 0, or it is not worked on. -/
def RereadOnShard (p : Pid) (pk : Pk) (opts : RunOptions) (earlier : SysTrace) (e : SysEntry) :
    Prop :=
  ∀ r a row, e.label = .answer p (.load pk) r → FixedAlias p pk earlier a →
    e.pre.tenant pk = some row → row.shard.dbAlias = a ∨ Sits opts row

/-- What holds of `p` along its run. -/
structure Anchored (p : Pid) (pk : Pk) (opts : RunOptions) (t : SysTrace) (s : World) : Prop where
  idle : Idle p s
  /-- Step 0 is the first request, and the run has not strayed. -/
  phase : (takenBy p t = [] ∧ phaseOf (anchor pk opts) .fresh (takenBy p t) = .fresh) ∨
    phaseOf (anchor pk opts) .fresh (takenBy p t) = .gone ∨
    ∃ a, phaseOf (anchor pk opts) .fresh (takenBy p t) = .fixed a ∧ FixedAlias p pk t a
  steps : ∀ x ∈ takenBy p t, ∀ b, x.op.dbAlias = some b → FixedAlias p pk t b

private theorem phaseOf_answers {Φ σ : Type} (P : Protocol Req Req.Ans Exn Φ) (φ : Φ)
    (l : List (Taken Req Req.Ans Exn σ)) : phaseOf P φ (answers l) = phaseOf P φ l := by
  induction l with
  | nil => rfl
  | cons x l ih =>
    change P.next (phaseOf P φ (answers l)) x.op x.answer = _
    rw [ih]
    rfl

/-- A process whose log is not touched by a step keeps what holds of it. -/
theorem Anchored.of_eq {t' : SysTrace} {s s' : World} (h : Anchored p pk opts t s)
    (hidle : Idle p s') (ht : takenBy p t' = takenBy p t) : Anchored p pk opts t' s' := by
  refine ⟨hidle, ?_, ?_⟩
  · rw [ht]
    simpa only [FixedAlias, ht] using h.phase
  · rw [ht]
    simpa only [FixedAlias, ht] using h.steps

/-- A process that does not act keeps being without transaction. -/
theorem Idle.of_acts {s s' : World} {l : SysLabel} (h : Idle p s) (ha : machine.Acts l s s')
    (hl : l.actor ≠ some p) : Idle p s' := by
  have hkeep := acts_keepsLocks ha hl
  exact ⟨hkeep.tx.trans h.tx, fun k hk => h.leaseLock k ((hkeep.leaseLock k).mp hk),
    fun pk hk => h.tenantLock pk ((hkeep.tenantLock pk).mp hk)⟩

/-- A shard that is fixed stays so in a longer run. -/
theorem FixedAlias.cons {op : Req} {r : Except Exn op.Ans} {s s' : World}
    (h : FixedAlias p pk t a) : FixedAlias p pk (⟨.answer p op r, s, s'⟩ :: t) a := by
  obtain ⟨l, row, s₁, s₂, ht, hrow⟩ := h
  refine ⟨⟨op, r, s, s'⟩ :: l, row, s₁, s₂, ?_, hrow⟩
  rw [takenBy, if_pos rfl, ht]
  rfl

/-- A migrator that works at one alias only uses no other. -/
theorem Req.eq_of_migrates {op : Req} (h : op.migrates pk (· = a)) (hb : op.dbAlias = some b) :
    b = a := by
  cases op with
  | shard a' q =>
    cases hb
    exact h
  | shardIdle a' =>
    cases hb
    exact h
  | closeShard a' =>
    cases hb
    exact h
  | _ => cases hb

/-- A request of `p` that its phase permits. -/
theorem Anchored.answer {op : Req} {r : Except Exn op.Ans} {s s' : World}
    (h : Anchored p pk opts t s) (he : machine.exec p op s r s')
    (hp : (anchor pk opts).permits (phaseOf (anchor pk opts) .fresh (takenBy p t)) op)
    (hrow : RereadOnShard p pk opts t ⟨.answer p op r, s, s'⟩) :
    Anchored p pk opts (⟨.answer p op r, s, s'⟩ :: t) s' := by
  have htaken : takenBy p (⟨.answer p op r, s, s'⟩ :: t) = ⟨op, r, s, s'⟩ :: takenBy p t := by
    rw [takenBy, if_pos rfl]
  have hphase : phaseOf (anchor pk opts) .fresh (takenBy p (⟨.answer p op r, s, s'⟩ :: t)) =
      (phaseOf (anchor pk opts) .fresh (takenBy p t)).next opts op r := by
    rw [htaken]
    rfl
  rcases h.phase with ⟨hnil, hφ⟩ | hφ | ⟨a, hφ, hfixed⟩
  · -- Step 0.
    rw [hφ] at hp hphase
    obtain rfl : op = .load pk := hp
    have hsteps : ∀ x ∈ takenBy p (⟨.answer p (.load pk) r, s, s'⟩ :: t), ∀ b,
        x.op.dbAlias = some b → FixedAlias p pk (⟨.answer p (.load pk) r, s, s'⟩ :: t) b := by
      intro x hx b hb
      rw [htaken, hnil, List.mem_singleton] at hx
      subst hx
      cases hb
    refine ⟨exec_idle rfl he h.idle, ?_, hsteps⟩
    rcases r with e | _ | row
    · exact .inr (.inl hphase)
    · exact .inr (.inl hphase)
    · refine .inr (.inr ⟨_, hphase, [], row, s, s', ?_, rfl⟩)
      rw [htaken, hnil]
      rfl
  · rw [hφ] at hp
    exact hp.elim
  · rw [hφ] at hp hphase
    have hop : op.migrates pk (· = a) := hp
    refine ⟨exec_idle (Req.single_of_migrates hop) he h.idle, ?_, ?_⟩
    · refine .inr (.inr ⟨a, ?_, hfixed.cons⟩)
      rw [hphase, Anchor.next, Anchor.fixedNext.eq_def]
      split
      · -- The row is read again.
        rename_i k row
        obtain rfl : k = pk := hop
        have hread : some row = s.tenant k := by
          have hans : some row = s.tenantRow p k := he.1
          rwa [World.tenantRow, h.idle.tx] at hans
        rw [if_pos (hrow _ a row rfl hfixed hread.symm)]
      · rfl
    · intro x hx b hb
      rw [htaken] at hx
      rcases List.mem_cons.mp hx with rfl | hx
      · rw [Req.eq_of_migrates hop hb]
        exact hfixed.cons
      · exact (h.steps x hx b hb).cons

/-- An inner step leaves a process idle. -/
theorem Idle.of_inner {q : Pid} {op : Req} {s s' : World} (h : Idle p s)
    (hi : machine.inner q op s s') : Idle p s' := by
  cases op with
  | shard a r =>
    obtain ⟨st, hu⟩ := hi
    exact h.of_locks_eq (World.locks_eq_iff.mpr hu.default_eq.2)
  | _ => exact absurd hi id

/-- What `p` has left keeps to the protocol of its alias. -/
theorem anchor_of_run {starts : Pid → Prog Unit → Prop} {c₁ c : SysConfig} {y : Prog Unit}
    (h : Run machine starts c₁ t c) (hstart : c₁.proc p = some (migrateTenant pk opts).void)
    (hsame : ∀ e ∈ t, e.label ≠ .start p) (hy : c.proc p = some y) :
    ∃ y', y = y'.void ∧ Exec anyAnswer (migrateTenant pk opts) () (answers (takenBy p t)) y' () ∧
      y'.Follows (anchor pk opts) (phaseOf (anchor pk opts) .fresh (takenBy p t)) Anchor.Stops := by
  obtain ⟨y', rfl, hexec⟩ := (h.exec_from hstart hsame hy).of_void
  refine ⟨y', rfl, hexec, ?_⟩
  have hfollows := hexec.follows (migrateTenant_anchor pk opts)
  rwa [phaseOf_answers] at hfollows

private theorem anchored_of_run {starts : Pid → Prog Unit → Prop} {c₁ c : SysConfig}
    (h : Run machine starts c₁ t c) (hstart : c₁.proc p = some (migrateTenant pk opts).void)
    (hidle : Idle p c₁.shared) (hsame : ∀ e ∈ t, e.label ≠ .start p)
    (hrow : Throughout (RereadOnShard p pk opts) t) : Anchored p pk opts t c.shared := by
  induction h with
  | nil =>
    refine ⟨hidle, .inl ⟨rfl, rfl⟩, ?_⟩
    intro x hx
    cases hx
  | @cons t c l c' hr hs ih =>
    have hsame' : ∀ e ∈ t, e.label ≠ .start p := fun e he => hsame e (List.mem_cons_of_mem _ he)
    have ih := ih hsame' hrow.2
    have hacts := hs.acts
    cases hs with
    | @start q r prog _ _ =>
      have hq : q ≠ p := fun hq => hsame _ List.mem_cons_self (by rw [hq])
      exact ih.of_eq ih.idle (by rw [takenBy, if_neg hq])
    | inner _ hi => exact ih.of_eq (ih.idle.of_inner hi) rfl
    | @answer q op k r s' hcall he =>
      by_cases hq : q = p
      · subst hq
        obtain ⟨y', hy', _, hfollows⟩ := anchor_of_run hr hstart hsame' hcall
        cases y' with
        | done r' => cases r' <;> cases hy'
        | call op' k' =>
          cases hy'
          exact ih.answer he hfollows.1 hrow.1
      · refine ih.of_eq (ih.idle.of_acts hacts fun h => hq (Option.some.inj h)) ?_
        rw [takenBy, if_neg hq]
    | env _ => exact ih.of_eq (ih.idle.of_acts hacts fun h => by cases h) rfl
    | @kill q prog s' _ hk =>
      by_cases hq : q = p
      · subst hq
        obtain rfl : s' = c.shared.kill q := hk
        have hnil : takenBy q (⟨.kill q, c.shared, c.shared.kill q⟩ :: t) = [] := by
          rw [takenBy, if_pos rfl]
        refine ⟨(endTx_idle q c.shared).of_locks_eq rfl, .inl ⟨hnil, by rw [hnil]; rfl⟩, ?_⟩
        rw [hnil]
        intro x hx
        cases hx
      · refine ih.of_eq (ih.idle.of_acts hacts fun h => hq (Option.some.inj h)) ?_
        rw [takenBy, if_neg hq]

/-- A run that has found its row has the alias of it fixed, or has strayed. -/
theorem phaseOf_off (l : List (Taken Req Req.Ans Exn World)) (s s' : World) :
    (phaseOf (anchor pk opts) .fresh (l ++ [⟨.load pk, .ok (some row), s, s'⟩])).Off
      row.shard.dbAlias := by
  induction l with
  | nil => exact .inl rfl
  | cons x l ih => exact Anchor.off_next ih x.op x.answer

/-- In every run among others that starts `migrate_tenant` on a process, as long as the row it
reads again is on the shard of step 0 or is not worked on: every shard-side step is made at
the alias of step 0, and so is the shard that a `Result` names. -/
theorem one_shard_per_run {s₀ : World} {t₀ : SysTrace} {c₀ c : SysConfig} {r : Except Exn Unit}
    (h₀ : SysRun s₀ t₀ c₀) (hp : c₀.proc p = some (.done r))
    (h : Run machine (fun _ => Starts true)
      ⟨c₀.shared, Function.update c₀.proc p (some (migrateTenant pk opts).void)⟩ t c)
    (hsame : ∀ e ∈ t, e.label ≠ .start p) (hrow : Throughout (RereadOnShard p pk opts) t) :
    (∀ x ∈ takenBy p t, ∀ b, x.op.dbAlias = some b → FixedAlias p pk t b) ∧
      ∀ y, c.proc p = some y → ∃ y', y = y'.void ∧
        Exec anyAnswer (migrateTenant pk opts) () (answers (takenBy p t)) y' () ∧
        ∀ res a, y' = .done (.ok res) → FixedAlias p pk t a → res.shard = a := by
  have hidle : Idle p c₀.shared :=
    (phaseOk_iff_idle (h₀.2.follows system_follows p hp)).mp
      (Run.phaseOk system_follows h₀.1 h₀.2 p)
  have hstart : (Function.update c₀.proc p (some (migrateTenant pk opts).void)) p =
      some (migrateTenant pk opts).void := Function.update_self ..
  have hanchored := anchored_of_run h hstart hidle hsame hrow
  refine ⟨hanchored.steps, fun y hy => ?_⟩
  obtain ⟨y', rfl, hexec, hfollows⟩ := anchor_of_run h hstart hsame hy
  refine ⟨y', rfl, hexec, ?_⟩
  rintro res a rfl ⟨l, row, s, s', htaken, rfl⟩
  have hoff : (phaseOf (anchor pk opts) .fresh (takenBy p t)).Off row.shard.dbAlias := by
    rw [htaken]
    exact phaseOf_off l s s'
  rcases hanchored.phase with ⟨_, hφ⟩ | hφ | ⟨a', hφ, _⟩
  · rw [hφ] at hoff
    rcases hoff with h | h <;> cases h
  · rw [hφ] at hoff
    rcases hoff with h | h <;> cases h
  · rw [hφ] at hoff
    rcases hoff with h | h
    · cases h
      exact (hfollows _ hφ).2
    · cases h

/-! ### Two runs -/

/-- The process of the examples starts `migrate_tenant` on the one tenant there is. -/
def acmeStarted : SysConfig :=
  ⟨oneTenant acme, Function.update (Config.idle (oneTenant acme)).proc "app-1:4312"
    (some (migrateTenant 1 .defaults).void)⟩

/-- Nobody edits the tenant: the row is read again on the shard of step 0. -/
theorem undisturbed_run : ∃ t c, Run machine (fun _ => Starts true) acmeStarted t c ∧
    (∀ e ∈ t, e.label ≠ .start "app-1:4312") ∧
    Throughout (RereadOnShard "app-1:4312" 1 .defaults) t ∧
    ∃ x ∈ takenBy "app-1:4312" t, x.op.dbAlias = some "shard1" := by
  have r0 : Run machine (fun _ => Starts true) acmeStarted [] acmeStarted := .nil
  have r1 := r0.answer "app-1:4312" (.load 1) (.ok (some acme)) ⟨rfl, rfl, rfl⟩ rfl
  have r2 := r1.answer "app-1:4312" (.shard "shard1" (.sessionActive 1)) (.ok none)
    ⟨⟨nofun, fun h => absurd h oneTenant_not_busy⟩, .idle, nofun, .inr ⟨nofun, 0, rfl, rfl⟩⟩ rfl
  have r3 := r2.answer "app-1:4312" (.leaseUpsert 1) (.ok true) ⟨rfl, rfl, rfl⟩ rfl
  have r4 := r3.answer "app-1:4312" (.load 1) (.ok (some acme)) ⟨rfl, rfl, rfl⟩ rfl
  refine ⟨_, _, r4, ?_, ⟨?_, ?_, ?_, ?_, trivial⟩, _,
    List.mem_cons_of_mem _ (List.mem_cons_of_mem _ List.mem_cons_self), rfl⟩
  · intro e he
    simp only [List.mem_cons, List.not_mem_nil, or_false] at he
    rcases he with rfl | rfl | rfl | rfl <;> exact nofun
  · rintro r a row hl ⟨l, row', s, s', htaken, rfl⟩ hread
    have hlast := congrArg List.getLast? htaken
    rw [List.getLast?_concat] at hlast
    obtain ⟨⟩ := Option.some.inj hlast
    obtain rfl := Option.some.inj hread
    exact .inl rfl
  · intro r a row hl
    cases hl
  · intro r a row hl
    cases hl
  · rintro r a row hl ⟨l, row', s, s', htaken, rfl⟩ hread
    simp [takenBy] at htaken

/-- In a run that nothing disturbs the shard is fixed. -/
theorem one_shard_undisturbed : ∃ t c, Run machine (fun _ => Starts true) acmeStarted t c ∧
    FixedAlias "app-1:4312" 1 t "shard1" := by
  obtain ⟨t, c, hrun, hsame, hrow, x, hx, hb⟩ := undisturbed_run
  have h₀ : SysRun (oneTenant acme) [] (.idle (oneTenant acme)) := ⟨oneTenant_quiet acme, .nil⟩
  exact ⟨t, c, hrun, (one_shard_per_run h₀ rfl hrun hsame hrow).1 x hx "shard1" hb⟩

/-- The change form with another shard and nothing else. -/
def toShard2 : Submission :=
  ⟨1, some "new", none, false, ⟨none, none, none, some ⟨"shard2", false⟩⟩, false⟩

/-- An operator moves the tenant to another shard while a migrator holds its lease and has not
read the row again: the session check and the lease speak of one shard, the run then works on
the other. -/
theorem two_shards_in_one_run : ∃ t c, Run machine (fun _ => Starts true) acmeStarted t c ∧
    (∀ e ∈ t, e.label ≠ .start "app-1:4312") ∧ FixedAlias "app-1:4312" 1 t "shard1" ∧
    ∃ x ∈ takenBy "app-1:4312" t, x.op = .shard "shard2" (.schemaHasRelations "acme") := by
  have r0 : Run machine (fun _ => Starts true) acmeStarted [] acmeStarted := .nil
  have r1 := r0.answer "app-1:4312" (.load 1) (.ok (some acme)) ⟨rfl, rfl, rfl⟩ rfl
  have r2 := r1.answer "app-1:4312" (.shard "shard1" (.sessionActive 1)) (.ok none)
    ⟨⟨nofun, fun h => absurd h oneTenant_not_busy⟩, .idle, nofun, .inr ⟨nofun, 0, rfl, rfl⟩⟩ rfl
  have r3 := r2.answer "app-1:4312" (.leaseUpsert 1) (.ok true) ⟨rfl, rfl, rfl⟩ rfl
  have r4 := r3.start "web-1:80" (.adminChange toShard2) rfl
  have r5 := r4.answer "web-1:80" .begin (.ok ()) ⟨trivial, rfl, rfl⟩ rfl
  have r6 := r5.answer "web-1:80" (.load 1) (.ok (some acme)) ⟨rfl, rfl, rfl⟩ rfl
  have r7 := r6.answer "web-1:80" (.saveTenant 1 toShard2.changes false) (.ok true)
    ⟨rfl, rfl, rfl⟩ rfl
  have r8 := r7.answer "web-1:80" .commit (.ok ()) ⟨trivial, rfl, rfl⟩ rfl
  have r9 := r8.answer "app-1:4312" (.load 1) (.ok (some { acme with shard := ⟨"shard2", false⟩ }))
    ⟨rfl, rfl, rfl⟩ rfl
  have r10 := r9.answer "app-1:4312" .codeOlderThanDb (.ok false) ⟨trivial, rfl, rfl⟩ rfl
  have r11 := r10.answer "app-1:4312" (.shard "shard2" (.schemaHasRelations "acme")) (.ok false)
    ⟨trivial, .idle, nofun, .inr ⟨?_, 1, rfl, rfl⟩⟩ rfl
  rotate_left
  · exact forall_backends_update rfl nofun
  refine ⟨_, _, r11, ?_, ⟨[_, _, _, _, _], acme, _, _, rfl, rfl⟩, _, List.mem_cons_self, rfl⟩
  intro e he
  simp only [List.mem_cons, List.not_mem_nil, or_false] at he
  rcases he with rfl | rfl | rfl | rfl | rfl | rfl | rfl | rfl | rfl | rfl | rfl <;> simp

end MtShards.Migrator
