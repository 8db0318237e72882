import MtShards.Models.Migrator.Connections
import MtShards.Models.Migrator.Fencing

/-!
# How a migrator leaves

Every exit of `migrate_tenant` and `migrate_shared` after the lease was acquired goes through
one `finally`: the idle test, `_close_shard`, then the release of the lease unless a statement
may still be running. What it leaves behind is right exactly when no interrupt hits the idle
test or the session reset of that `finally`.
-/

namespace MtShards.Migrator

open MtShards.Core Program

variable {a : Alias} {pk k : Pk} {row : Tenant} {opts : RunOptions} {c : Target}
  {w w' w₀ : Wrappers} {l l' : WrapperLog}

/-! ### The work of a run is steady -/

/-- No condition on a value. -/
abbrev anyValue {α : Type} : α → Prop := fun _ => True

/-- Looking into a lost status write is steady. -/
theorem casLost_steady : Steady a anyValue (casLost pk c) := by
  refine Steady.bind (steady_call trivial) fun found _ => ?_
  match found with
  | none => exact steady_pure trivial
  | some (status, mine) =>
    dsimp only
    split <;> exact steady_pure trivial

/-- `_cas_lost` inside a `try` block. -/
theorem guarded_casLost_steady {onError : Exn → Prog Result}
    (he : ∀ e, Steady a anyValue (onError e)) :
    Steady a anyValue (guarded onError (casLost pk c) Pure.pure) :=
  steady_guarded casLost_steady (fun _ _ => steady_pure trivial) he

section Work

variable (ha : row.shard.dbAlias = a)
include ha

/-- Reading the plan of the tenant is steady. -/
theorem pendingPlan_steady : Steady a anyValue (pendingPlan row) := by
  subst ha
  refine Steady.bind (steady_call rfl) fun found _ => ?_
  cases found with
  | true =>
    refine steady_closing ?_
    exact Steady.bind (steady_call rfl) fun plan _ => steady_pure trivial
  | false => exact steady_pure trivial

/-- Reporting a failure is steady. -/
theorem failure_steady (e : Exn) (schema : SchemaName) :
    Steady a anyValue (failure e row.shard.dbAlias schema c) := by
  subst ha
  refine Steady.bind (steady_call rfl) fun _ _ => ?_
  refine Steady.bind (V := anyValue) ?_ fun indexes _ => steady_pure trivial
  exact steady_guarded (steady_call rfl) (fun _ _ => steady_pure trivial)
    fun _ => steady_pure trivial

/-- The handler of `_provision` is steady. -/
theorem provisionFailed_steady (pk : Pk) (c : Target) (side : Side) (claimed : Bool) (e : Exn) :
    Steady a anyValue (provisionFailed pk row c side claimed e) := by
  rw [provisionFailed]
  split
  · exact steady_pure trivial
  · refine Steady.bind (failure_steady ha e _) fun res _ => ?_
    split
    · refine steady_guarded (V := anyValue) ?_ (fun _ _ => steady_pure trivial) fun e2 => ?_
      · refine Steady.bind (steady_call trivial) fun won _ => ?_
        split
        · exact Steady.bind (steady_call trivial) fun _ _ => steady_pure trivial
        · exact Steady.bind casLost_steady fun lost _ => steady_pure trivial
      · split
        · exact steady_pure trivial
        · exact steady_raise
    · exact steady_pure trivial

private theorem provisionSchema_steady : Steady a anyValue (provisionSchema pk row opts) := by
  have hplan := pendingPlan_steady ha
  subst ha
  refine Steady.bind (steady_call rfl) fun _ _ => Steady.bind (steady_call rfl) fun _ _ =>
    Steady.bind (steady_call rfl) fun _ _ => Steady.bind hplan fun plan _ => ?_
  match plan with
  | none => exact steady_raise
  | some [] => exact steady_pure trivial
  | some (_ :: _) => exact steady_raise

private theorem provisionClaimed_steady : Steady a anyValue (provisionClaimed pk row opts c) := by
  have hfailed := provisionFailed_steady ha pk c
  refine steady_guarded (provisionSchema_steady ha) (fun _ _ => ?_) (hfailed _ _)
  refine steady_guarded (steady_call trivial) (fun older _ => ?_) (hfailed _ _)
  split
  · exact steady_pure trivial
  · refine steady_guarded (steady_call trivial) (fun won _ => ?_) (hfailed _ _)
    split
    · refine steady_guarded (steady_call trivial) (fun _ _ => ?_) (hfailed _ _)
      split <;> exact steady_pure trivial
    · exact guarded_casLost_steady (hfailed _ _)

private theorem provision_steady : Steady a anyValue (provision pk row opts c) := by
  have hfailed := provisionFailed_steady ha pk c
  rw [provision]
  split
  · exact steady_pure trivial
  · refine steady_guarded (steady_call trivial) (fun older _ => ?_) (hfailed _ _)
    split
    · exact steady_pure trivial
    · refine steady_guarded (V := anyValue) ?_ (fun foreign _ => ?_) (hfailed _ _)
      · split
        · exact steady_call ha
        · exact steady_pure trivial
      · split
        · refine steady_guarded (steady_call trivial) (fun won _ => ?_) (hfailed _ _)
          split
          · exact steady_guarded (steady_call trivial) (fun _ _ => steady_pure trivial)
              (hfailed _ _)
          · exact guarded_casLost_steady (hfailed _ _)
        · refine steady_guarded (steady_call trivial) (fun won _ => ?_) (hfailed _ _)
          split
          · exact provisionClaimed_steady ha
          · exact guarded_casLost_steady (hfailed _ _)

/-- The handler of `_upgrade` is steady. -/
theorem upgradeFailed_steady (side : Side) (e : Exn) :
    Steady a anyValue (upgradeFailed row c side e) := by
  rw [upgradeFailed]
  split
  · exact steady_pure trivial
  · exact failure_steady ha e _

private theorem upgradeMissing_steady : Steady a anyValue (upgradeMissing pk row c) := by
  have hfailed := upgradeFailed_steady (c := c) ha
  rw [upgradeMissing]
  split
  · exact steady_pure trivial
  · refine steady_guarded (steady_call trivial) (fun won _ => ?_) (hfailed _)
    split
    · exact steady_guarded (steady_call trivial) (fun _ _ => steady_pure trivial) (hfailed _)
    · exact guarded_casLost_steady (hfailed _)

private theorem upgradeRun_steady (plan : Plan) : Steady a anyValue (upgradeRun pk row opts c plan) := by
  have hfailed := upgradeFailed_steady (c := c) ha
  refine steady_guarded (V := anyValue) ?_ (fun _ _ => ?_) (hfailed _)
  · exact Steady.bind (steady_call ha) fun _ _ => steady_call ha
  · split
    · exact steady_guarded (pendingPlan_steady ha) (fun _ _ => steady_pure trivial) (hfailed _)
    · exact steady_pure trivial

private theorem upgrade_steady : Steady a anyValue (upgrade pk row opts c) := by
  refine steady_guarded (pendingPlan_steady ha) (fun plan _ => ?_) (upgradeFailed_steady ha _)
  cases plan with
  | none => exact upgradeMissing_steady ha
  | some plan =>
    dsimp only
    split
    · exact steady_pure trivial
    · exact upgradeRun_steady ha plan

private theorem workOn_steady : Steady a anyValue (workOn pk opts c row) := by
  rw [workOn]
  split
  · exact steady_pure trivial
  · split
    · exact provision_steady ha
    · split
      · exact upgrade_steady ha
      · exact steady_pure trivial

end Work

/-- The row that is read is on the alias. -/
theorem load_steady :
    Steady a (fun found => ∀ t : Tenant, found = some t → t.shard.dbAlias = a) (load pk) := by
  intro l w hw
  refine ensures_request.mpr fun r w' hsem => ⟨trivial, ?_⟩
  have hleaves := stepLeaves_of_work (.load pk) trivial hsem
  refine ⟨(WorkAdded.refl a l).cons trivial, hleaves.others, fun hbusy => ?_, ?_⟩
  · refine (hleaves.busy hbusy).resolve_left fun hbefore => ?_
    rw [hw] at hbefore
    cases hbefore
  · cases r with
    | error e => trivial
    | ok found =>
      intro t ht
      exact hsem.1 t (congrArg Except.ok ht)

private theorem leasedBody_steady : Steady a anyValue (leasedBody pk opts c) := by
  refine steady_guarded load_steady (fun found hfound => ?_) fun e => ?_
  · cases found with
    | none => exact steady_pure trivial
    | some t => exact workOn_steady (hfound t rfl)
  · split <;> exact steady_pure trivial

private theorem sharedBody_steady : Steady "default" anyValue (sharedBody opts) := by
  refine steady_guarded (V := anyValue) ?_ (fun _ _ => steady_pure trivial) fun e => ?_
  · exact Steady.bind (steady_call rfl) fun _ _ => steady_call rfl
  · split <;> exact steady_pure trivial

/-! ### The clean-up -/

/-- How the clean-up ends, after a body that has left the log `l`, the wrappers `w` and the
outcome `r`: the requests it adds, what it leaves of the wrappers, and the final outcome. -/
inductive Leaving (k : Pk) (a : Alias) (l : WrapperLog) (w : Wrappers) (r : Except Exn Result) :
    WrapperLog → Wrappers → Except Exn Result → Prop
  /-- The idle test is interrupted. -/
  | idleCut (e : Exn) : Leaving k a l w r (⟨.shardIdle a, .error e, w, w⟩ :: l) w (.error e)
  /-- The session reset is interrupted. -/
  | closeCut (e : Exn) (idle : Bool) (w' : Wrappers) (quiet : (w a).busy = false) :
    Leaving k a l w r
      (⟨.closeShard a, .error e, w, w'⟩ :: ⟨.shardIdle a, .ok idle, w, w⟩ :: l) w' (.error e)
  /-- The shard is closed and the lease is kept. -/
  | kept (idle : Bool) (e : Exn) (raised : r = .error e) (busy : (w a).busy = true) :
    Leaving k a l w r
      (⟨.closeShard a, .ok (), w, Function.update w a .shut⟩ :: ⟨.shardIdle a, .ok idle, w, w⟩ :: l)
      (Function.update w a .shut) r
  /-- The shard is closed, then the lease is released. -/
  | released (idle : Bool) (answer : Except Exn Bool) (w' : Wrappers) (r' : Except Exn Result)
      (quiet : (w a).busy = false) (clean : (w' a).Clean) (others : OthersClean a w w') :
    Leaving k a l w r
      (⟨.leaseRelease k, answer, Function.update w a .shut, w'⟩ ::
        ⟨.closeShard a, .ok (), w, Function.update w a .shut⟩ ::
          ⟨.shardIdle a, .ok idle, w, w⟩ :: l) w' r'

/-- The release of the lease is attempted once, and uses the connection to `default`. -/
theorem release_ensures (k : Pk) (l : WrapperLog) (w : Wrappers) :
    (catching (do let _ ← leaseRelease k
                  Pure.pure ()) fun _ => Pure.pure () : Prog Unit).Ensures (wrapperSem a)
      (fun _ _ => True) l w fun l' w' _ => ∃ answer, l' = ⟨.leaseRelease k, answer, w, w'⟩ :: l ∧
        ∃ y, w' = Function.update w "default" y ∧ Changed (.leaseRelease k) answer (w "default") y := by
  refine ensures_bind.mpr (ensures_attempt.mpr (ensures_bind.mpr (ensures_request.mpr ?_)))
  intro answer w' hsem
  refine ⟨trivial, ?_⟩
  obtain ⟨y, hw, hy⟩ := hsem
  cases answer with
  | ok found => exact ⟨_, rfl, y, hw, hy⟩
  | error e =>
    simp only [onOutcome_error, onOutcome_ok]
    split
    · exact ⟨_, rfl, y, hw, hy⟩
    · exact ⟨_, rfl, y, hw, hy⟩

/-- A clean wrapper stays clean when a lease is released. -/
theorem clean_of_release {answer : Except Exn Bool} {y : Wrapper} {b : Alias}
    (hy : Changed (.leaseRelease k) answer (w "default") y) (hclean : (w b).Clean) :
    (Function.update w "default" y b).Clean := by
  by_cases hb : b = "default"
  · subst hb
    rw [Function.update_self]
    exact hy.clean rfl rfl hclean
  · rwa [Function.update_of_ne hb]

private theorem leasedExit_leaving {r : Except Exn Result}
    (hr : (w a).busy = true → ∃ e, r = .error e ∧ e.base = true) :
    (do leasedExit k a (returned r)
        .done r : Prog Result).Ensures (wrapperSem a) (fun _ _ => True) l w (Leaving k a l w r) := by
  refine ensures_bind.mpr ?_
  rw [leasedExit]
  refine ensures_bind.mpr (ensures_request.mpr fun idle w₁ hidle => ⟨trivial, ?_⟩)
  cases idle with
  | error e =>
    obtain ⟨rfl, _⟩ := hidle
    exact .idleCut e
  | ok idle =>
    obtain ⟨rfl, hidle⟩ := hidle
    refine ensures_bind.mpr (ensures_request.mpr fun closed w₂ hclose => ⟨trivial, ?_⟩)
    cases closed with
    | error e => exact .closeCut e idle w₂ hclose.2.2.1
    | ok closed =>
      obtain rfl := hclose
      simp only [onOutcome_ok]
      split
      · rename_i hfinished
        have hquiet : (w₁ a).busy = false := by
          cases hbusy : (w₁ a).busy with
          | false => rfl
          | true =>
            obtain ⟨e, rfl, _⟩ := hr hbusy
            rw [hidle, hbusy] at hfinished
            cases hfinished
        refine (release_ensures k _ _).mono fun l' w' u hu => ?_
        obtain ⟨answer, rfl, y, rfl, hy⟩ := hu
        have hclean : ∀ b, (Function.update w₁ a Wrapper.shut b).Clean →
            (Function.update (Function.update w₁ a Wrapper.shut) "default" y b).Clean :=
          fun b hb => clean_of_release hy hb
        have hshut : (Function.update w₁ a Wrapper.shut a).Clean := by
          rw [Function.update_self]
          exact Wrapper.shut_clean
        have hothers : OthersClean a w₁
            (Function.update (Function.update w₁ a Wrapper.shut) "default" y) :=
          fun b hb hw => hclean b (OthersClean.update w₁ .shut b hb hw)
        cases u with
        | ok _ => exact .released idle answer _ r hquiet (hclean a hshut) hothers
        | error e => exact .released idle answer _ (.error e) hquiet (hclean a hshut) hothers
      · rename_i hfinished
        have hbusy : (w₁ a).busy = true := by
          cases hbusy : (w₁ a).busy with
          | true => rfl
          | false =>
            rw [hidle, hbusy, Bool.not_false, Bool.or_true] at hfinished
            exact absurd rfl hfinished
        obtain ⟨e, rfl, _⟩ := hr hbusy
        exact .kept idle e rfl hbusy

/-- What a run that has acquired its lease leaves: steady work, then the clean-up. -/
def LeavesBehind (k : Pk) (a : Alias) (l : WrapperLog) (w : Wrappers) (l' : WrapperLog)
    (w' : Wrappers) (r' : Except Exn Result) : Prop :=
  ∃ l₁ w₁ r, Steadily a anyValue l w l₁ w₁ r ∧ Leaving k a l₁ w₁ r l' w' r'

/-- Steady work with the clean-up after it leaves behind what it should. -/
theorem steady_leavesBehind {x : Prog Result} (hx : Steady a anyValue x) (hw : (w a).busy = false) :
    (do let r ← x.attempt
        leasedExit k a (returned r)
        .done r : Prog Result).Ensures (wrapperSem a) (fun _ _ => True) l w
      (LeavesBehind k a l w) := by
  refine ensures_bind.mpr (ensures_attempt.mpr ((hx l w hw).mono fun l₁ w₁ r h => ?_))
  exact (leasedExit_leaving h.busy).mono fun l' w' r' h' => ⟨l₁, w₁, r, h, h'⟩

/-! ### Up to the lease -/

/-- The upsert of the lease has returned a row. -/
def Won (k : Pk) (l : WrapperLog) : Prop := ∃ s s', ⟨.leaseUpsert k, .ok true, s, s'⟩ ∈ l

/-- A lease that was won stays won as the log grows. -/
theorem Won.cons (h : Won k l) (x : Taken Req Req.Ans Exn Wrappers) : Won k (x :: l) := by
  obtain ⟨s, s', hwon⟩ := h
  exact ⟨s, s', List.mem_cons_of_mem _ hwon⟩

/-- What a run without lease leaves. -/
structure Before (k : Pk) (a : Alias) (l : WrapperLog) (w : Wrappers) (l' : WrapperLog)
    (w' : Wrappers) : Prop where
  log : WorkAdded a l l'
  others : OthersClean a w w'
  won : Won k l' → Won k l

/-- A run that has done nothing leaves nothing. -/
theorem Before.refl (k : Pk) (a : Alias) (l : WrapperLog) (w : Wrappers) : Before k a l w l w :=
  ⟨.refl a l, .refl a w, id⟩

/-- Two parts without a lease leave what one of them would. -/
theorem Before.trans {l'' : WrapperLog} {w'' : Wrappers} (h : Before k a l w l' w')
    (h' : Before k a l' w' l'' w'') : Before k a l w l'' w'' :=
  ⟨h.log.trans h'.log, h.others.trans h'.others, fun hwon => h.won (h'.won hwon)⟩

/-- A request of work that does not win the lease. -/
theorem before_of_sem {op : Req} {r : Except Exn op.Ans} (hop : op.worksAt a)
    (hlost : ∀ s s', (⟨op, r, w, w'⟩ : Taken Req Req.Ans Exn Wrappers) ≠
      ⟨.leaseUpsert k, .ok true, s, s'⟩) (hsem : wrapperSem a op w r w') :
    Before k a l w (⟨op, r, w, w'⟩ :: l) w' := by
  refine ⟨(WorkAdded.refl a l).cons hop, (stepLeaves_of_work op hop hsem).others, ?_⟩
  rintro ⟨s, s', hmem⟩
  rcases List.mem_cons.mp hmem with heq | hmem
  · exact absurd heq.symm (hlost s s')
  · exact ⟨s, s', hmem⟩

/-- Work other than the upsert of the lease. -/
def Req.looksAt (a : Alias) (op : Req) : Prop := op.worksAt a ∧ ∀ k, op ≠ .leaseUpsert k

/-- Work other than the upsert of the lease leaves a run without it. -/
theorem before_of_looksAt (op : Req) {r : Except Exn op.Ans} (hop : op.looksAt a)
    (hsem : wrapperSem a op w r w') : Before k a l w (⟨op, r, w, w'⟩ :: l) w' := by
  refine before_of_sem hop.1 (fun s s' heq => ?_) hsem
  exact hop.2 k (congrArg Taken.op heq)

private theorem before_of_only {α : Type} {x : Prog α} (hx : x.Only (Req.looksAt a)) :
    x.Ensures (wrapperSem a) (fun _ _ => True) l w fun l' w' _ => Before k a l w l' w' := by
  refine hx.ensures (fun l' w' op r w'' hop h hsem => ⟨trivial, ?_⟩) (Before.refl k a l w)
  exact h.trans (before_of_looksAt op hop hsem)

private theorem looksAt_of_noopShortcut (ha : row.shard.dbAlias = a) :
    (noopShortcut row opts c).Only (Req.looksAt a) := by
  have hmigrates : (noopShortcut row opts c).Only (Req.migrates 0 (· = a)) :=
    (noopShortcut_within ha).only.mono fun _ h => h.migrates
  refine ((noopShortcut_looks row opts c).and hmigrates).mono fun op hop => ?_
  cases op with
  | shard b q => exact ⟨hop.2, nofun⟩
  | closeShard b => exact ⟨hop.2, nofun⟩
  | load pk' => exact ⟨trivial, nofun⟩
  | leaseHolder k' => exact ⟨trivial, nofun⟩
  | codeOlderThanDb => exact ⟨trivial, nofun⟩
  | _ => exact hop.1.elim

/-- How `lease_acquire` ends: without the lease, or with it and nothing running on the alias. -/
inductive AcquireLeaves (k : Pk) (a : Alias) (l : WrapperLog) (w : Wrappers) (l' : WrapperLog)
    (w' : Wrappers) : Except Exn (Option String) → Prop
  | locked (msg : String) (before : Before k a l w l' w') : AcquireLeaves k a l w l' w' (.ok (some msg))
  | raised (e : Exn) (before : Before k a l w l' w') : AcquireLeaves k a l w l' w' (.error e)
  | acquired (log : WorkAdded a l l') (others : OthersClean a w w') (quiet : (w' a).busy = false) :
    AcquireLeaves k a l w l' w' (.ok none)

/-- Acquiring a lease ends in one of the ways of `AcquireLeaves`. -/
theorem leaseAcquire_before (k : Pk) (l : WrapperLog) (w : Wrappers) :
    (leaseAcquire k a).Ensures (wrapperSem a) (fun _ _ => True) l w (AcquireLeaves k a l w) := by
  have hholder : ∀ l' w' (f : Option LeaseHolder → String), Before k a l w l' w' →
      (do let h ← leaseHolder k
          Pure.pure (some (f h)) : Prog (Option String)).Ensures (wrapperSem a) (fun _ _ => True)
        l' w' (AcquireLeaves k a l w) := by
    intro l' w' f hbefore
    refine ensures_bind.mpr (ensures_request.mpr fun r w'' hsem => ⟨trivial, ?_⟩)
    have hafter := hbefore.trans (before_of_looksAt (.leaseHolder k) ⟨trivial, fun _ h => by cases h⟩ hsem)
    cases r with
    | ok h => exact .locked _ hafter
    | error e => exact .raised e hafter
  rw [leaseAcquire]
  refine ensures_bind.mpr (ensures_bind.mpr (ensures_attempt.mpr (ensures_request.mpr ?_)))
  intro check w₁ hcheck
  refine ⟨trivial, ?_⟩
  have hchecked : Before k a l w _ w₁ :=
    before_of_looksAt (.shard a (.sessionActive k)) ⟨rfl, fun _ h => by cases h⟩ hcheck
  cases check with
  | error e =>
    simp only [onOutcome_ok]
    split
    · exact .raised _ hchecked
    · split
      · exact .raised _ hchecked
      · exact .raised _ hchecked
  | ok busy =>
    cases busy with
    | some busy => exact hholder _ _ _ hchecked
    | none =>
      have hquiet : (w₁ a).busy = false := by
        obtain ⟨y, rfl, hy⟩ := hcheck
        cases hbusy : y.busy with
        | false => exact (congrArg Wrapper.busy (Function.update_self ..)).trans hbusy
        | true =>
          obtain ⟨e, he, _⟩ := hy.busy hbusy
          cases he
      refine ensures_bind.mpr (ensures_request.mpr fun won w₂ hwon => ⟨trivial, ?_⟩)
      have hleaves := stepLeaves_of_work (.leaseUpsert k) trivial hwon
      cases won with
      | error e => exact .raised e (hchecked.trans (before_of_sem trivial (fun s s' h => by cases h) hwon))
      | ok won =>
        cases won with
        | false =>
          exact hholder _ _ _ (hchecked.trans (before_of_sem trivial (fun s s' h => by cases h) hwon))
        | true =>
          refine .acquired (hchecked.log.cons trivial) (hchecked.others.trans hleaves.others) ?_
          cases hbusy : (w₂ a).busy with
          | false => rfl
          | true =>
            rcases hleaves.busy hbusy with h | ⟨e, he, _⟩
            · rw [hquiet] at h
              cases h
            · cases he

/-! ### Whole runs -/

/-- What a run leaves once it has won its lease. -/
def RunLeaves (k : Pk) (a : Alias) (l : WrapperLog) (w : Wrappers) (l' : WrapperLog)
    (w' : Wrappers) (r : Except Exn Result) : Prop :=
  Won k l' → ∃ l₀ w₀, WorkAdded a l l₀ ∧ OthersClean a w w₀ ∧ LeavesBehind k a l₀ w₀ l' w' r

/-- A run that has not won its lease has nothing to leave behind. -/
theorem Before.runLeaves {r : Except Exn Result} (h : Before k a l w l' w') (hl : ¬ Won k l) :
    RunLeaves k a l w l' w' r := fun hwon => absurd (h.won hwon) hl

/-- A run may have gone on for a while before it comes to the lease. -/
theorem RunLeaves.of_before {l₁ : WrapperLog} {w₁ : Wrappers} (hbefore : Before k a l w l₁ w₁)
    (h : RunLeaves k a l₁ w₁ l' w' r) : RunLeaves k a l w l' w' r := by
  intro hwon
  obtain ⟨l₀, w₀, hlog, hothers, hbehind⟩ := h hwon
  exact ⟨l₀, w₀, hbefore.log.trans hlog, hbefore.others.trans hothers, hbehind⟩

private theorem withLease_runLeaves (hl : ¬ Won pk l) (hc : c.dbAlias = a) :
    (withLease pk opts c).Ensures (wrapperSem a) (fun _ _ => True) l w (RunLeaves pk a l w) := by
  subst hc
  refine ensures_bind.mpr (ensures_attempt.mpr ((leaseAcquire_before pk l w).mono ?_))
  intro l' w' r h
  simp only [onOutcome_ok]
  cases h with
  | locked msg hbefore => exact hbefore.runLeaves hl
  | raised e hbefore =>
    dsimp only
    split
    · exact hbefore.runLeaves hl
    · split
      · exact hbefore.runLeaves hl
      · split
        · exact hbefore.runLeaves hl
        · exact hbefore.runLeaves hl
  | acquired hlog hothers hquiet =>
    refine (steady_leavesBehind leasedBody_steady hquiet).mono fun l'' w'' r' h' => ?_
    exact fun _ => ⟨l', w', hlog, hothers, h'⟩

private theorem migrateLoaded_runLeaves (hl : ¬ Won pk l) (ha : row.shard.dbAlias = a) :
    (migrateLoaded pk opts row).Ensures (wrapperSem a) (fun _ _ => True) l w
      (RunLeaves pk a l w) := by
  rw [migrateLoaded]
  split
  · exact (Before.refl pk a l w).runLeaves hl
  · split
    · exact (Before.refl pk a l w).runLeaves hl
    · refine ensures_bind.mpr ((before_of_only (k := pk) (looksAt_of_noopShortcut ha)).mono ?_)
      intro l' w' r hbefore
      have hl' : ¬ Won pk l' := fun hwon => hl (hbefore.won hwon)
      cases r with
      | error e => exact hbefore.runLeaves hl
      | ok first =>
        cases first with
        | some res => exact hbefore.runLeaves hl
        | none =>
          exact (withLease_runLeaves hl' ha).mono fun l'' w'' r' h => h.of_before hbefore

private theorem migrateTenant_runLeaves (hl : ¬ Won pk l) :
    (migrateTenant pk opts).Ensures (wrapperSem a) (fun _ _ => True) l w (RunLeaves pk a l w) := by
  refine ensures_bind.mpr (ensures_attempt.mpr (ensures_request.mpr fun r w' hsem => ⟨trivial, ?_⟩))
  have hbefore : Before pk a l w _ w' := before_of_looksAt (.load pk) ⟨trivial, nofun⟩ hsem
  have hl' : ¬ Won pk (⟨.load pk, r, w, w'⟩ :: l) := fun hwon => hl (hbefore.won hwon)
  cases r with
  | error e =>
    simp only [onOutcome_ok]
    split
    · exact hbefore.runLeaves hl
    · split
      · exact hbefore.runLeaves hl
      · exact hbefore.runLeaves hl
  | ok found =>
    cases found with
    | none => exact hbefore.runLeaves hl
    | some row =>
      exact (migrateLoaded_runLeaves hl' (hsem.1 row rfl)).mono fun l'' w'' r' h =>
        h.of_before hbefore

private theorem migrateShared_runLeaves (hl : ¬ Won 0 l) :
    (migrateShared (.ok true) opts).Ensures (wrapperSem "default") (fun _ _ => True) l w
      (RunLeaves 0 "default" l w) := by
  refine ensures_bind.mpr (ensures_attempt.mpr (ensures_bind.mpr ?_))
  rw [ensures_done, onOutcome_ok, if_pos rfl]
  refine ensures_bind.mpr ((leaseAcquire_before 0 l w).mono fun l' w' r h => ?_)
  cases h with
  | locked msg hbefore => exact hbefore.runLeaves hl
  | raised e hbefore =>
    simp only [onOutcome_error, onOutcome_ok]
    split
    · exact hbefore.runLeaves hl
    · split
      · exact hbefore.runLeaves hl
      · exact hbefore.runLeaves hl
  | acquired hlog hothers hquiet =>
    simp only [onOutcome_ok, ensures_pure]
    refine Ensures.mono (steady_leavesBehind sharedBody_steady hquiet) fun l'' w'' r' h' => ?_
    exact fun _ => ⟨l', w', hlog, hothers, h'⟩

/-- The runs that work under a lease. -/
inductive LeasedRun : Prog Result → Pk → Alias → Prop
  | tenant (pk : Pk) (opts : RunOptions) (a : Alias) : LeasedRun (migrateTenant pk opts) pk a
  | shared (opts : RunOptions) : LeasedRun (migrateShared (.ok true) opts) 0 "default"

/-- A run that works under a lease leaves behind what it should. -/
theorem LeasedRun.leaves {x : Prog Result} {r : Except Exn Result} (hx : LeasedRun x k a)
    (h : Exec (wrapperSem a) x w₀ l (.done r) w) : RunLeaves k a [] w₀ l w r := by
  have hnil : ∀ k, ¬ Won k [] := by
    rintro k ⟨s, s', hmem⟩
    cases hmem
  cases hx with
  | tenant opts => exact h.outcome (R := fun _ _ => True) trivial (migrateTenant_runLeaves (hnil k))
  | shared opts => exact h.outcome (R := fun _ _ => True) trivial (migrateShared_runLeaves (hnil 0))

/-! ### The rule of the exit -/

/-- A statement was running on the connection when the clean-up began. -/
def BusyAtExit (a : Alias) (l : WrapperLog) : Prop :=
  ∃ x ∈ l, x.op = .shardIdle a ∧ (x.pre a).busy = true

/-- How often the release of the lease was attempted. -/
def releases (k : Pk) (l : WrapperLog) : Nat := l.countP fun x => decide (x.op = .leaseRelease k)

/-- What a run that has acquired its lease has to leave behind. -/
structure LeavesRight (k : Pk) (a : Alias) (w₀ : Wrappers) (l : WrapperLog) (w : Wrappers)
    (r : Except Exn Result) : Prop where
  /-- No later user of an alias inherits the settings or the schema of this run. -/
  clean : ∀ b, b = a ∨ (w₀ b).Clean → (w b).Clean
  /-- The shard is closed before the lease is released. -/
  closed_first : ∀ x ∈ l, x.op = .leaseRelease k → (x.pre a).opened = false
  /-- An exception that leaves a statement running leaves the lease alone. -/
  kept : (∃ e, r = .error e) → BusyAtExit a l → releases k l = 0
  /-- In every other case the release is attempted exactly once. -/
  released : (∀ e, r ≠ .error e) ∨ ¬ BusyAtExit a l → releases k l = 1

/-- The requests of the clean-up: those since the idle test, newest first. -/
def exitCalls (a : Alias) : WrapperLog → WrapperLog
  | [] => []
  | x :: l => if x.op = .shardIdle a then [x] else x :: exitCalls a l

/-- No interrupt hits the idle test or the session reset of the clean-up; or one hits the idle
test when a statement was running on a connection that leaves nothing to inherit. -/
def Uninterrupted (a : Alias) (l : WrapperLog) : Prop :=
  (∀ x ∈ exitCalls a l, x.Raised → ∃ k, x.op = .leaseRelease k) ∨
    ∃ x ∈ exitCalls a l, x.op = .shardIdle a ∧ x.Raised ∧ (x.pre a).busy = true ∧ (x.pre a).Clean

/-- The work before the clean-up neither tests for idleness nor releases the lease. -/
theorem WorkAdded.not_exit {x : Taken Req Req.Ans Exn Wrappers} (h : WorkAdded a [] l)
    (hx : x ∈ l) : (∀ b, x.op ≠ .shardIdle b) ∧ ∀ k, x.op ≠ .leaseRelease k := by
  obtain ⟨mid, rfl, hmid⟩ := h
  rw [List.append_nil] at hx
  have hop := hmid x hx
  constructor
  · intro b hb
    rw [hb] at hop
    exact hop
  · intro k hk
    rw [hk] at hop
    exact hop

/-- Steady work does not release the lease. -/
theorem WorkAdded.releases_eq_zero (h : WorkAdded a [] l) : releases k l = 0 := by
  rw [releases, List.countP_eq_zero]
  intro x hx
  simp only [decide_eq_true_eq]
  exact (h.not_exit hx).2 k

/-- Steady work does not begin the clean-up. -/
theorem WorkAdded.not_busyAtExit (h : WorkAdded a [] l) : ¬ BusyAtExit a l := by
  rintro ⟨x, hx, hop, _⟩
  exact (h.not_exit hx).1 a hop

/-- A statement was running when the clean-up began, now or before. -/
@[simp] theorem busyAtExit_cons {x : Taken Req Req.Ans Exn Wrappers} :
    BusyAtExit a (x :: l) ↔ (x.op = .shardIdle a ∧ (x.pre a).busy = true) ∨ BusyAtExit a l := by
  simp only [BusyAtExit, List.mem_cons, exists_eq_or_imp]

/-- A further request counts as a release if it is one. -/
@[simp] theorem releases_cons {x : Taken Req Req.Ans Exn Wrappers} :
    releases k (x :: l) = releases k l + if x.op = .leaseRelease k then 1 else 0 := by
  simp only [releases, List.countP_cons, decide_eq_true_eq]

/-- The idle test begins the clean-up. -/
@[simp] theorem exitCalls_idle {x : Taken Req Req.Ans Exn Wrappers} (h : x.op = .shardIdle a) :
    exitCalls a (x :: l) = [x] := by
  rw [exitCalls, if_pos h]

/-- Any other request belongs to the clean-up that was begun. -/
@[simp] theorem exitCalls_cons {x : Taken Req Req.Ans Exn Wrappers} (h : x.op ≠ .shardIdle a) :
    exitCalls a (x :: l) = x :: exitCalls a l := by
  rw [exitCalls, if_neg h]

section Cases

variable {l₁ : WrapperLog} {w₁ : Wrappers} {r r' : Except Exn Result}

/-- An interrupted idle test leaves things right only where the lease had to be kept and there
was nothing to inherit. -/
theorem leavesRight_idleCut (e : Exn) (hwork : WorkAdded a [] l₁) (hothers : OthersClean a w₀ w₁) :
    LeavesRight k a w₀ (⟨.shardIdle a, .error e, w₁, w₁⟩ :: l₁) w₁ (.error e) ↔
      Uninterrupted a (⟨.shardIdle a, .error e, w₁, w₁⟩ :: l₁) := by
  have hnone : releases k (⟨.shardIdle a, .error e, w₁, w₁⟩ :: l₁) = 0 := by
    simp [hwork.releases_eq_zero]
  have hbusy : BusyAtExit a (⟨.shardIdle a, .error e, w₁, w₁⟩ :: l₁) ↔ (w₁ a).busy = true := by
    simp [hwork.not_busyAtExit]
  constructor
  · intro h
    refine .inr ⟨⟨.shardIdle a, .error e, w₁, w₁⟩, by simp, rfl, ⟨e, rfl⟩, ?_,
      h.clean a (.inl rfl)⟩
    by_contra hquiet
    have hone := h.released (.inr fun hb => hquiet (hbusy.mp hb))
    omega
  · rintro (h | ⟨x, hx, _, _, hrunning, hclean⟩)
    · obtain ⟨k', hk'⟩ := h ⟨.shardIdle a, .error e, w₁, w₁⟩ (by simp) ⟨e, rfl⟩
      cases hk'
    · simp only [exitCalls_idle, List.mem_singleton] at hx
      subst hx
      refine ⟨?_, ?_, fun _ _ => hnone, ?_⟩
      · rintro b (rfl | hb)
        · exact hclean
        · by_cases hba : b = a
          · subst hba
            exact hclean
          · exact hothers b hba hb
      · intro x hx hop
        rcases List.mem_cons.mp hx with rfl | hx
        · cases hop
        · exact absurd hop ((hwork.not_exit hx).2 k)
      · rintro (h | h)
        · exact absurd rfl (h e)
        · exact absurd (hbusy.mpr hrunning) h

/-- An interrupted session reset leaves the lease behind with nothing running. -/
theorem leavesRight_closeCut (e : Exn) (idle : Bool) (w' : Wrappers) (hwork : WorkAdded a [] l₁)
    (hquiet : (w₁ a).busy = false) :
    LeavesRight k a w₀ (⟨.closeShard a, .error e, w₁, w'⟩ :: ⟨.shardIdle a, .ok idle, w₁, w₁⟩ :: l₁)
        w' (.error e) ↔
      Uninterrupted a (⟨.closeShard a, .error e, w₁, w'⟩ :: ⟨.shardIdle a, .ok idle, w₁, w₁⟩ :: l₁) := by
  constructor
  · intro h
    have hone := h.released (.inr (by simp [hquiet, hwork.not_busyAtExit]))
    simp [hwork.releases_eq_zero] at hone
  · rintro (h | ⟨x, hx, hop, ⟨e', hraised⟩, _⟩)
    · obtain ⟨k', hk'⟩ := h ⟨.closeShard a, .error e, w₁, w'⟩ (by simp) ⟨e, rfl⟩
      cases hk'
    · simp only [ne_eq, reduceCtorEq, not_false_eq_true, exitCalls_cons, exitCalls_idle,
        List.mem_cons, List.not_mem_nil, or_false] at hx
      rcases hx with rfl | rfl
      · cases hop
      · cases hraised

/-- The clean-up has closed the wrapper of the alias. -/
theorem clean_of_exit (hothers : OthersClean a w₀ w₁) (hclean : (w a).Clean)
    (hkept : OthersClean a w₁ w) : ∀ b, b = a ∨ (w₀ b).Clean → (w b).Clean := by
  intro b hb
  by_cases hba : b = a
  · subst hba
    exact hclean
  · exact hkept b hba (hothers b hba (hb.resolve_left hba))

/-- A clean-up that keeps the lease leaves things right. -/
theorem leavesRight_kept (e : Exn) (idle : Bool) (hwork : WorkAdded a [] l₁)
    (hothers : OthersClean a w₀ w₁) (hbusy : (w₁ a).busy = true) :
    LeavesRight k a w₀ (⟨.closeShard a, .ok (), w₁, Function.update w₁ a .shut⟩ ::
        ⟨.shardIdle a, .ok idle, w₁, w₁⟩ :: l₁) (Function.update w₁ a .shut) (.error e) := by
  refine ⟨clean_of_exit hothers ?_ (OthersClean.update w₁ .shut), ?_, ?_, ?_⟩
  · rw [Function.update_self]
    exact Wrapper.shut_clean
  · intro x hx hop
    rcases List.mem_cons.mp hx with rfl | hx
    · cases hop
    · rcases List.mem_cons.mp hx with rfl | hx
      · cases hop
      · exact absurd hop ((hwork.not_exit hx).2 k)
  · intro _ _
    simp [hwork.releases_eq_zero]
  · rintro (h | h)
    · exact absurd rfl (h e)
    · exact absurd (by simp [hbusy]) h

/-- A clean-up that releases the lease leaves things right. -/
theorem leavesRight_released (idle : Bool) (answer : Except Exn Bool) (w' : Wrappers)
    (hwork : WorkAdded a [] l₁) (hothers : OthersClean a w₀ w₁) (hquiet : (w₁ a).busy = false)
    (hclean : (w' a).Clean) (hkept : OthersClean a w₁ w') :
    LeavesRight k a w₀ (⟨.leaseRelease k, answer, Function.update w₁ a .shut, w'⟩ ::
        ⟨.closeShard a, .ok (), w₁, Function.update w₁ a .shut⟩ ::
          ⟨.shardIdle a, .ok idle, w₁, w₁⟩ :: l₁) w' r' := by
  refine ⟨clean_of_exit hothers hclean hkept, ?_, ?_, ?_⟩
  · intro x hx hop
    rcases List.mem_cons.mp hx with rfl | hx
    · change (Function.update w₁ a Wrapper.shut a).opened = false
      rw [Function.update_self]
      rfl
    · rcases List.mem_cons.mp hx with rfl | hx
      · cases hop
      · rcases List.mem_cons.mp hx with rfl | hx
        · cases hop
        · exact absurd hop ((hwork.not_exit hx).2 k)
  · intro _ hbusy
    simp [hquiet, hwork.not_busyAtExit] at hbusy
  · intro _
    simp [hwork.releases_eq_zero]

/-- The clean-up leaves things right exactly when it is not interrupted. -/
theorem Leaving.leavesRight_iff (h : Leaving k a l₁ w₁ r l w r') (hwork : WorkAdded a [] l₁)
    (hothers : OthersClean a w₀ w₁) : LeavesRight k a w₀ l w r' ↔ Uninterrupted a l := by
  cases h with
  | idleCut e => exact leavesRight_idleCut e hwork hothers
  | closeCut e idle w' hquiet => exact leavesRight_closeCut e idle w hwork hquiet
  | kept idle e hraised hbusy =>
    subst hraised
    refine iff_of_true (leavesRight_kept e idle hwork hothers hbusy) (.inl ?_)
    rintro x hx ⟨e', hraised⟩
    simp only [ne_eq, reduceCtorEq, not_false_eq_true, exitCalls_cons, exitCalls_idle,
      List.mem_cons, List.not_mem_nil, or_false] at hx
    rcases hx with rfl | rfl <;> cases hraised
  | released idle answer w' r' hquiet hclean hkept =>
    refine iff_of_true (leavesRight_released idle answer w hwork hothers hquiet hclean hkept) (.inl ?_)
    rintro x hx ⟨e', hraised⟩
    simp only [ne_eq, reduceCtorEq, not_false_eq_true, exitCalls_cons, exitCalls_idle,
      List.mem_cons, List.not_mem_nil, or_false] at hx
    rcases hx with rfl | rfl | rfl
    · exact ⟨k, rfl⟩
    · cases hraised
    · cases hraised

end Cases

/-- `lease_release` frees no lease of another key, and none of another process. -/
theorem leaseRelease_frees_own {p : Pid} {s s' : World} {answer : Except Exn Bool} {k' : Pk}
    (h : machine.exec p (.leaseRelease k) s answer s') (hfreed : s'.lease k' ≠ s.lease k') :
    k' = k ∧ s.leaseOwner k = some p := by
  cases acts_leaseChange k' (l := .answer p (.leaseRelease k) answer) h with
  | kept hrow => exact absurd hrow hfreed
  | taken q r hl _ _ _ => cases hl
  | released q o hl howner _ _ =>
    rcases hl with ⟨rfl, _, hl⟩ | ⟨_, hl⟩
    · cases hl
      exact ⟨rfl, howner⟩
    · cases hl
  | inserted q x hl _ _ _ =>
    obtain ⟨_, hl⟩ := hl
    cases hl

/-- For every run of `migrate_tenant` whose tenant stays on its shard, and every run of
`migrate_shared`, whatever its calls return or raise: once it has won its lease, it leaves the
wrappers and the lease right if and only if its clean-up is not interrupted; and the release
never frees the lease of another process. -/
theorem exit_right_iff {x : Prog Result} {r : Except Exn Result} (hx : LeasedRun x k a)
    (h : Exec (wrapperSem a) x w₀ l (.done r) w) (hwon : Won k l) :
    (LeavesRight k a w₀ l w r ↔ Uninterrupted a l) ∧
      ∀ p s answer s', machine.exec p (.leaseRelease k) s answer s' →
        ∀ k', s'.lease k' ≠ s.lease k' → k' = k ∧ s.leaseOwner k = some p := by
  obtain ⟨l₀, w₁, hlog, hothers, l₁, w₂, r₁, hsteady, hleaving⟩ := hx.leaves h hwon
  refine ⟨hleaving.leavesRight_iff (hlog.trans hsteady.log) (hothers.trans hsteady.others), ?_⟩
  exact fun p s answer s' hexec k' hfreed => leaseRelease_frees_own hexec hfreed

/-! ### Two exits -/

/-- Every wrapper as `_close_shard` leaves it. -/
def allShut : Wrappers := fun _ => .shut

/-- The shard of the tenant has an open connection. -/
def shardOpen (armed onPublic : Bool) : Wrappers :=
  Function.update allShut "shard1" ⟨true, armed, false, onPublic⟩

/-- A statement on `default` that leaves no trace. -/
theorem default_unchanged {op : Req} {r : Except Exn op.Ans} {armed onPublic : Bool} :
    ∃ y, shardOpen armed onPublic = Function.update (shardOpen armed onPublic) "default" y ∧
      Changed op r (shardOpen armed onPublic "default") y :=
  ⟨_, (Function.update_eq_self ..).symm, fun h => .inl h, fun h => .inl h, nofun⟩

/-- A statement on the shard. -/
theorem shard_statement {op : Req} {r : Except Exn op.Ans} {armed armed' onPublic onPublic' : Bool}
    (harmed : armed' = true → armed = true ∨ op.arms = true)
    (hpublic : onPublic' = false → onPublic = false ∨ op.pointsAway = true) :
    ∃ y, shardOpen armed' onPublic' = Function.update (shardOpen armed onPublic) "shard1" y ∧
      Changed op r (shardOpen armed onPublic "shard1") y :=
  ⟨⟨true, armed', false, onPublic'⟩, (Function.update_idem ..).symm, harmed, hpublic, nofun⟩

/-- `KeyboardInterrupt`. -/
def keyboardInterrupt : Exn := ⟨.external "KeyboardInterrupt", "", "", "", false, false, true⟩

/-- A migration that is interrupted after the run has armed its shard session and has pointed
the connection at the tenant's schema. -/
theorem interrupted_run : ∃ l,
    Exec (wrapperSem "shard1") (migrateTenant 1 .defaults) allShut l
      ((leasedExit 1 "shard1" false).bind fun _ => .done (.error keyboardInterrupt))
      (shardOpen true false) ∧
      Won 1 l ∧ (∀ x ∈ l, x.op ≠ .shardIdle "shard1") ∧ releases 1 l = 0 := by
  have r0 : Exec (wrapperSem "shard1") (migrateTenant 1 .defaults) allShut [] _ allShut := .start
  have r1 := r0.answer (.load 1) (.ok (some acme)) allShut
    ⟨by simp [acme], .shut, (Function.update_eq_self ..).symm, nofun, nofun, nofun⟩ rfl
  have r2 := r1.answer (.shard "shard1" (.sessionActive 1)) (.ok none) (shardOpen false true)
    ⟨⟨true, false, false, true⟩, rfl, nofun, nofun, nofun⟩ rfl
  have r3 := r2.answer (.leaseUpsert 1) (.ok true) (shardOpen false true) default_unchanged rfl
  have r4 := r3.answer (.load 1) (.ok (some acme)) (shardOpen false true)
    ⟨by simp [acme], default_unchanged⟩ rfl
  have r5 := r4.answer .codeOlderThanDb (.ok false) (shardOpen false true) default_unchanged rfl
  have r6 := r5.answer (.shard "shard1" (.schemaHasRelations "acme")) (.ok false)
    (shardOpen false true) (shard_statement nofun nofun) rfl
  have r7 := r6.answer (.fencedCas 1 provisionable ⟨.pending, .new, ""⟩) (.ok true)
    (shardOpen false true) default_unchanged rfl
  have r8 := r7.answer (.shard "shard1" (.createSchema "acme")) (.ok ()) (shardOpen false true)
    (shard_statement nofun nofun) rfl
  have r9 := r8.answer (.shard "shard1" (.openShard 1)) (.ok ()) (shardOpen true true)
    (shard_statement (fun _ => .inr rfl) nofun) rfl
  have r10 := r9.answer
    (.shard "shard1" (.runMigrations (RunOptions.defaults.upstream "shard1") "acme"))
    (.error keyboardInterrupt) (shardOpen true false)
    (shard_statement (fun _ => .inl rfl) fun _ => .inr rfl) rfl
  exact ⟨_, r10, ⟨shardOpen false true, shardOpen false true, by simp⟩, by simp, by simp [releases]⟩

/-- Without a second interrupt the clean-up resets the session, closes the shard and then
releases the lease. -/
theorem exit_right_interrupted : ∃ l w,
    Exec (wrapperSem "shard1") (migrateTenant 1 .defaults) allShut l
      (.done (.error keyboardInterrupt)) w ∧ Won 1 l ∧ w "shard1" = .shut ∧ releases 1 l = 1 ∧
      LeavesRight 1 "shard1" allShut l w (.error keyboardInterrupt) := by
  obtain ⟨l, hrun, hwon, _, hreleases⟩ := interrupted_run
  have r11 := hrun.answer (.shardIdle "shard1") (.ok true) (shardOpen true false) ⟨rfl, rfl⟩ rfl
  have r12 := r11.answer (.closeShard "shard1") (.ok ()) _ rfl rfl
  have r13 := r12.answer (.leaseRelease 1) (.ok true) _ ⟨.shut, rfl, nofun, nofun, nofun⟩ rfl
  have hright := (exit_right_iff (.tenant 1 .defaults "shard1") r13
    (((hwon.cons _).cons _).cons _)).1
  refine ⟨_, _, r13, ((hwon.cons _).cons _).cons _, rfl, by simpa [releases] using hreleases,
    hright.mpr (.inl ?_)⟩
  rintro x hx ⟨e, hraised⟩
  simp only [ne_eq, reduceCtorEq, not_false_eq_true, exitCalls_cons, exitCalls_idle,
    List.mem_cons, List.not_mem_nil, or_false] at hx
  rcases hx with rfl | rfl | rfl <;> cases hraised

/-- A first interrupt ends the migration, a second one the session reset of the clean-up: the
connection stays open with the migrator's settings and on the tenant's schema, and the lease
is not released although nothing is running. -/
theorem exit_interrupted_in_reset : ∃ l w,
    Exec (wrapperSem "shard1") (migrateTenant 1 .defaults) allShut l
      (.done (.error keyboardInterrupt)) w ∧ Won 1 l ∧ ¬ BusyAtExit "shard1" l ∧
      releases 1 l = 0 ∧ w "shard1" = ⟨true, true, false, false⟩ ∧
      ¬ LeavesRight 1 "shard1" allShut l w (.error keyboardInterrupt) := by
  obtain ⟨l, hrun, hwon, hidle, hreleases⟩ := interrupted_run
  have r11 := hrun.answer (.shardIdle "shard1") (.ok true) (shardOpen true false) ⟨rfl, rfl⟩ rfl
  have r12 := r11.answer (.closeShard "shard1") (.error keyboardInterrupt) (shardOpen true false)
    ⟨rfl, rfl, rfl, _, (Function.update_eq_self ..).symm, fun h => h, rfl⟩ rfl
  refine ⟨_, _, r12, (hwon.cons _).cons _, ?_,
    by simpa [releases] using hreleases, rfl, ?_⟩
  · rintro ⟨x, hx, hop, hbusy⟩
    rcases List.mem_cons.mp hx with rfl | hx
    · cases hop
    · rcases List.mem_cons.mp hx with rfl | hx
      · cases hbusy
      · exact hidle x hx hop
  · intro h
    have hpublic := (h.clean "shard1" (.inl rfl)).2
    cases hpublic

end MtShards.Migrator
