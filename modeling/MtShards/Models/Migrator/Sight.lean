import MtShards.Models.Migrator.Inventory
import MtShards.Models.Migrator.StatusMachine

/-!
# What a writer of a status was told before

The migrator and the admin change a status only from the value that they were told last. The
console does not: `activate` asks the reactivation stopper only when the row that it has loaded
is DEACTIVATED, and sends its conditional `UPDATE` in any case. It then changes a status that it
was not told if another writer has moved the row to the action's `from_status` in between, and
in no other way.
-/

namespace MtShards.Migrator

open MtShards.Core Program

variable {pk : Pk} {p : Pid} {t : SysTrace} {s s' : World} {l : SysLabel} {a b x : Status}

/-! ### What a process was told -/

/-- The latest answer that told `p` the status of the tenant said `a`. -/
def LastTold (p : Pid) (pk : Pk) (a : Status) (t : SysTrace) : Prop :=
  ∃ mid told rest, t = mid ++ told :: rest ∧ Tells p pk a told.label ∧
    ∀ e ∈ mid, ∀ x, ¬ Tells p pk x e.label

/-- What was seen under the lease was told last. -/
theorem SeenUnderLease.lastTold (h : SeenUnderLease p pk a t) : LastTold p pk a t := by
  obtain ⟨mid, told, rest, ht, htells, _, hmid⟩ := h
  exact ⟨mid, told, rest, ht, htells, fun e he => (hmid e he).1⟩

/-- What is told now was told last. -/
theorem LastTold.of_tells (h : Tells p pk a l) : LastTold p pk a (⟨l, s, s'⟩ :: t) :=
  ⟨[], _, t, rfl, h, fun _ he => absurd he List.not_mem_nil⟩

/-- What was told last stays so until something else is told. -/
theorem LastTold.cons (h : LastTold p pk a t) (hl : ∀ x, ¬ Tells p pk x l) :
    LastTold p pk a (⟨l, s, s'⟩ :: t) := by
  obtain ⟨mid, told, rest, rfl, htells, hmid⟩ := h
  refine ⟨⟨l, s, s'⟩ :: mid, told, rest, rfl, htells, ?_⟩
  rintro e (_ | ⟨_, he⟩)
  · exact hl
  · exact hmid e he

/-! ### A process writes a status that it was told -/

/-- What an answer tells of a status. -/
def sightNext (φ : Option (Pk × Status)) : (op : Req) → Except Exn op.Ans → Option (Pk × Status)
  | .load pk, .ok row => row.map fun t => (pk, t.status)
  | .load _, .error _ => none
  | .fencedCas pk _ w, .ok won => cond won (some (pk, w.status)) φ
  | _, _ => φ

/-- The console writes after it was told a status; the admin writes over the one it was told. -/
def sight : Protocol Req Req.Ans Exn (Option (Pk × Status)) where
  init := none
  permits
    | φ, .consoleUpdate pk _ _ => ∃ x, φ = some (pk, x)
    | φ, .adminUpdate pk old _ => φ = some (pk, old)
    | _, _ => True
  next := sightNext
  mayStop _ := True
  mayStop_init := trivial

/-- Requests other than the status writes of the console and the admin. -/
def Req.unmoved : Req → Prop
  | .consoleUpdate _ _ _ | .adminUpdate _ _ _ => False
  | _ => True

/-- Requests that neither tell a status nor write one. -/
def Req.aside : Req → Prop
  | .load _ | .fencedCas _ _ _ => False
  | op => op.unmoved

section Programs

variable {α : Type} {φ : Option (Pk × Status)} {row : Tenant} {op : Req}

/-- A request that moves nothing is permitted. -/
theorem Req.unmoved.permitted (h : op.unmoved) : sight.permits φ op := by
  cases op with
  | consoleUpdate pk source dest => exact h.elim
  | adminUpdate pk old dest => exact h.elim
  | _ => trivial

/-- A request aside moves nothing. -/
theorem Req.aside.unmoved (h : op.aside) : op.unmoved := by
  cases op with
  | load pk => exact h.elim
  | fencedCas pk expected w => exact h.elim
  | _ => exact h

/-- A request aside leaves the sight as it is. -/
theorem Req.aside.next_eq (h : op.aside) (r : Except Exn op.Ans) : sight.next φ op r = φ := by
  cases op with
  | load pk => exact h.elim
  | fencedCas pk expected w => exact h.elim
  | _ => rfl

/-- A program that writes no status may be run at any time. -/
theorem unmoved_sight {y : Prog α} (hy : y.Only Req.unmoved) :
    y.Follows sight φ fun _ _ => True :=
  hy.follows_anywhere fun _ _ hop => hop.permitted

/-- A program that is told nothing leaves what was told. -/
theorem aside_sight {y : Prog α} (hy : y.Only Req.aside) :
    y.Follows sight φ fun φ' _ => φ' = φ :=
  hy.follows fun _ hop => ⟨hop.unmoved.permitted, fun r => hop.next_eq r⟩

private theorem pendingPlan_aside (row : Tenant) : (pendingPlan row).Only Req.aside := by
  refine Only.bind (only_call trivial) fun there => ?_
  cases there with
  | true =>
    refine Only.tryFinally ?_ (only_call trivial)
    exact Only.bind (only_call trivial) fun plan => trivial
  | false => trivial

/-- The reactivation stopper makes only requests aside. -/
theorem checkReactivation_aside (row : Tenant) : (checkReactivation row).Only Req.aside := by
  refine only_guarded (only_call trivial) (fun older => ?_) fun e => ?_
  · cases older with
    | true => trivial
    | false =>
      refine only_guarded (pendingPlan_aside row) (fun plan => ?_) fun e => ?_
      · match plan with
        | none => trivial
        | some [] => trivial
        | some (_ :: _) => trivial
      · split <;> trivial
  · split <;> trivial

private theorem cleanTarget_aside (pk : Pk) (row : Tenant) (old dest : Status) :
    (cleanTarget pk row old dest).Only Req.aside := by
  rw [cleanTarget]
  split
  · exact (checkReactivation_aside row).bind fun b => trivial
  · split
    · refine Only.bind (only_call trivial) fun holder => ?_
      cases holder with
      | none => trivial
      | some h =>
        dsimp only
        split
        · exact Only.bind (only_call trivial) fun busy => trivial
        · trivial
    · trivial

/-- A form without errors that asks for a change has been told the status it starts from. -/
theorem clean_sight (sub : Submission) (row : Tenant) (hφ : φ = some (sub.pk, row.status)) :
    (clean sub row).Follows sight φ fun φ' r => r = .ok none →
      ∀ dest, sub.newStatus (sub.oldStatus row) = some dest → dest ≠ sub.oldStatus row →
        φ' = some (sub.pk, sub.oldStatus row) := by
  rw [clean]
  cases hnew : sub.newStatus (sub.oldStatus row) with
  | none =>
    intro _ dest hdest
    cases hdest
  | some dest =>
    dsimp only
    split
    · rename_i hsame
      intro _ dest' hdest hne
      exact absurd ((Option.some.inj hdest).symm.trans hsame) hne
    · rw [cleanChange]
      split
      · intro hok
        cases hok
      · rename_i hold
        have htarget := cleanTarget_aside sub.pk row (sub.oldStatus row) dest
        refine (aside_sight (htarget.bind fun e => ?_)).mono fun φ' r hφ' _ dest' _ _ => ?_
        · cases e <;> trivial
        rw [hφ', hφ, not_not.mp hold]

/-- The status write of `save_model` starts from the status that was told. -/
theorem saveStatus_sight (row : Tenant) {old dest : Status}
    (hφ : dest ≠ old → φ = some (pk, old)) :
    (saveStatus pk row old dest).Follows sight φ fun _ _ => True := by
  rw [saveStatus]
  split
  · rename_i hne
    have hrefuse : (refuseIfMigrating pk row dest).Only Req.aside := by
      rw [refuseIfMigrating]
      split
      · refine Only.bind (Only.bind (only_call trivial) fun _ => only_call trivial) fun holder => ?_
        cases holder <;> trivial
      · trivial
    refine follows_bind.mpr ((aside_sight hrefuse).mono fun φ' r hφ' => ?_)
    cases r with
    | error e => trivial
    | ok _ =>
      refine ⟨hφ'.trans (hφ hne), fun updated => unmoved_sight ?_⟩
      cases updated with
      | error e => trivial
      | ok updated => cases updated <;> trivial
  · trivial

/-- Saving the other fields moves nothing. -/
theorem saveOther_unmoved (ch : World.Changes) : (saveOther pk ch).Only Req.unmoved := by
  refine Only.bind (only_call trivial) fun saved => ?_
  split <;> trivial

private theorem saveModel_sight (sub : Submission) (row : Tenant) {old dest : Status}
    (hφ : dest ≠ old → φ = some (sub.pk, old)) :
    (saveModel sub row old dest).Follows sight φ fun _ _ => True := by
  refine follows_bind.mpr ((saveStatus_sight row hφ).mono fun φ' r _ => ?_)
  cases r with
  | error e => trivial
  | ok forgets =>
    refine unmoved_sight ?_
    split
    · trivial
    · exact (saveOther_unmoved sub.changes).bind fun _ => trivial

private theorem adminBody_sight (sub : Submission) :
    (adminBody sub).Follows sight φ fun _ _ => True := by
  refine ⟨trivial, fun loaded => ?_⟩
  match loaded with
  | .error e => trivial
  | .ok none => trivial
  | .ok (some row) =>
    change Follows sight (clean sub row >>= _) (some (sub.pk, row.status)) _
    refine follows_bind.mpr ((clean_sight sub row rfl).mono fun φ' r hr => ?_)
    match r with
    | .error e => trivial
    | .ok (some e) => trivial
    | .ok none =>
      rw [onOutcome_ok]
      dsimp only
      split
      · trivial
      · cases hnew : sub.newStatus (sub.oldStatus row) with
        | none => trivial
        | some dest =>
          refine follows_bind.mpr ((saveModel_sight sub row (hr rfl dest hnew)).mono ?_)
          intro φ'' r' _
          cases r' <;> trivial

private theorem adminChange_sight (sub : Submission) :
    (adminChange sub).Follows sight φ fun _ _ => True := by
  refine ⟨trivial, fun begun => ?_⟩
  cases begun with
  | error e => trivial
  | ok _ =>
    change Follows sight ((adminBody sub).attempt >>= _) φ _
    refine follows_bind.mpr (follows_attempt.mpr ((adminBody_sight sub).mono fun φ' r _ => ?_))
    refine unmoved_sight ?_
    cases r with
    | ok outcome =>
      refine Only.bind (only_call trivial) fun _ => ?_
      exact (forgetTimes_only trivial _).bind fun _ => trivial
    | error e =>
      refine Only.bind (only_call trivial) fun _ => ?_
      split <;> trivial

/-- The console writes after it has loaded the row, whatever status it has found in it. -/
theorem transition_sight (pk : Pk) (source dest : Status) (stopper : Bool) :
    (transition pk source dest stopper).Follows sight φ fun _ _ => True := by
  refine ⟨trivial, fun loaded => ?_⟩
  match loaded with
  | .error e => trivial
  | .ok none => trivial
  | .ok (some row) =>
    have hwrite : (transitionUpdate pk row source dest).Follows sight (some (pk, row.status))
        fun _ _ => True := by
      refine ⟨⟨row.status, rfl⟩, fun updated => unmoved_sight ?_⟩
      match updated with
      | .error e => trivial
      | .ok true =>
        change Only Req.unmoved (forget pk >>= _)
        exact Only.bind (only_call trivial) fun _ => Only.bind (only_call trivial) fun _ => trivial
      | .ok false => trivial
    change Follows sight (if _ then _ else if _ then _ else if _ then _ else _) _ _
    split
    · trivial
    · split
      · trivial
      · split
        · refine follows_bind.mpr ((aside_sight (checkReactivation_aside row)).mono fun φ' r hφ' => ?_)
          subst hφ'
          match r with
          | .error e => trivial
          | .ok (some b) => trivial
          | .ok none => exact hwrite
        · exact hwrite

private theorem serializerUpdate_unmoved (pk : Pk) (ch : World.Changes) :
    (serializerUpdate pk ch).Only Req.unmoved := by
  refine Only.bind (only_call trivial) fun found => ?_
  cases found with
  | none => trivial
  | some row =>
    dsimp only
    split
    · trivial
    · refine Only.bind (only_call trivial) fun _ => Only.bind (Only.attempt ?_) fun r => ?_
      · exact saveOther_unmoved ch
      · cases r with
        | ok _ => exact Only.bind (only_call trivial) fun _ => only_call trivial
        | error e => exact Only.bind (only_call trivial) fun _ => trivial

/-- A migrator moves nothing. -/
theorem Req.unmoved_of_migrates {A : Alias → Prop} (h : op.migrates pk A) : op.unmoved := by
  cases op with
  | consoleUpdate k source dest => exact h.elim
  | adminUpdate k old dest => exact h.elim
  | _ => trivial

/-- Every program of the system writes a status only after it was told one. -/
theorem system_sight : AllFollow sight (fun _ : Pid => Starts true) := by
  intro p prog h
  cases h with
  | migrate pk opts _ =>
    exact (unmoved_sight ((migrateTenant_migrates pk opts).mono fun _ =>
      Req.unmoved_of_migrates)).void
  | activate pk => exact (transition_sight pk _ _ _).void
  | deactivate pk => exact (transition_sight pk _ _ _).void
  | adminChange sub => exact (adminChange_sight sub).void
  | serializerUpdate pk ch => exact unmoved_sight (serializerUpdate_unmoved pk ch)
  | releaseCommand k label aliases force =>
    exact (unmoved_sight (releaseCommand_only label aliases force trivial (fun _ _ => trivial)
      fun _ => trivial)).void

end Programs

/-! ### What was told, in a run -/

/-- An answer tells a process what it comes to know, and only that. -/
theorem told_of_next {φ : Option (Pk × Status)} {op : Req} {r : Except Exn op.Ans}
    (h : sightNext φ op r = some (pk, x)) :
    Tells p pk x (.answer p op r) ∨
      (φ = some (pk, x) ∧ ∀ y, ¬ Tells p pk y (.answer p op r)) := by
  have hquiet : (∀ k, op ≠ .load k) → (∀ k expected w, op ≠ .fencedCas k expected w) →
      ∀ y, ¬ Tells p pk y (.answer p op r) := by
    rintro hload hcas y (⟨row, hl, _⟩ | ⟨expected, w, hl, _⟩)
    · cases hl
      exact hload _ rfl
    · cases hl
      exact hcas _ _ _ rfl
  cases op with
  | load k =>
    match r with
    | .ok (some row) =>
      cases h
      exact .inl (.inl ⟨row, rfl, rfl⟩)
    | .ok none => cases h
    | .error e => cases h
  | fencedCas k expected w =>
    match r with
    | .ok true =>
      cases h
      exact .inl (.inr ⟨expected, w, rfl, rfl⟩)
    | .ok false =>
      refine .inr ⟨h, ?_⟩
      rintro y (⟨_, hl, _⟩ | ⟨_, _, hl, _⟩) <;> cases hl
    | .error e =>
      refine .inr ⟨h, ?_⟩
      rintro y (⟨_, hl, _⟩ | ⟨_, _, hl, _⟩) <;> cases hl
  | _ => exact .inr ⟨h, hquiet nofun nofun⟩

/-- What a process has in sight is what it was told last. -/
theorem lastTold_of_sight {s₀ : World} {c : SysConfig} (h : SysRun s₀ t c)
    (hp : phaseAt sight p t = some (pk, x)) : LastTold p pk x t := by
  refine Run.invariant system_sight
    (fun t _ => ∀ p pk x, phaseAt sight p t = some (pk, x) → LastTold p pk x t) ?_ ?_ h.2 p pk x hp
  · intro p pk x hp
    cases hp
  · intro t s l s' hinv hm p pk x hp
    cases hm.part p with
    | other hl hphase =>
      exact (hinv p pk x (hphase.symm.trans hp)).cons fun _ htells => hl htells.actor
    | start _ hphase => exact absurd (hphase.symm.trans hp) nofun
    | inner op hl hphase =>
      subst hl
      refine (hinv p pk x (hphase.symm.trans hp)).cons ?_
      rintro y (⟨_, hl, _⟩ | ⟨_, _, hl, _⟩) <;> cases hl
    | answer op r hl hphase _ _ =>
      subst hl
      rcases told_of_next (p := p) (hphase.symm.trans hp) with htells | ⟨hbefore, hquiet⟩
      · exact .of_tells htells
      · exact (hinv p pk x hbefore).cons hquiet
    | kill _ hphase => exact absurd (hphase.symm.trans hp) nofun

/-- A transaction of the admin that has written a status was told the one it has written over. -/
theorem sight_of_written {s₀ : World} {c : SysConfig} (h : SysRun s₀ t c)
    (hp : phaseAt (protocol true) p t = .written pk (some (a, b))) :
    phaseAt sight p t = some (pk, a) := by
  obtain ⟨hquiet, hrun⟩ := h
  induction hrun with
  | nil => cases hp
  | @cons t c l c' hrun hs ih =>
    have hm := hrun.move system_follows hs
    rcases written_of_move hm hp with rfl | hbefore
    · rw [phaseAt_answer_self]
      exact (hrun.move system_sight hs).permits
    · have hkept := ih hbefore
      cases hm.part p with
      | other hl _ => exact (phaseAt_of_actor_ne hl).trans hkept
      | start _ hphase => exact absurd (hphase.symm.trans hp) nofun
      | inner op hl _ =>
        subst hl
        exact hkept
      | answer op r hl _ hop _ =>
        subst hl
        rw [hbefore] at hop
        rw [phaseAt_answer_self, hkept]
        rcases hop with rfl | rfl | ⟨ch, rfl⟩ <;> rfl
      | kill _ hphase => exact absurd (hphase.symm.trans hp) nofun

/-- The commit that changes a status ends a transaction that has written it. -/
theorem written_of_commit (hm : Move machine (protocol true) t s l s')
    (hphase : ∀ p, PhaseOk p s (phaseAt (protocol true) p t)) {r : Except Exn Unit}
    (hl : l = .answer p .commit r) (ha : s.status pk = some a) (hb : s'.status pk = some b)
    (hne : a ≠ b) : phaseAt (protocol true) p t = .written pk (some (a, b)) := by
  obtain ⟨a', ha', hstep⟩ := statusStep_of_move hm hphase hb
  obtain rfl : a = a' := Option.some.inj (ha.symm.trans ha')
  cases hstep with
  | kept hsame => exact absurd hsame hne
  | fenced _ _ _ _ _ hl' => cases hl.symm.trans hl'
  | console _ _ hl' => cases hl.symm.trans hl'
  | admin q r' hl' hwritten _ =>
    cases hl.symm.trans hl'
    exact hwritten

/-! ### Where the changes of a status start from -/

/-- The `UPDATE` of a console action does not find the row in the action's `from_status` when
the row was in another status as the action loaded it, that is, when the stopper was not asked. -/
def Unovertaken (earlier : SysTrace) (e : SysEntry) : Prop :=
  ∀ p pk source dest r x, e.label = .answer p (.consoleUpdate pk source dest) r →
    LastTold p pk x earlier → x ≠ source → e.pre.status pk ≠ some source

/-- Every status change of a trace starts from the status that its writer was told last. -/
def StartsFromLastRead (t : SysTrace) : Prop :=
  ∀ later e earlier, t = later ++ e :: earlier → ∀ pk a b p, e.pre.status pk = some a →
    e.post.status pk = some b → a ≠ b → e.label.actor = some p → LastTold p pk a earlier

/-- Where no `UPDATE` of the console has been overtaken, every committed change of a status is an
edge of its writer and starts from the status that the writer was told last. -/
theorem status_changes_from_last_told {s₀ : World} {c : SysConfig} (h : SysRun s₀ t c)
    (hover : Throughout Unovertaken t) :
    StartsFromLastRead t ∧ ∀ later e earlier, t = later ++ e :: earlier → ∀ pk a b,
      e.pre.status pk = some a → e.post.status pk = some b → a ≠ b →
        StatusMove earlier pk e.label a b ∧ (a = .maintenance ∨ b = .maintenance →
          ∃ p r, e.label = .answer p .commit r ∧ AdminMove a b) := by
  refine ⟨?_, fun later e earlier ht pk a b ha hb hne => ?_⟩
  · intro later e earlier ht pk a b p ha hb hne hactor
    subst ht
    obtain ⟨c₁, c₂, hrun, hstep, hpre, hpost⟩ := h.2.split
    have hearlier : SysRun s₀ earlier c₁ := ⟨h.1, hrun⟩
    cases (status_changes_are_moves h ha hb hne).1 with
    | migrator q expected w r hlabel _ hseen =>
      rw [hlabel] at hactor
      obtain rfl : q = p := Option.some.inj hactor
      exact hseen.lastTold
    | console q r hlabel _ =>
      rw [hlabel] at hactor hstep
      obtain rfl : q = p := Option.some.inj hactor
      obtain ⟨x, hx⟩ := (hrun.move system_sight hstep).permits
      have htold : LastTold q pk x earlier := lastTold_of_sight hearlier hx
      by_cases hxa : x = a
      · exact hxa ▸ htold
      · exact absurd ha (hover.split.1 q pk a b r x hlabel htold hxa)
    | admin q r hlabel _ _ =>
      rw [hlabel] at hactor
      obtain rfl : q = p := Option.some.inj hactor
      rw [hpre] at ha
      rw [hpost] at hb
      have hwritten := written_of_commit (hrun.move system_follows hstep) (known_of_run hearlier).phase
        hlabel ha hb hne
      exact lastTold_of_sight hearlier (sight_of_written hearlier hwritten)
  · subst ht
    exact status_changes_are_moves h ha hb hne

/-- What was told last was told. -/
theorem LastTold.told (h : LastTold p pk a t) : ∃ e ∈ t, Tells p pk a e.label := by
  obtain ⟨mid, told, rest, rfl, htells, _⟩ := h
  exact ⟨told, List.mem_append_right mid List.mem_cons_self, htells⟩

/-- A process that starts is not overtaken. -/
theorem unovertaken_start : Unovertaken t ⟨.start p, s, s'⟩ := by
  intro _ _ _ _ _ _ hl
  cases hl

/-- A process that loads a row is not overtaken. -/
theorem unovertaken_load {r : Except Exn (Option Tenant)} :
    Unovertaken t ⟨.answer p (.load pk) r, s, s'⟩ := by
  intro _ _ _ _ _ _ hl
  cases hl

/-- Two calls of the console load an ACTIVE tenant; the `UPDATE` of `activate` finds it still
ACTIVE and writes nothing, that of `deactivate` deactivates it. -/
theorem status_changes_from_last_told_deactivation : ∃ e earlier c,
    SysRun (oneTenant acmeActive) (e :: earlier) c ∧ Throughout Unovertaken (e :: earlier) ∧
      e.pre.status 1 = some .active ∧ e.post.status 1 = some .deactivated ∧
      StartsFromLastRead (e :: earlier) ∧ StatusMove earlier 1 e.label .active .deactivated := by
  have r0 : Run machine (fun _ => Starts true) (.idle (oneTenant acmeActive)) []
    (.idle (oneTenant acmeActive)) := .nil
  have r1 := r0.start "web-1:10" (.activate 1) rfl
  have r2 := r1.answer "web-1:10" (.load 1) (.ok (some acmeActive)) ⟨rfl, rfl, rfl⟩ rfl
  have r3 := r2.start "web-2:20" (.deactivate 1) rfl
  have r4 := r3.answer "web-2:20" (.load 1) (.ok (some acmeActive)) ⟨rfl, rfl, rfl⟩ rfl
  have r5 := r4.answer "web-1:10" (.consoleUpdate 1 .deactivated .active) (.ok false)
    ⟨rfl, rfl, rfl⟩ rfl
  have r6 := r5.answer "web-2:20" (.consoleUpdate 1 .active .deactivated) (.ok true)
    ⟨rfl, rfl, rfl⟩ rfl
  have hrun : SysRun (oneTenant acmeActive) (_ :: _) _ := ⟨oneTenant_quiet acmeActive, r6⟩
  refine ⟨_, _, _, hrun, ?hover, rfl, rfl, (status_changes_from_last_told hrun ?hover).1,
    ((status_changes_from_last_told hrun ?hover).2 [] _ _ rfl 1 .active .deactivated rfl rfl nofun).1⟩
  refine ⟨?_, ?_, unovertaken_load, unovertaken_start, unovertaken_load, unovertaken_start, trivial⟩
  · -- The row is ACTIVE when `deactivate` writes, and it was ACTIVE when `deactivate` loaded it.
    intro p pk source dest r x hl htold hne _
    cases hl
    obtain ⟨e, he, htells⟩ := htold.told
    simp only [List.mem_cons, List.not_mem_nil, or_false] at he
    rcases he with rfl | rfl | rfl | rfl | rfl
    · exact absurd htells.actor (by decide)
    · rcases htells with ⟨row, hl, hrow⟩ | ⟨expected, w, hl, _⟩ <;> cases hl
      exact hne hrow.symm
    · rcases htells with ⟨row, hl, _⟩ | ⟨expected, w, hl, _⟩ <;> cases hl
    · exact absurd htells.actor (by decide)
    · exact absurd htells.actor (by decide)
  · -- The row is ACTIVE when `activate` writes.
    intro p pk source dest r x hl _ _ hstatus
    cases hl
    cases hstatus

/-- `activate` reads ACTIVE; another call deactivates the tenant; the conditional update of the
first call then finds DEACTIVATED and activates the tenant again, over a change that it has
not seen. -/
theorem activate_over_unseen_deactivation :
    ∃ t c, SysRun (oneTenant acmeActive) t c ∧ ¬ StartsFromLastRead t := by
  have r0 : Run machine (fun _ => Starts true) (.idle (oneTenant acmeActive)) []
    (.idle (oneTenant acmeActive)) := .nil
  have r1 := r0.start "web-1:10" (.activate 1) rfl
  have r2 := r1.answer "web-1:10" (.load 1) (.ok (some acmeActive)) ⟨rfl, rfl, rfl⟩ rfl
  have r3 := r2.start "web-2:20" (.deactivate 1) rfl
  have r4 := r3.answer "web-2:20" (.load 1) (.ok (some acmeActive)) ⟨rfl, rfl, rfl⟩ rfl
  have r5 := r4.answer "web-2:20" (.consoleUpdate 1 .active .deactivated) (.ok true)
    ⟨rfl, rfl, rfl⟩ rfl
  have r6 := r5.answer "web-1:10" (.consoleUpdate 1 .deactivated .active) (.ok true)
    ⟨rfl, rfl, rfl⟩ rfl
  refine ⟨_, _, ⟨oneTenant_quiet acmeActive, r6⟩, fun hlast => ?_⟩
  obtain ⟨mid, told, rest, ht, htells, _⟩ :=
    hlast [] _ _ rfl 1 .deactivated .active "web-1:10" rfl rfl nofun rfl
  have hmem : told ∈ mid ++ told :: rest := List.mem_append_right _ List.mem_cons_self
  rw [← ht] at hmem
  simp only [List.mem_cons, List.not_mem_nil, or_false] at hmem
  rcases hmem with rfl | rfl | rfl | rfl | rfl
  · exact absurd htells.actor (by decide)
  · exact absurd htells.actor (by decide)
  · exact absurd htells.actor (by decide)
  · rcases htells with ⟨row, hl, hrow⟩ | ⟨expected, w, hl, _⟩
    · cases hl
      cases hrow
    · cases hl
  · rcases htells with ⟨row, hl, _⟩ | ⟨expected, w, hl, _⟩ <;> cases hl

end MtShards.Migrator
