import MtShards.Models.Resolver.Rounds
import MtShards.Models.Resolver.Exactness

/-!
# A reconcile against the removal of a hostname

A reconcile forces the rows it has read on their keys, tombstone or not, and sweeps the keys of the
hostnames that it has not read. A snapshot of a hostname without a row is taken away by a tombstone
still to come, by another round, or by the sweep; unless a reconcile ends its rounds with a row that
was removed, and whose tombstone it has written over.
-/

namespace MtShards.Resolver

open MtShards.Core

variable {cfg : Config} {kinds : Kind → Prop} {t : List Event} {s s₀ s' : World} {p q : Pid}
  {op : Req} {φ : Phase} {l : SysLabel} {b : Option Nat} {h : Host} {v : TenantSnapshot}
  {M M' : Option Nat → Prop}

/-- The counter is no longer what a round has read, or will not be. -/
def Moved (cfg : Config) (kinds : Kind → Prop) (t : List Event) (s : World) (b : Option Nat) :
    Prop :=
  OwesBump cfg kinds t ∨ s.dirtyCount ≠ b

/-- A reconcile in this phase will delete a positive snapshot of the hostname: in its sweep, or after
another round, if it is one that the counter will tell it to run. -/
def Phase.Clears (cfg : Config) (M : Option Nat → Prop) (h : Host) : Phase → Prop
  | holding _ | opened _ _ | cleared _ _ => True
  | building _ b rows _ | swapping _ b rows | emptying _ b rows | built _ b rows =>
    h ∉ hostsOfRows rows ∨ M b
  | sweeping rows i found =>
    h ∉ hostsOfRows rows ∧ (i ≤ cfg.keyspace.page (.host h) ∨ h ∈ found)
  | _ => False

/-! ### The condition -/

/-- When a reconcile ends its rounds, each hostname that it has read has its row, or awaits a
tombstone, or has no positive snapshot. -/
def EndsCurrent (cfg : Config) (kinds : Kind → Prop) (t : List Event) (e : Event) : Prop :=
  ∀ p n left b rows, e.label = .answer p .getDirty (.ok n) →
    phaseOf cfg kinds p t = .built left b rows → n = b ∨ left = 0 → ∀ h ∈ hostsOfRows rows,
      e.pre.db.HasRow h ∨ Due cfg kinds t e.pre (.host h) ∨
        ∀ v, e.pre.snap (.host h) ≠ some (.positive v)

/-- The condition on a step. -/
structure Watched (cfg : Config) (kinds : Kind → Prop) (t : List Event) (e : Event) : Prop where
  counter : CounterKept cfg kinds t e
  edits : EditsCurrent e
  renames : ∀ p x, e.label ≠ .answer p .rename (.error x)
  ends : EndsCurrent cfg kinds t e

/-! ### One step -/

/-- A round that will be told to run again still is. -/
theorem Moved.step (hmoved : Moved cfg kinds t s b) (hbehind : NotBehind b s.dirtyCount)
    (hround : ∃ p, (phaseOf cfg kinds p t).round ≠ none) (hf : AllFit cfg kinds t)
    (hkept : CounterKept cfg kinds t ⟨l, s, s'⟩) (hm : SysMove cfg kinds t s l s') :
    Moved cfg kinds (⟨l, s, s'⟩ :: t) s' b := by
  by_cases hincr : ∃ p r, l = .answer p .incrDirty r
  · obtain ⟨p, r, hl⟩ := hincr
    obtain rfl := apply_of_incrDirty hm hl
    exact .inr hbehind.incr.2
  · have hno : ∀ p r, l ≠ .answer p .incrDirty r := fun p r hl => hincr ⟨p, r, hl⟩
    rcases hmoved with howes | hne
    · exact .inl (howes.step hf hm hno)
    · have hcount : s'.dirtyCount = s.dirtyCount := hkept hround hno
      rw [Moved, hcount]
      exact .inr hne

/-- What a process clears when its rounds are told to run again no less. -/
theorem Phase.Clears.mono (hc : φ.Clears cfg M h)
    (hM : ∀ b rows, φ.round = some (b, some rows) → M b → M' b) : φ.Clears cfg M' h := by
  cases φ with
  | building | swapping | emptying | built => exact hc.imp_right (hM _ _ rfl)
  | _ => exact hc

/-- A process that may stop clears nothing. -/
theorem Phase.MayStop.not_clears (hstop : φ.MayStop) : ¬ φ.Clears cfg M h := by
  cases φ <;> first | exact id | exact hstop.elim

theorem Req.set_or_setNx {k : Key} (hk : op.writtenKey = some k) :
    (∃ e ttl, op = .set k e ttl) ∨ ∃ e ttl, op = .setNx k e ttl := by
  cases op <;> cases hk
  · exact .inl ⟨_, _, rfl⟩
  · exact .inr ⟨_, _, rfl⟩

/-- A snapshot key that a request does not write. -/
theorem snap_apply {k : Key} (hk : op.writtenKey ≠ some k) (hs : (op.apply p s).snap k = some (.positive v)) :
    s.snap k = some (.positive v) := by
  have hnow := apply_now p s op
  rw [World.snap, TtlStore.get, hnow] at hs
  by_cases hw : op.writesSnaps = false
  · rwa [apply_snaps p s hw] at hs
  · cases op <;> try exact absurd rfl hw
    case set k' x ttl =>
      have hne : k ≠ k' := fun heq => hk (by rw [heq]; rfl)
      change Cell.peek s.now ((s.snaps.set k' _) k) = _ at hs
      rwa [TtlStore.set_of_ne hne] at hs
    case setNx k' x ttl =>
      have hne : k ≠ k' := fun heq => hk (by rw [heq]; rfl)
      rcases TtlStore.setNx_apply s.snaps s.now k' (.lasting s.now x ttl) k with hsame | ⟨heq, _, _⟩
      · change Cell.peek s.now ((s.snaps.setNx s.now k' _) k) = _ at hs
        rwa [hsame] at hs
      · exact absurd heq hne
    case deleteMany ks =>
      change Cell.peek s.now ((s.snaps.erase ks) k) = _ at hs
      by_cases hmem : k ∈ ks
      · rw [TtlStore.erase_of_mem hmem] at hs
        cases hs
      · rwa [TtlStore.erase_of_notMem hmem] at hs

/-- A key that is deleted has no snapshot. -/
theorem not_mem_of_snap_deleteMany {ks : List Key} {k : Key}
    (hs : (Req.apply p s (.deleteMany ks)).snap k = some (.positive v)) : k ∉ ks := by
  intro hmem
  change Cell.peek s.now ((s.snaps.erase ks) k) = _ at hs
  rw [TtlStore.erase_of_mem hmem] at hs
  cases hs

theorem snap_set_tombstone (k : Key) (ttl : Option Nat) :
    (Req.apply p s (.set k .tombstone ttl)).snap k ≠ some (.positive v) := by
  intro hs
  change Cell.peek s.now ((s.snaps.set k _) k) = _ at hs
  rw [TtlStore.set_self] at hs
  obtain ⟨_, hcell, _⟩ := Cell.peek_eq_some.mp hs
  cases congrArg Cell.value (Option.some.inj hcell)

/-- A reconcile that clears a hostname still does after its own request, if the snapshot is still
there. -/
theorem Turn.clears {φ' : Phase} (hturn : Turn cfg s φ op φ') (hc : φ.Clears cfg M h)
    (hrow : ¬ s.db.HasRow h) (hsnap : s.snap (.host h) = some (.positive v))
    (hsnap' : (op.apply p s).snap (.host h) = some (.positive v))
    (hend : ∀ left b rows, op = .getDirty → φ = .built left b rows → s.dirtyCount = b ∨ left = 0 →
      h ∉ hostsOfRows rows) : φ'.Clears cfg M h := by
  cases hturn with
  | stay _ => exact hc
  | other _ hkind _ _ => cases φ <;> first | exact hc.elim | exact absurd rfl hkind
  | lock => exact hc.elim
  | count | clear | again => trivial
  | fetch hagrees => exact .inl fun hmem => hrow ((hagrees h).mp hmem)
  | add | present | absent | swap | drop => exact hc
  | ended hover => exact ⟨hend _ _ _ rfl rfl hover, .inl (Nat.zero_le _)⟩
  | scan hnames =>
    obtain ⟨hrows, hpage | hfound⟩ := hc
    · rcases Nat.eq_or_lt_of_le hpage with heq | hlt
      · have hnamed := hnames h heq.symm (by rw [hsnap]; nofun)
        exact ⟨hrows, .inr (List.mem_append_right _ (List.mem_filter.mpr ⟨hnamed, by simp [hrows]⟩))⟩
      · exact ⟨hrows, .inl hlt⟩
    · exact ⟨hrows, .inr (List.mem_append_left _ hfound)⟩
  | @look _ _ _ ks =>
    obtain ⟨hrows, hahead⟩ := hc
    refine ⟨hrows, hahead.imp_right fun hfound => List.mem_filter.mpr ⟨hfound, ?_⟩⟩
    -- A positive snapshot that the sweep looks at is an orphan.
    by_cases hmem : Key.host h ∈ ks
    · have horphan : Key.host h ∈ orphansOf (s.getMany ks) :=
        mem_orphansOf.mpr ⟨v, mem_getMany.mpr ⟨hmem, hsnap⟩⟩
      simp [horphan]
    · simp [hmem]
  | erase =>
    obtain ⟨hrows, hahead⟩ := hc
    refine ⟨hrows, hahead.imp_right fun hfound => List.mem_filter.mpr ⟨hfound, ?_⟩⟩
    simp [not_mem_of_snap_deleteMany hsnap']
  | unlock hlast =>
    rcases hlast with rfl | ⟨rows, rfl⟩
    · exact hc.elim
    · obtain ⟨_, hpage | hfound⟩ := hc
      · exact absurd (cfg.keyspace.page_lt (.host h)) (Nat.not_lt.mpr hpage)
      · cases hfound

/-- A key that awaits a tombstone still does after a request of its writer, or has no positive
snapshot. -/
theorem Phase.after_owes_key {o : Owed} {k : Key} {a : op.Ans} (hk : k ∈ o.keys)
    (hp : (Phase.owes o).Permits cfg kinds op) (ha : op.Answers cfg.keyspace p s a)
    (hsnap : (op.apply p s).snap k = some (.positive v)) :
    ((Phase.owes o).after cfg.toSettings op a).Due (op.apply p s).db k := by
  cases op
  case set k' e ttl =>
    rcases hp with ⟨o', ho', rfl, _⟩ | ⟨_, _, _, _, _, ho', _⟩
    · by_cases hne : k = k'
      · subst hne
        exact absurd hsnap (snap_set_tombstone k ttl)
      · exact List.mem_filter.mpr ⟨hk, by simp [hne]⟩
    · cases ho'
  case deleteMany ks =>
    exact List.mem_filter.mpr ⟨hk, by simp [not_mem_of_snap_deleteMany hsnap]⟩
  case ping =>
    have ha : a = true := ha
    subst ha
    exact hk
  case incrDirty | expireHosts => exact hk
  case getMany | existsHosts | setMarker | enqueue | expireDirty | saddHosts | sremHosts => exact hk
  case readRow | loadTenant | insertDomain | saveDomain | deleteDomain | acquire => cases hp.1
  case loadDomain | dequeue => cases hp
  case updateStatus | readHosts | existsNew | rename | deleteHosts | readSchemas | scanSchemas =>
    obtain ⟨_, hφ⟩ := hp
    revert hφ
    simp
  case setNx | getDirty | deleteNew | readDomains | saddNew | scanHosts | release =>
    revert hp
    simp [Phase.Permits]

/-- A hostname without a row that awaits a tombstone still does, or has no positive snapshot. -/
theorem due_step (hf : AllFit cfg kinds t) (hrow : ¬ s.db.HasRow h)
    (hdue : Due cfg kinds t s (.host h)) (hm : SysMove cfg kinds t s l s')
    (hsnap : s'.snap (.host h) = some (.positive v)) :
    Due cfg kinds (⟨l, s, s'⟩ :: t) s' (.host h) := by
  obtain ⟨q, hq⟩ := hdue
  obtain ⟨o, ho, hk⟩ : ∃ o, phaseOf cfg kinds q t = .owes o ∧ Key.host h ∈ o.keys := by
    cases hφ : phaseOf cfg kinds q t <;> rw [hφ] at hq <;> try exact hq.elim
    case changed tenant =>
      rcases hq with hk | ⟨x, hx, hk⟩
      · cases hk
      · cases hk
        obtain ⟨d, hd, hdom, _⟩ := Database.mem_hostsOf.mp hx
        exact absurd ⟨d, hd, hdom⟩ hrow
    case owes o => exact ⟨o, rfl, hq⟩
  refine ⟨q, ?_⟩
  cases hm.part q hf with
  | other _ hphase =>
    rw [hphase, ho]
    exact hk
  | start _ hstop =>
    rw [ho] at hstop
    rw [hstop.1] at hk
    cases hk
  | unnamed _ hswap _ =>
    rw [ho] at hswap
    obtain ⟨_, _, _, hφ⟩ := hswap
    cases hφ
  | ok op a _ hstate hphase hp ha =>
    subst hstate
    rw [ho] at hp
    rw [hphase, ho]
    exact Phase.after_owes_key hk hp ha hsnap

/-- A hostname that loses its row awaits a tombstone. -/
theorem hasRow_or_due (hf : AllFit cfg kinds t) (hedits : EditsCurrent ⟨l, s, s'⟩)
    (hrow : s.db.HasRow h) (hm : SysMove cfg kinds t s l s') :
    s'.db.HasRow h ∨ Due cfg kinds (⟨l, s, s'⟩ :: t) s' (.host h) := by
  cases hm with
  | start _ => exact .inl hrow
  | unnamed _ _ => exact .inl hrow
  | tick _ => exact .inl hrow
  | @ok p op a hp ha henabled =>
    clear henabled
    have owed (hs : List Host) (hh : h ∈ hs) (hafter : (phaseOf cfg kinds p t).after
        cfg.toSettings op a = .owes (.ofHosts cfg.toSettings hs)) :
        Due cfg kinds (⟨.answer p op (.ok a), s, op.apply p s⟩ :: t) (op.apply p s) (.host h) := by
      refine ⟨p, ?_⟩
      rw [phaseOf_ok (hf p).1, hafter]
      exact List.mem_map_of_mem hh
    obtain ⟨r, hr, hdom⟩ := hrow
    have hstep := tableStep_apply p s op
    generalize hdb : (op.apply p s).db = db at hstep ⊢
    cases hstep with
    | same => exact .inl ⟨r, hr, hdom⟩
    | status => exact .inl ⟨r, hr, hdom⟩
    | @insert d db' hinsert =>
      obtain ⟨hfresh, hsave⟩ := Database.insertDomain_eq_some hinsert
      exact .inl ⟨r, (Database.mem_saveDomain hsave).mpr (.inr ⟨hr, hfresh r hr⟩), hdom⟩
    | @save d x db' hsave =>
      by_cases hid : r.id = d.id
      · have hdone : a = true := by
          have ha : a = (s.db.saveDomain { d with domain := x }).isSome := ha
          rw [ha, hsave]
          rfl
        subst hdone
        have hcur := hedits.2 p d x rfl r hr hid
        refine .inr (owed [x, d.domain] ?_ rfl)
        rw [← hdom, hcur]
        exact List.mem_cons_of_mem _ List.mem_cons_self
      · exact .inl ⟨r, (Database.mem_saveDomain hsave).mpr (.inr ⟨hr, hid⟩), hdom⟩
    | @delete d =>
      by_cases hid : r.id = d.id
      · have hcur := hedits.1 p d rfl r hr hid
        refine .inr (owed [d.domain] ?_ rfl)
        rw [← hdom, hcur]
        exact List.mem_cons_self
      · exact .inl ⟨r, List.mem_filter.mpr ⟨hr, by simpa using hid⟩, hdom⟩

/-! ### Runs -/

/-- A positive snapshot of a hostname is one of a row, or will be taken away. -/
def Accounted (cfg : Config) (kinds : Kind → Prop) (t : List Event) (s : World) : Prop :=
  ∀ h v, s.snap (.host h) = some (.positive v) → s.db.HasRow h ∨ Due cfg kinds t s (.host h) ∨
    ∃ q, (phaseOf cfg kinds q t).Clears cfg (Moved cfg kinds t s) h

/-- A snapshot that is cleared by another process than the one of the step. -/
theorem clears_step_of_ne (hrounds : Rounds cfg kinds t s) (hf : AllFit cfg kinds t)
    (hkept : CounterKept cfg kinds t ⟨l, s, s'⟩) (hm : SysMove cfg kinds t s l s')
    (hc : (phaseOf cfg kinds q t).Clears cfg (Moved cfg kinds t s) h)
    (hsame : phaseOf cfg kinds q (⟨l, s, s'⟩ :: t) = phaseOf cfg kinds q t) :
    (phaseOf cfg kinds q (⟨l, s, s'⟩ :: t)).Clears cfg (Moved cfg kinds (⟨l, s, s'⟩ :: t) s') h := by
  rw [hsame]
  refine hc.mono fun b rows hround hmoved => ?_
  exact hmoved.step (hrounds.counted q b _ hround) ⟨q, by rw [hround]; nofun⟩ hf hkept hm

/-- What a reconcile has read and forces on a key is one of a row, or will be taken away. -/
theorem Accounted.forced {left : Nat} {rows : List DomainRow} {added : List Host}
    (hrounds : Rounds cfg kinds t s) (hp : phaseOf cfg kinds p t = .building left b rows added) :
    s.db.HasRow h ∨ (phaseOf cfg kinds p t).Clears cfg (Moved cfg kinds t s) h := by
  rcases hrounds.current p b rows (by rw [hp]; rfl) with hagrees | hmoved
  · by_cases hmem : h ∈ hostsOfRows rows
    · exact .inl ((hagrees h).mp hmem)
    · rw [hp]
      exact .inr (.inl hmem)
  · rw [hp]
    exact .inr (.inr hmoved)

/-- One step. -/
theorem Accounted.step (hacc : Accounted cfg kinds t s) (hrounds : Rounds cfg kinds t s)
    (hfill : ¬ kinds .fill) (hf : AllFit cfg kinds t) (hw : Watched cfg kinds t ⟨l, s, s'⟩)
    (hm : SysMove cfg kinds t s l s') : Accounted cfg kinds (⟨l, s, s'⟩ :: t) s' := by
  intro h v hsnap'
  -- Where the snapshot was there before the step, its removal goes on.
  have carried (hsnap : s.snap (.host h) = some (.positive v))
      (hown : ∀ q, (phaseOf cfg kinds q t).Clears cfg (Moved cfg kinds t s) h →
        ¬ s.db.HasRow h → ¬ Due cfg kinds t s (.host h) →
        (phaseOf cfg kinds q (⟨l, s, s'⟩ :: t)).Clears cfg (Moved cfg kinds (⟨l, s, s'⟩ :: t) s') h) :
      s'.db.HasRow h ∨ Due cfg kinds (⟨l, s, s'⟩ :: t) s' (.host h) ∨
        ∃ q, (phaseOf cfg kinds q (⟨l, s, s'⟩ :: t)).Clears cfg
          (Moved cfg kinds (⟨l, s, s'⟩ :: t) s') h := by
    by_cases hrow : s.db.HasRow h
    · exact (hasRow_or_due hf hw.edits hrow hm).imp_right .inl
    · by_cases hdue : Due cfg kinds t s (.host h)
      · exact .inr (.inl (due_step hf hrow hdue hm hsnap'))
      · obtain ⟨q, hq⟩ := ((hacc h v hsnap).resolve_left hrow).resolve_left hdue
        exact .inr (.inr ⟨q, hown q hq hrow hdue⟩)
  have hmove := hm
  cases hm with
  | @start p hstop =>
    refine carried hsnap' fun q hc _ _ => ?_
    have hne : p ≠ q := by
      rintro rfl
      exact hstop.not_clears hc
    exact clears_step_of_ne hrounds hf hw.counter hmove hc (phaseOf_start_of_ne hne)
  | @unnamed p _ _ => exact absurd rfl (hw.renames p _)
  | tick hn =>
    refine carried (Cell.peek_of_later hn hsnap') fun q hc _ _ => ?_
    exact clears_step_of_ne hrounds hf hw.counter hmove hc rfl
  | @ok p op a hp ha henabled =>
    by_cases hwritten : op.writtenKey = some (.host h)
    · obtain ⟨e, ttl, rfl⟩ | ⟨e, ttl, rfl⟩ := Req.set_or_setNx hwritten
      · rcases hp with ⟨o, _, rfl, _⟩ | ⟨left, before, rows, added, w, hφ, _, _⟩
        · exact absurd hsnap' (snap_set_tombstone (.host h) ttl)
        · have hsame : phaseOf cfg kinds p (⟨.answer p (.set (.host h) e ttl) (.ok a), s,
              Req.apply p s (.set (.host h) e ttl)⟩ :: t) = phaseOf cfg kinds p t := by
            rw [phaseOf_ok (hf p).1, hφ]
            rfl
          rcases Accounted.forced (h := h) hrounds hφ with hrow | hc
          · exact .inl hrow
          · exact .inr (.inr ⟨p, clears_step_of_ne hrounds hf hw.counter hmove hc hsame⟩)
      · have hkind : ∀ k, (phaseOf cfg kinds p t).kind = some k → kinds k := (hf p).2
        rcases hp with ⟨x, row, hφ, _⟩ | ⟨tenant, hφ, _⟩ <;> rw [hφ] at hkind
        · exact absurd (hkind .fill rfl) hfill
        · exact absurd (hkind .fill rfl) hfill
    · have hsnap := snap_apply hwritten hsnap'
      refine carried hsnap fun q hc hrow hdue => ?_
      by_cases hne : p = q
      · subst hne
        have hend : ∀ left b rows, op = .getDirty → phaseOf cfg kinds p t = .built left b rows →
            s.dirtyCount = b ∨ left = 0 → h ∉ hostsOfRows rows := by
          rintro left b rows rfl hφ hover hmem
          have ha : a = s.dirtyCount := ha
          subst ha
          rcases hw.ends p _ left b rows rfl hφ hover h hmem with hhas | hawaits | hnone
          · exact hrow hhas
          · exact hdue hawaits
          · exact hnone v hsnap
        have hafter := (turn_of_ok hp ha).clears hc hrow hsnap hsnap' hend
        have hphase : phaseOf cfg kinds p (⟨.answer p op (.ok a), s, op.apply p s⟩ :: t) = _ :=
          phaseOf_ok (hf p).1
        rw [← hphase] at hafter
        refine hafter.mono fun b rows hround hmoved => ?_
        -- The round of the process is the one it was in, or one that has just read its rows.
        obtain ⟨r, hr⟩ : ∃ r, (phaseOf cfg kinds p t).round = some (b, r) := by
          rcases round_step hf hmove hround with hsame | ⟨_, ⟨_, hnone⟩ | ⟨hopen, _⟩⟩
          · exact ⟨_, hsame⟩
          · cases hnone
          · exact ⟨_, hopen⟩
        exact hmoved.step (hrounds.counted p b r hr) ⟨p, by rw [hr]; nofun⟩ hf hw.counter hmove
      · exact clears_step_of_ne hrounds hf hw.counter hmove hc (phaseOf_answer_of_ne hne)

/-- A hostname that has lost its row is not resurrected: in every run in which reconciles end their
rounds with current rows, once every program has ended each positive snapshot of a hostname is one
of a row. -/
theorem no_resurrected_host {c : Core.Config Pid Req Req.Ans Exn World}
    (hwarm : cfg.warmEnabled = true) (hfill : ¬ kinds .fill)
    (h₀ : ∀ h v, s₀.snap (.host h) = some (.positive v) → s₀.db.HasRow h)
    (hrun : SysRun cfg kinds s₀ t c) (hwatched : Throughout (Watched cfg kinds) t)
    (hdone : ∀ p, ∃ r, c.proc p = some (.done r)) {x : Host} {v : TenantSnapshot}
    (hsnap : c.shared.snap (.host x) = some (.positive v)) : c.shared.db.HasRow x := by
  let I : List Event → World → Prop := fun t s => Rounds cfg kinds t s ∧ Accounted cfg kinds t s
  have hI : I [] s₀ := ⟨.init, fun h v hv => .inl (h₀ h v hv)⟩
  obtain ⟨-, hrounds, hacc⟩ : AllFit cfg kinds t ∧ I t c.shared := by
    refine SysRun.invariant (Watched cfg kinds) I hI ?_ hrun hwatched
    rintro t s l s' hf ⟨hrounds, hacc⟩ hw hm
    exact ⟨hrounds.step hwarm hf hw.counter hm, hacc.step hrounds hfill hf hw hm⟩
  rcases hacc x v hsnap with hrow | hdue | ⟨q, hq⟩
  · exact hrow
  · exact absurd hdue (not_due_of_done hrun hdone _)
  · obtain ⟨r, hr⟩ := hdone q
    have hstop : (phaseOf cfg kinds q t).MayStop := hrun.follows system_follows q hr
    exact absurd hq hstop.not_clears

/-! ### The removal of one hostname -/

/-- Deletions, re-points and reconciles. -/
def removalRace (k : Kind) : Prop := k = .delete ∨ k = .repoint ∨ k = .reconcile

/-- A reconcile has read the row of a hostname. The row is deleted and its key gets a tombstone; the
reconcile writes over it, finds the counter as it was, and leaves the key to the hostname in its
sweep. Only then does the deletion bump the counter, and the task it sends finds the lock taken. The
snapshot stays, without expiry. -/
theorem resurrected_over_tombstone : warmPage.warmEnabled = true ∧
    (∀ h v, acmeWorld.snap (.host h) = some (.positive v) → acmeWorld.db.HasRow h) ∧
    ∃ t c, SysRun warmPage removalRace acmeWorld t c ∧ (∀ p, ∃ r, c.proc p = some (.done r)) ∧
      c.shared.queue = 0 ∧ (∀ k, c.shared.snap k ≠ some .tombstone) ∧
      ¬ c.shared.db.HasRow "old" ∧
      c.shared.snaps (.host "old") = some ⟨.positive acme, none⟩ := by
  have r0 : SysRun warmPage removalRace acmeWorld [] (.idle acmeWorld) := .nil
  have r1 := r0.start 1 ⟨.reconcile, .inr (.inr rfl), .command⟩ rfl
  have r2 := r1.answer 1 .ping (.ok true) ⟨rfl, trivial, rfl⟩ rfl
  have r3 := r2.answer 1 (.acquire 120) (.ok true) ⟨rfl, trivial, rfl⟩ rfl
  have r4 := r3.answer 1 .ping (.ok true) ⟨rfl, trivial, rfl⟩ rfl
  have r5 := r4.answer 1 .getDirty (.ok none) ⟨rfl, trivial, rfl⟩ rfl
  have r6 := r5.answer 1 .deleteNew (.ok ()) ⟨trivial, trivial, rfl⟩ rfl
  have r7 := r6.answer 1 .readDomains (.ok [⟨"old", acme⟩]) ⟨.refl _, trivial, rfl⟩ rfl
  have r8 := r7.answer 1 (.saddNew ["old"]) (.ok ()) ⟨trivial, trivial, rfl⟩ rfl
  have r9 := r8.start 2 ⟨.delete, .inl rfl, .delete 1⟩ rfl
  have r10 := r9.answer 2 (.loadDomain 1) (.ok (some ⟨1, "old", 1⟩)) ⟨rfl, trivial, rfl⟩ rfl
  have r11 := r10.answer 2 (.getMany [.host "old"]) (.ok []) ⟨rfl, trivial, rfl⟩ rfl
  have r12 := r11.answer 2 (.deleteDomain ⟨1, "old", 1⟩) (.ok ()) ⟨trivial, trivial, rfl⟩ rfl
  have r13 := r12.answer 2 (.set (.host "old") .tombstone (some 5)) (.ok ())
    ⟨trivial, trivial, rfl⟩ rfl
  have r14 := r13.answer 1 (.set (.host "old") (.positive acme) none) (.ok ())
    ⟨trivial, trivial, rfl⟩ rfl
  have r15 := r14.answer 1 (.set (.schema "acme") (.positive acme) none) (.ok ())
    ⟨trivial, trivial, rfl⟩ rfl
  have r16 := r15.answer 1 .existsNew (.ok true) ⟨rfl, trivial, rfl⟩ rfl
  have r17 := r16.answer 1 .rename (.ok ())
    ⟨trivial, (by decide : (∅ ∪ ["old"].toFinset : Finset Host) ≠ ∅), rfl⟩ rfl
  have r18 := r17.answer 1 .getDirty (.ok none) ⟨rfl, trivial, rfl⟩ rfl
  have r19 := r18.answer 1 .readSchemas (.ok ["acme"]) ⟨rfl, trivial, rfl⟩ rfl
  have r20 := r19.answer 1 (.scanHosts 0) (.ok ["old"])
    ⟨scanHosts_of_run [.schema "acme", .host "old", .host "old"] r19 (fun _ => rfl) rfl (by simp),
      trivial, rfl⟩ rfl
  have r21 := r20.answer 1 (.scanSchemas 0) (.ok ["acme"])
    ⟨scanSchemas_of_run [.schema "acme", .host "old", .host "old"] r20 (fun _ => rfl) rfl (by simp),
      trivial, rfl⟩ rfl
  have r22 := r21.answer 2 (.sremHosts "old") (.ok ()) ⟨trivial, trivial, rfl⟩ rfl
  have r23 := r22.answer 2 .incrDirty (.ok ()) ⟨trivial, trivial, rfl⟩ rfl
  have r24 := r23.answer 2 (.expireDirty 3600) (.ok ()) ⟨trivial, trivial, rfl⟩ rfl
  have r25 := r24.answer 2 (.expireHosts 300) (.ok ()) ⟨trivial, trivial, rfl⟩ rfl
  have r26 := r25.answer 2 (.setMarker 10) (.ok true) ⟨rfl, trivial, rfl⟩ rfl
  have r27 := r26.answer 2 .enqueue (.ok ()) ⟨trivial, trivial, rfl⟩ rfl
  have r28 := r27.start 3 ⟨.reconcile, .inr (.inr rfl), .task⟩ rfl
  have r29 := r28.answer 3 .dequeue (.ok ()) ⟨trivial, Nat.one_pos, rfl⟩ rfl
  have r30 := r29.answer 3 .ping (.ok true) ⟨rfl, trivial, rfl⟩ rfl
  have r31 := r30.answer 3 (.acquire 120) (.ok false) ⟨rfl, trivial, rfl⟩ rfl
  have r32 := r31.answer 1 .release (.ok true) ⟨rfl, trivial, rfl⟩ rfl
  refine ⟨rfl, nofun, _, _, r32, ?_, rfl, ?_, ?_, rfl⟩
  · exact r32.all_done [1, 2, 3] rfl ⟨⟨_, rfl⟩, ⟨_, rfl⟩, _, rfl⟩
  · intro k hk
    have hpresent := present_of_run r32 (World.present_of_snap (by rw [hk]; nofun))
    have hm : k ∈ [Key.schema "acme", Key.host "old", Key.host "old"] :=
      hpresent.resolve_left fun h0 => h0 rfl
    simp only [List.mem_cons, List.not_mem_nil, or_false] at hm
    rcases hm with rfl | rfl | rfl <;> cases hk
  · rintro ⟨d, hd, _⟩
    cases hd

/-- The step edits a domain, reads the counter or fails. -/
def isDelicate : SysLabel → Bool
  | .answer _ (.deleteDomain _) _ | .answer _ (.saveDomain _ _) _ | .answer _ .getDirty _
  | .answer _ _ (.error _) => true
  | _ => false

theorem Watched.of_not_delicate {e : Event} (hcount : e.post.dirtyCount = e.pre.dirtyCount)
    (hplain : isDelicate e.label = false) : Watched cfg kinds t e where
  counter _ _ := hcount
  edits := .of_not_edit (by
    obtain ⟨l, _, _⟩ := e
    cases l with
    | answer p op r => cases op <;> first | rfl | cases hplain
    | start | inner | env | kill => rfl)
  renames p x hl := by
    rw [hl] at hplain
    cases hplain
  ends p n left b rows hl := by
    rw [hl] at hplain
    cases hplain

/-- The counter is read at the start of a round. -/
theorem Watched.of_opening {n : Option Nat} (left : Nat)
    (hφ : phaseOf cfg kinds p t = .holding left) :
    Watched cfg kinds t ⟨.answer p .getDirty (.ok n), s, s⟩ where
  counter _ _ := rfl
  edits := .of_not_edit rfl
  renames := nofun
  ends q m left' b rows hl hbuilt := by
    cases hl
    rw [hφ] at hbuilt
    cases hbuilt

/-- The counter is compared, and every hostname of the round has its row, or another round comes. -/
theorem Watched.of_comparison {n : Option Nat} (left : Nat) (rows : List DomainRow)
    (hφ : phaseOf cfg kinds p t = .built left b rows)
    (hrows : n = b ∨ left = 0 → ∀ h ∈ hostsOfRows rows, s.db.HasRow h) :
    Watched cfg kinds t ⟨.answer p .getDirty (.ok n), s, s⟩ where
  counter _ _ := rfl
  edits := .of_not_edit rfl
  renames := nofun
  ends q m left' b' rows' hl hbuilt hover h hmem := by
    cases hl
    rw [hφ] at hbuilt
    cases hbuilt
    exact .inl (hrows hover h hmem)

/-- The deletion bumps the counter in time: the reconcile runs another round, and its sweep deletes
the snapshot it has forced on the key. -/
theorem swept_run : ∃ t c, SysRun warmPage removalRace acmeWorld t c ∧
    Throughout (Watched warmPage removalRace) t ∧ (∀ p, ∃ r, c.proc p = some (.done r)) ∧
      c.shared.queue = 0 := by
  have r0 : SysRun warmPage removalRace acmeWorld [] (.idle acmeWorld) := .nil
  have r1 := r0.start 1 ⟨.reconcile, .inr (.inr rfl), .command⟩ rfl
  have r2 := r1.answer 1 .ping (.ok true) ⟨rfl, trivial, rfl⟩ rfl
  have r3 := r2.answer 1 (.acquire 120) (.ok true) ⟨rfl, trivial, rfl⟩ rfl
  have r4 := r3.answer 1 .ping (.ok true) ⟨rfl, trivial, rfl⟩ rfl
  have r5 := r4.answer 1 .getDirty (.ok none) ⟨rfl, trivial, rfl⟩ rfl
  have r6 := r5.answer 1 .deleteNew (.ok ()) ⟨trivial, trivial, rfl⟩ rfl
  have r7 := r6.answer 1 .readDomains (.ok [⟨"old", acme⟩]) ⟨.refl _, trivial, rfl⟩ rfl
  have r8 := r7.answer 1 (.saddNew ["old"]) (.ok ()) ⟨trivial, trivial, rfl⟩ rfl
  have r9 := r8.start 2 ⟨.delete, .inl rfl, .delete 1⟩ rfl
  have r10 := r9.answer 2 (.loadDomain 1) (.ok (some ⟨1, "old", 1⟩)) ⟨rfl, trivial, rfl⟩ rfl
  have r11 := r10.answer 2 (.getMany [.host "old"]) (.ok []) ⟨rfl, trivial, rfl⟩ rfl
  have r12 := r11.answer 2 (.deleteDomain ⟨1, "old", 1⟩) (.ok ()) ⟨trivial, trivial, rfl⟩ rfl
  have r13 := r12.answer 2 (.set (.host "old") .tombstone (some 5)) (.ok ())
    ⟨trivial, trivial, rfl⟩ rfl
  have r14 := r13.answer 1 (.set (.host "old") (.positive acme) none) (.ok ())
    ⟨trivial, trivial, rfl⟩ rfl
  have r15 := r14.answer 1 (.set (.schema "acme") (.positive acme) none) (.ok ())
    ⟨trivial, trivial, rfl⟩ rfl
  have r16 := r15.answer 2 (.sremHosts "old") (.ok ()) ⟨trivial, trivial, rfl⟩ rfl
  have r17 := r16.answer 2 .incrDirty (.ok ()) ⟨trivial, trivial, rfl⟩ rfl
  have r18 := r17.answer 2 (.expireDirty 3600) (.ok ()) ⟨trivial, trivial, rfl⟩ rfl
  have r19 := r18.answer 2 (.expireHosts 300) (.ok ()) ⟨trivial, trivial, rfl⟩ rfl
  have r20 := r19.answer 2 (.setMarker 10) (.ok true) ⟨rfl, trivial, rfl⟩ rfl
  have r21 := r20.answer 2 .enqueue (.ok ()) ⟨trivial, trivial, rfl⟩ rfl
  have r22 := r21.start 3 ⟨.reconcile, .inr (.inr rfl), .task⟩ rfl
  have r23 := r22.answer 3 .dequeue (.ok ()) ⟨trivial, Nat.one_pos, rfl⟩ rfl
  have r24 := r23.answer 3 .ping (.ok true) ⟨rfl, trivial, rfl⟩ rfl
  have r25 := r24.answer 3 (.acquire 120) (.ok false) ⟨rfl, trivial, rfl⟩ rfl
  have r26 := r25.answer 1 .existsNew (.ok true) ⟨rfl, trivial, rfl⟩ rfl
  have r27 := r26.answer 1 .rename (.ok ())
    ⟨trivial, (by decide : (∅ ∪ ["old"].toFinset : Finset Host) ≠ ∅), rfl⟩ rfl
  have r28 := r27.answer 1 .getDirty (.ok (some 1)) ⟨rfl, trivial, rfl⟩ rfl
  have r29 := r28.answer 1 .getDirty (.ok (some 1)) ⟨rfl, trivial, rfl⟩ rfl
  have r30 := r29.answer 1 .deleteNew (.ok ()) ⟨trivial, trivial, rfl⟩ rfl
  have r31 := r30.answer 1 .readDomains (.ok []) ⟨.refl _, trivial, rfl⟩ rfl
  have r32 := r31.answer 1 .existsNew (.ok false) ⟨rfl, trivial, rfl⟩ rfl
  have r33 := r32.answer 1 .deleteHosts (.ok ()) ⟨trivial, trivial, rfl⟩ rfl
  have r34 := r33.answer 1 .getDirty (.ok (some 1)) ⟨rfl, trivial, rfl⟩ rfl
  have r35 := r34.answer 1 .readSchemas (.ok ["acme"]) ⟨rfl, trivial, rfl⟩ rfl
  have r36 := r35.answer 1 (.scanHosts 0) (.ok ["old"])
    ⟨scanHosts_of_run [.schema "acme", .host "old", .host "old"] r35 (fun _ => rfl) rfl (by simp),
      trivial, rfl⟩ rfl
  have r37 := r36.answer 1 (.getMany [.host "old"]) (.ok [(.host "old", .positive acme)])
    ⟨rfl, trivial, rfl⟩ rfl
  have r38 := r37.answer 1 (.deleteMany [.host "old"]) (.ok ()) ⟨trivial, trivial, rfl⟩ rfl
  have r39 := r38.answer 1 (.scanSchemas 0) (.ok ["acme"])
    ⟨scanSchemas_of_run [.schema "acme", .host "old", .host "old"] r38 (fun _ => rfl) rfl (by simp),
      trivial, rfl⟩ rfl
  have r40 := r39.answer 1 .release (.ok true) ⟨rfl, trivial, rfl⟩ rfl
  have plain {t : List Event} {e : Event} (hcount : e.post.dirtyCount = e.pre.dirtyCount)
      (hplain : isDelicate e.label = false) : Watched warmPage removalRace t e :=
    .of_not_delicate hcount hplain
  refine ⟨_, _, r40, ?_, ?_, rfl⟩
  · refine ⟨plain rfl rfl, plain rfl rfl, plain rfl rfl, plain rfl rfl, plain rfl rfl,
      plain rfl rfl, ?_, plain rfl rfl, plain rfl rfl, plain rfl rfl, plain rfl rfl, ?_,
      ?_, plain rfl rfl, plain rfl rfl, plain rfl rfl, plain rfl rfl, plain rfl rfl,
      plain rfl rfl, plain rfl rfl, plain rfl rfl, plain rfl rfl,
      plain (dirtyCount_expireDirty _ (by decide)) rfl, ?_, plain rfl rfl,
      plain rfl rfl, plain rfl rfl, plain rfl rfl, ?_, plain rfl rfl, plain rfl rfl,
      plain rfl rfl, plain rfl rfl, plain rfl rfl, plain rfl rfl, ?_, plain rfl rfl,
      plain rfl rfl, plain rfl rfl, plain rfl rfl, trivial⟩
    · exact .of_comparison 1 [] rfl nofun
    · exact .of_opening 2 rfl
    · refine .of_comparison 2 [⟨"old", acme⟩] rfl fun hover => ?_
      rcases hover with hover | hover <;> cases hover
    · exact ⟨fun _ hincr => absurd rfl (hincr 2 _), .of_not_edit rfl, nofun, nofun⟩
    · refine ⟨fun _ _ => rfl, ⟨fun p d hl => ?_, nofun⟩, nofun, nofun⟩
      cases hl
      intro r hr _
      rw [List.mem_singleton.mp hr]
    · exact .of_opening 3 rfl
  · exact r40.all_done [1, 2, 3] rfl ⟨⟨_, rfl⟩, ⟨_, rfl⟩, _, rfl⟩

theorem no_resurrected_host_swept : ∃ t c, SysRun warmPage removalRace acmeWorld t c ∧
    Throughout (Watched warmPage removalRace) t ∧ c.shared.queue = 0 ∧
      ∀ x v, c.shared.snap (.host x) = some (.positive v) → c.shared.db.HasRow x := by
  obtain ⟨t, c, hrun, hwatched, hdone, hqueue⟩ := swept_run
  have hnofill : ¬ removalRace .fill := by
    rintro (hk | hk | hk) <;> cases hk
  have h₀ : ∀ h v, acmeWorld.snap (.host h) = some (.positive v) → acmeWorld.db.HasRow h := nofun
  refine ⟨t, c, hrun, hwatched, hqueue, fun x v hsnap => ?_⟩
  exact no_resurrected_host rfl hnofill h₀ hrun hwatched hdone hsnap

end MtShards.Resolver
