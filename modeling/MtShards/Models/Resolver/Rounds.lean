import MtShards.Models.Resolver.Coherence

/-!
# The rounds of a reconcile against the writers of rows

A round reads the dirty counter, then the rows, and compares the counter at its end. A writer bumps
the counter after its commit. So the rows of a round are those of the tables, or a writer has yet to
bump the counter, or the counter is no longer what the round has read; unless the counter expires
while the round is on.
-/

namespace MtShards.Resolver

open MtShards.Core

variable {cfg : Config} {kinds : Kind → Prop} {t : List Event} {s s₀ s' : World} {p q : Pid}
  {op : Req} {φ : Phase} {l : SysLabel} {b : Option Nat} {rows : List DomainRow}

/-- The round of a phase: what the counter was when it began, and the rows once they are read. -/
def Phase.round : Phase → Option (Option Nat × Option (List DomainRow))
  | opened _ b | cleared _ b => some (b, none)
  | building _ b rows _ | swapping _ b rows | emptying _ b rows | built _ b rows =>
    some (b, some rows)
  | _ => none

/-- A process owes something of this kind. -/
def Owing (cfg : Config) (kinds : Kind → Prop) (P : Owed → Prop) (t : List Event) : Prop :=
  ∃ q o, phaseOf cfg kinds q t = .owes o ∧ P o

/-- A writer has committed and has not bumped the counter yet. -/
abbrev OwesBump (cfg : Config) (kinds : Kind → Prop) : List Event → Prop :=
  Owing cfg kinds fun o => o.bump = true

/-- While a round is on, the counter changes by `INCR` only: it does not expire. -/
def CounterKept (cfg : Config) (kinds : Kind → Prop) (t : List Event) (e : Event) : Prop :=
  (∃ p, (phaseOf cfg kinds p t).round ≠ none) →
    (∀ p r, e.label ≠ .answer p .incrDirty r) → e.post.dirtyCount = e.pre.dirtyCount

/-! ### What is owed stays owed -/

/-- What a writer owes after a request. -/
theorem Phase.after_owes {o : Owed} {a : op.Ans} (hp : (Phase.owes o).Permits cfg kinds op)
    (ha : op.Answers cfg.keyspace p s a) :
    ∃ o', (Phase.owes o).after cfg.toSettings op a = .owes o' ∧
      (op ≠ .incrDirty → o'.bump = o.bump) ∧ ((∀ ttl, op ≠ .expireHosts ttl) → o'.arm = o.arm) := by
  cases op
  case ping =>
    have ha : a = true := ha
    subst ha
    exact ⟨o, rfl, fun _ => rfl, fun _ => rfl⟩
  case incrDirty => exact ⟨_, rfl, fun h => absurd rfl h, fun _ => rfl⟩
  case expireHosts ttl => exact ⟨_, rfl, fun _ => rfl, fun h => absurd rfl (h ttl)⟩
  case set | deleteMany | getMany | existsHosts | setMarker | enqueue | expireDirty | saddHosts
      | sremHosts =>
    exact ⟨_, rfl, fun _ => rfl, fun _ => rfl⟩
  case readRow | loadTenant | insertDomain | saveDomain | deleteDomain | acquire => cases hp.1
  case loadDomain | dequeue => cases hp
  case updateStatus | readHosts | existsNew | rename | deleteHosts | readSchemas | scanSchemas =>
    obtain ⟨_, h⟩ := hp
    revert h
    simp
  case setNx | getDirty | deleteNew | readDomains | saddNew | scanHosts | release =>
    revert hp
    simp [Phase.Permits]

/-- A step leaves what a writer owes, unless it is its own `INCR` or `EXPIRE`. -/
theorem owes_step {o : Owed} (hf : AllFit cfg kinds t) (hq : phaseOf cfg kinds q t = .owes o)
    (ho : ¬ o.Settled) (hm : SysMove cfg kinds t s l s') :
    ∃ o', phaseOf cfg kinds q (⟨l, s, s'⟩ :: t) = .owes o' ∧
      ((∀ r, l ≠ .answer q .incrDirty r) → o'.bump = o.bump) ∧
      ((∀ ttl r, l ≠ .answer q (.expireHosts ttl) r) → o'.arm = o.arm) := by
  cases hm.part q hf with
  | other _ hphase => exact ⟨o, hphase.trans hq, fun _ => rfl, fun _ => rfl⟩
  | start _ hstop =>
    rw [hq] at hstop
    exact absurd hstop ho
  | unnamed _ hswap _ =>
    rw [hq] at hswap
    obtain ⟨_, _, _, h⟩ := hswap
    cases h
  | ok op a hl _ hphase hp ha =>
    subst hl
    rw [hq] at hp hphase
    obtain ⟨o', ho', hbump, harm⟩ := Phase.after_owes hp ha
    refine ⟨o', hphase.trans ho', fun h => hbump ?_, fun h => harm ?_⟩
    · rintro rfl
      exact h _ rfl
    · rintro ttl rfl
      exact h ttl _ rfl

theorem OwesBump.step (h : OwesBump cfg kinds t) (hf : AllFit cfg kinds t)
    (hm : SysMove cfg kinds t s l s') (hl : ∀ q r, l ≠ .answer q .incrDirty r) :
    OwesBump cfg kinds (⟨l, s, s'⟩ :: t) := by
  obtain ⟨q, o, hq, ho⟩ := h
  have hopen : ¬ o.Settled := fun hset => by
    rw [hset.2.1] at ho
    cases ho
  obtain ⟨o', ho', hbump, -⟩ := owes_step hf hq hopen hm
  exact ⟨q, o', ho', (hbump (hl q)).trans ho⟩

/-! ### The counter -/

/-- The counter has not fallen behind. -/
def NotBehind (b n : Option Nat) : Prop := ∀ i, b = some i → ∃ j, n = some j ∧ i ≤ j

theorem dirtyCount_incrDirty (s : World) :
    s.incrDirty.dirtyCount = some (s.dirtyCount.getD 0 + 1) := by
  unfold World.incrDirty World.dirtyCount
  cases hcount : Cell.peek s.now s.dirty with
  | none => rfl
  | some n =>
    obtain ⟨e, hcell, halive⟩ := Cell.peek_eq_some.mp hcount
    rw [hcell]
    exact Cell.peek_eq_some.mpr ⟨e, rfl, halive⟩

private theorem incrDirty_ne (s : World) : s.incrDirty ≠ s := by
  intro heq
  have hcount := dirtyCount_incrDirty s
  rw [heq] at hcount
  rw [hcount, Option.getD_some] at hcount
  exact absurd (Option.some.inj hcount) (Nat.ne_of_lt (Nat.lt_succ_self _))

/-- An expiry in the future leaves the counter as it is. -/
theorem dirtyCount_expireDirty (s : World) {ttl : Nat} (httl : 0 < ttl) :
    (s.expireDirty ttl).dirtyCount = s.dirtyCount := by
  unfold World.expireDirty World.dirtyCount
  cases s.dirty with
  | none => rfl
  | some c =>
    obtain ⟨n, expiry⟩ := c
    cases expiry with
    | none => exact Cell.peek_until n (Nat.lt_add_of_pos_right httl)
    | some e => rfl

/-- A bump takes the counter past everything that was read before it. -/
theorem NotBehind.incr (h : NotBehind b s.dirtyCount) :
    NotBehind b s.incrDirty.dirtyCount ∧ s.incrDirty.dirtyCount ≠ b := by
  rw [dirtyCount_incrDirty]
  have hle : ∀ i, b = some i → i ≤ s.dirtyCount.getD 0 := by
    intro i hi
    obtain ⟨j, hj, hij⟩ := h i hi
    rw [hj]
    exact hij
  refine ⟨fun i hi => ⟨_, rfl, Nat.le_succ_of_le (hle i hi)⟩, fun heq => ?_⟩
  exact absurd (hle _ heq.symm) (Nat.not_succ_le_self _)

/-! ### The rows -/

/-- The hostnames of the rows are those of the tables. -/
def Agrees (rows : List DomainRow) (db : Database) : Prop :=
  ∀ h, h ∈ hostsOfRows rows ↔ db.HasRow h

private theorem agrees_of_perm {db : Database} (h : rows.Perm db.domainRows) : Agrees rows db := by
  intro x
  rw [(h.map DomainRow.domain).mem_iff]
  exact Database.mem_domainRows_domain

private theorem hasRow_setStatus {db : Database} {pk : Nat} {st : Status} {h : Host} :
    (db.setStatus pk st).HasRow h ↔ db.HasRow h := Iff.rfl

/-- A step leaves the hostnames that have a row, or its process then owes a bump. -/
theorem hasRow_step (hwarm : cfg.warmEnabled = true) (hf : AllFit cfg kinds t)
    (hm : SysMove cfg kinds t s l s') :
    (∀ h, s'.db.HasRow h ↔ s.db.HasRow h) ∨ OwesBump cfg kinds (⟨l, s, s'⟩ :: t) := by
  cases hm with
  | start _ => exact .inl fun _ => Iff.rfl
  | unnamed _ _ => exact .inl fun _ => Iff.rfl
  | tick _ => exact .inl fun _ => Iff.rfl
  | @ok p op a hp ha henabled =>
    clear henabled
    have owed {hs : List Host} (h : (phaseOf cfg kinds p t).after cfg.toSettings op a =
        .owes (.ofHosts cfg.toSettings hs)) :
        OwesBump cfg kinds (⟨.answer p op (.ok a), s, op.apply p s⟩ :: t) := by
      refine ⟨p, .ofHosts cfg.toSettings hs, ?_, hwarm⟩
      rw [phaseOf_ok (hf p).1]
      exact h
    by_cases htables : op.writesTables = false
    · rw [apply_db p s htables]
      exact .inl fun _ => Iff.rfl
    · cases op <;> try exact absurd rfl htables
      case updateStatus pk expected st =>
        refine .inl fun h => ?_
        simp only [Req.apply]
        split
        · exact hasRow_setStatus
        · exact Iff.rfl
      case insertDomain d =>
        cases a with
        | true => exact .inr (owed rfl)
        | false =>
          have hnone : s.db.insertDomain d = none :=
            Option.isNone_iff_eq_none.mp (Option.isSome_eq_false_iff.mp (Eq.symm ha))
          refine .inl fun h => ?_
          simp only [Req.apply, hnone, Option.getD_none]
      case saveDomain d x =>
        cases a with
        | true => exact .inr (owed rfl)
        | false =>
          have hnone : s.db.saveDomain { d with domain := x } = none :=
            Option.isNone_iff_eq_none.mp (Option.isSome_eq_false_iff.mp (Eq.symm ha))
          refine .inl fun h => ?_
          simp only [Req.apply, hnone, Option.getD_none]
      case deleteDomain d => exact .inr (owed rfl)

/-! ### What a request does to a phase -/

/-- The requests that write the set which a round builds. -/
def Req.writesNew : Req → Bool
  | deleteNew | saddNew _ | rename => true
  | _ => false

/-- A writer that has yet to bump the counter has yet to arm the host set. -/
def Phase.ArmsLast : Phase → Prop
  | owes o => o.bump = true → o.arm = true
  | _ => True

/-- A request that a phase permits, what it finds, and the phase it leads to. The phases of resolvers
and writers are told apart no further. -/
inductive Turn (cfg : Config) (s : World) : Phase → Req → Phase → Prop
  | stay {φ : Phase} {op : Req} : op.writesNew = false → Turn cfg s φ op φ
  | other {φ φ' : Phase} {op : Req} : op.writesNew = false → φ.kind ≠ some .reconcile →
      φ'.kind ≠ some .reconcile → (φ.ArmsLast → φ'.ArmsLast) → Turn cfg s φ op φ'
  | lock {ttl : Nat} : Turn cfg s .idle (.acquire ttl) (.holding 3)
  | count {left : Nat} : Turn cfg s (.holding (left + 1)) .getDirty (.opened left s.dirtyCount)
  | clear {left : Nat} {b : Option Nat} : Turn cfg s (.opened left b) .deleteNew (.cleared left b)
  | fetch {left : Nat} {b : Option Nat} {rows : List DomainRow} : Agrees rows s.db →
      Turn cfg s (.cleared left b) .readDomains (.building left b rows [])
  | add {left : Nat} {b : Option Nat} {rows : List DomainRow} {added hs : List Host} :
      Turn cfg s (.building left b rows added) (.saddNew hs) (.building left b rows (added ++ hs))
  | present {left : Nat} {b : Option Nat} {rows : List DomainRow} : s.hostsNew ≠ ∅ →
      Turn cfg s (.building left b rows (hostsOfRows rows)) .existsNew (.swapping left b rows)
  | absent {left : Nat} {b : Option Nat} {rows : List DomainRow} : s.hostsNew = ∅ →
      Turn cfg s (.building left b rows (hostsOfRows rows)) .existsNew (.emptying left b rows)
  | swap {left : Nat} {b : Option Nat} {rows : List DomainRow} :
      Turn cfg s (.swapping left b rows) .rename (.built left b rows)
  | drop {left : Nat} {b : Option Nat} {rows : List DomainRow} :
      Turn cfg s (.emptying left b rows) .deleteHosts (.built left b rows)
  | again {left : Nat} {b : Option Nat} {rows : List DomainRow} :
      Turn cfg s (.built left b rows) .getDirty (.holding left)
  | ended {left : Nat} {b : Option Nat} {rows : List DomainRow} : s.dirtyCount = b ∨ left = 0 →
      Turn cfg s (.built left b rows) .getDirty (.sweeping rows 0 [])
  | scan {rows : List DomainRow} {i : Nat} {found names : List Host} :
      (∀ h, cfg.keyspace.page (.host h) = i → s.snap (.host h) ≠ none → h ∈ names) →
      Turn cfg s (.sweeping rows i found) (.scanHosts i)
        (.sweeping rows (i + 1) (found ++ names.filter (· ∉ hostsOfRows rows)))
  | look {rows : List DomainRow} {i : Nat} {found : List Host} {ks : List Key} :
      Turn cfg s (.sweeping rows i found) (.getMany ks) (.sweeping rows i (found.filter fun h =>
        Key.host h ∉ ks ∨ Key.host h ∈ orphansOf (s.getMany ks)))
  | erase {rows : List DomainRow} {i : Nat} {found : List Host} {ks : List Key} :
      Turn cfg s (.sweeping rows i found) (.deleteMany ks)
        (.sweeping rows i (found.filter fun h => Key.host h ∉ ks))
  | unlock {φ : Phase} : (φ = .aborted ∨ ∃ rows, φ = .sweeping rows cfg.keyspace.pages []) →
      Turn cfg s φ .release .idle

/-- What a permitted request can do. -/
theorem turn_of_ok {a : op.Ans} (hp : φ.Permits cfg kinds op) (ha : op.Answers cfg.keyspace p s a) :
    Turn cfg s φ op (φ.after cfg.toSettings op a) := by
  cases op
  case readRow =>
    obtain ⟨rfl, _⟩ := hp
    exact .other rfl nofun nofun fun _ => trivial
  case loadTenant pk =>
    obtain ⟨rfl, _⟩ := hp
    cases a with
    | none => exact .stay rfl
    | some tenant => exact .other rfl nofun nofun fun _ => trivial
  case updateStatus pk expected st =>
    obtain ⟨tenant, rfl, _⟩ := hp
    cases a with
    | false => exact .stay rfl
    | true => exact .other rfl nofun nofun fun _ => trivial
  case readHosts pk =>
    obtain ⟨tenant, rfl, _⟩ := hp
    exact .other rfl nofun nofun fun _ => nofun
  case insertDomain d =>
    obtain ⟨rfl, _⟩ := hp
    cases a with
    | false => exact .stay rfl
    | true => exact .other rfl nofun nofun fun _ => id
  case saveDomain d x =>
    obtain ⟨rfl, _⟩ := hp
    cases a with
    | false => exact .stay rfl
    | true => exact .other rfl nofun nofun fun _ => id
  case deleteDomain d =>
    obtain ⟨rfl, _⟩ := hp
    exact .other rfl nofun nofun fun _ => id
  case getMany ks =>
    have ha : a = s.getMany ks := ha
    subst ha
    cases φ
    case sweeping rows i found => exact .look
    all_goals exact .stay rfl
  case set k e ttl =>
    rcases hp with ⟨o, rfl, _⟩ | ⟨left, before, rows, added, v, rfl, _⟩
    · exact .other rfl nofun nofun id
    · exact .stay rfl
  case setNx k e ttl =>
    rcases hp with ⟨x, row, rfl, _⟩ | ⟨tenant, rfl, _⟩
    · cases row <;> exact .other rfl nofun nofun fun _ => trivial
    · exact .other rfl nofun nofun fun _ => trivial
  case deleteMany ks =>
    rcases hp with ⟨o, rfl, _⟩ | ⟨rows, i, found, rfl⟩
    · exact .other rfl nofun nofun id
    · exact .erase
  case scanHosts i =>
    obtain ⟨rows, found, rfl⟩ := hp
    exact .scan ha
  case ping =>
    have ha : a = true := ha
    subst ha
    exact .stay rfl
  case incrDirty =>
    obtain ⟨o, rfl, _⟩ := hp
    exact .other rfl nofun nofun fun _ => nofun
  case expireHosts ttl =>
    obtain ⟨o, rfl, hbump⟩ := hp
    refine .other rfl nofun nofun fun _ hb => ?_
    exact absurd (hbump.symm.trans hb) Bool.false_ne_true
  case acquire ttl =>
    obtain ⟨rfl, _⟩ := hp
    cases a with
    | false => exact .stay rfl
    | true => exact .lock
  case getDirty =>
    have ha : a = s.dirtyCount := ha
    subst ha
    rcases hp with ⟨left, rfl⟩ | ⟨left, before, rows, rfl⟩
    · exact .count
    · change Turn cfg s _ _ (if s.dirtyCount = before ∨ left = 0 then .sweeping rows 0 [] else .holding left)
      split
      · rename_i hover
        exact .ended hover
      · exact .again
  case deleteNew =>
    obtain ⟨left, before, rfl⟩ := hp
    exact .clear
  case readDomains =>
    obtain ⟨left, before, rfl⟩ := hp
    exact .fetch (agrees_of_perm ha)
  case saddNew hs =>
    obtain ⟨left, before, rows, added, rfl⟩ := hp
    exact .add
  case existsNew =>
    obtain ⟨left, before, rows, rfl⟩ := hp
    have ha : a = decide (s.hostsNew ≠ ∅) := ha
    cases a with
    | true => exact .present (of_decide_eq_true ha.symm)
    | false => exact .absent (not_not.mp (of_decide_eq_false ha.symm))
  case rename =>
    obtain ⟨left, before, rows, rfl⟩ := hp
    exact .swap
  case deleteHosts =>
    obtain ⟨left, before, rows, rfl⟩ := hp
    exact .drop
  case release => exact .unlock hp
  all_goals exact .stay rfl

/-- The phase of a process after a step: it stays, the process has ended or failed, or it has made a
turn. -/
theorem phase_cases (hf : AllFit cfg kinds t) (hm : SysMove cfg kinds t s l s') (q : Pid) :
    ((∀ op a, l ≠ .answer q op (.ok a)) ∧
      phaseOf cfg kinds q (⟨l, s, s'⟩ :: t) = phaseOf cfg kinds q t) ∨
    ((phaseOf cfg kinds q t).MayStop ∧ phaseOf cfg kinds q (⟨l, s, s'⟩ :: t) = .idle) ∨
    (s.hostsNew = ∅ ∧ (∃ left b rows, phaseOf cfg kinds q t = .swapping left b rows) ∧
      phaseOf cfg kinds q (⟨l, s, s'⟩ :: t) = .aborted) ∨
    ∃ op a, l = .answer q op (.ok a) ∧ s' = op.apply q s ∧
      Turn cfg s (phaseOf cfg kinds q t) op (phaseOf cfg kinds q (⟨l, s, s'⟩ :: t)) := by
  cases hm.part q hf with
  | other hl hphase => exact .inl ⟨fun op a => hl op (.ok a), hphase⟩
  | start hphase hstop => exact .inr (.inl ⟨hstop, hphase⟩)
  | unnamed hphase hswap hnew => exact .inr (.inr (.inl ⟨hnew, hswap, hphase⟩))
  | ok op a hl hstate hphase hp ha =>
    refine .inr (.inr (.inr ⟨op, a, hl, hstate, ?_⟩))
    rw [hphase]
    exact turn_of_ok hp ha

/-- A round begins with a read of the counter, and reads the rows once. -/
theorem Turn.round {φ' : Phase} {r : Option (List DomainRow)} (hturn : Turn cfg s φ op φ')
    (h : φ'.round = some (b, r)) :
    φ.round = some (b, r) ∨ op.apply p s = s ∧ (b = s.dirtyCount ∧ r = none ∨
      φ.round = some (b, none) ∧ ∃ rows, r = some rows ∧ Agrees rows s.db) := by
  cases hturn with
  | stay _ => exact .inl h
  | @other _ φ' _ _ _ hkind _ => cases φ' <;> first | exact absurd rfl hkind | cases h
  | count =>
    cases h
    exact .inr ⟨rfl, .inl ⟨rfl, rfl⟩⟩
  | fetch hagrees =>
    cases h
    exact .inr ⟨rfl, .inr ⟨rfl, _, rfl, hagrees⟩⟩
  | clear | add | present | absent | swap | drop => exact .inl h
  | lock | again | ended | scan | look | erase | unlock => cases h

/-! ### The invariant -/

/-- What is known of the rounds that are on. -/
structure Rounds (cfg : Config) (kinds : Kind → Prop) (t : List Event) (s : World) : Prop where
  counted : ∀ p b r, (phaseOf cfg kinds p t).round = some (b, r) → NotBehind b s.dirtyCount
  current : ∀ p b rows, (phaseOf cfg kinds p t).round = some (b, some rows) →
    Agrees rows s.db ∨ OwesBump cfg kinds t ∨ s.dirtyCount ≠ b

theorem Rounds.init : Rounds cfg kinds [] s := ⟨nofun, nofun⟩

/-- The round of a process after a step. -/
theorem round_step {r : Option (List DomainRow)} (hf : AllFit cfg kinds t)
    (hm : SysMove cfg kinds t s l s')
    (h : (phaseOf cfg kinds q (⟨l, s, s'⟩ :: t)).round = some (b, r)) :
    (phaseOf cfg kinds q t).round = some (b, r) ∨
      s' = s ∧ (b = s.dirtyCount ∧ r = none ∨ (phaseOf cfg kinds q t).round = some (b, none) ∧
        ∃ rows, r = some rows ∧ Agrees rows s.db) := by
  rcases phase_cases hf hm q with ⟨_, hsame⟩ | ⟨_, hidle⟩ | ⟨_, _, habort⟩ | ⟨op, a, _, rfl, hturn⟩
  · rw [hsame] at h
    exact .inl h
  · rw [hidle] at h
    cases h
  · rw [habort] at h
    cases h
  · exact hturn.round h

/-- An `INCR` step. -/
theorem apply_of_incrDirty {r : Except Exn Unit} (hm : SysMove cfg kinds t s l s')
    (hl : l = .answer p .incrDirty r) : s' = s.incrDirty := by
  cases hm with
  | start _ => cases hl
  | ok _ _ _ =>
    cases hl
    rfl
  | unnamed _ _ => cases hl
  | tick _ => cases hl

/-- The rounds that are on after a step. -/
theorem Rounds.step (h : Rounds cfg kinds t s) (hwarm : cfg.warmEnabled = true)
    (hf : AllFit cfg kinds t) (hkept : CounterKept cfg kinds t ⟨l, s, s'⟩)
    (hm : SysMove cfg kinds t s l s') : Rounds cfg kinds (⟨l, s, s'⟩ :: t) s' := by
  by_cases hincr : ∃ p r, l = .answer p .incrDirty r
  · -- Every round that is on was on before, and the counter has left what it has read.
    obtain ⟨p, r, hl⟩ := hincr
    obtain rfl := apply_of_incrDirty hm hl
    have hpast : ∀ q b r, (phaseOf cfg kinds q (⟨l, s, s.incrDirty⟩ :: t)).round = some (b, r) →
        NotBehind b s.dirtyCount := by
      intro q b r hr
      rcases round_step hf hm hr with hsame | ⟨hidle, _⟩
      · exact h.counted q b r hsame
      · exact absurd hidle (incrDirty_ne s)
    exact ⟨fun q b r hr => (hpast q b r hr).incr.1,
      fun q b rows hr => .inr (.inr (hpast q b _ hr).incr.2)⟩
  · have hno : ∀ p r, l ≠ .answer p .incrDirty r := fun p r hl => hincr ⟨p, r, hl⟩
    have hcount : ∀ q x, (phaseOf cfg kinds q t).round = some x → s'.dirtyCount = s.dirtyCount :=
      fun q x hq => hkept ⟨q, by rw [hq]; nofun⟩ hno
    constructor
    · intro q b r hr
      rcases round_step hf hm hr with hsame | ⟨rfl, ⟨rfl, rfl⟩ | ⟨hopen, _⟩⟩
      · rw [hcount q _ hsame]
        exact h.counted q b r hsame
      · exact fun i hi => ⟨i, hi, Nat.le_refl i⟩
      · exact h.counted q b none hopen
    · intro q b rows hr
      rcases round_step hf hm hr with hsame | ⟨rfl, ⟨_, hnone⟩ | ⟨_, rows', hrows, hagrees⟩⟩
      · rcases h.current q b rows hsame with hagrees | howes | hmoved
        · rcases hasRow_step hwarm hf hm with hdb | howes
          · exact .inl fun x => (hagrees x).trans (hdb x).symm
          · exact .inr (.inl howes)
        · exact .inr (.inl (howes.step hf hm hno))
        · rw [hcount q _ hsame]
          exact .inr (.inr hmoved)
      · cases hnone
      · cases hrows
        exact .inl hagrees

end MtShards.Resolver
