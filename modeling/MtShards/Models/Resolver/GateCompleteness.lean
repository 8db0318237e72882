import MtShards.Models.Resolver.Resurrection

/-!
# The host set of the gate is complete

A hostname that is missing from `treg:hosts` while the key has no expiry is refused for good. A
writer that has committed a row arms the key after it has bumped the counter; a reconcile replaces
the key, expiry and all, by the set of the rows it has read, and looks at the counter afterwards. So
the set is complete, or a writer has yet to arm it, or a reconcile has another round to come; unless
the counter has moved in its third round, or its lock has expired under it.
-/

namespace MtShards.Resolver

open MtShards.Core

variable {cfg : Config} {kinds : Kind → Prop} {t : List Event} {s s₀ s' : World} {p q : Pid}
  {op : Req} {φ : Phase} {l : SysLabel} {b : Option Nat} {h : Host} {S : Finset Host}
  {rows : List DomainRow}

/-- A writer has committed and has not armed the host set yet. -/
abbrev OwesArm (cfg : Config) (kinds : Kind → Prop) : List Event → Prop :=
  Owing cfg kinds fun o => o.arm = true

/-- The rounds of a reconcile are not over. -/
def Phase.InRounds : Phase → Prop
  | holding _ | opened _ _ | cleared _ _ | building _ _ _ _ | swapping _ _ _ | emptying _ _ _
  | built _ _ _ => True
  | _ => False

/-- What a round has put into the set that it builds. -/
def Phase.Builds (s : World) : Phase → Prop
  | cleared _ _ => s.hostsNew = ∅
  | building _ _ _ added => s.hostsNew = added.toFinset
  | swapping _ _ rows => s.hostsNew = (hostsOfRows rows).toFinset ∧ s.hostsNew ≠ ∅
  | _ => True

/-! ### The condition -/

/-- A reconcile runs only while it holds its lock. -/
def LockKept (cfg : Config) (kinds : Kind → Prop) (t : List Event) (e : Event) : Prop :=
  ∀ p, (phaseOf cfg kinds p t).kind = some .reconcile → e.pre.lockHolder = some p

/-- The counter stands still in the third round of a reconcile, or no hostname was added since it has
read the rows. -/
def ThirdCurrent (cfg : Config) (kinds : Kind → Prop) (t : List Event) (e : Event) : Prop :=
  ∀ p n b rows, e.label = .answer p .getDirty (.ok n) → phaseOf cfg kinds p t = .built 0 b rows →
    n = b ∨ ∀ h, e.pre.db.HasRow h → h ∈ hostsOfRows rows

/-- The condition on a step. -/
structure Steady (cfg : Config) (kinds : Kind → Prop) (t : List Event) (e : Event) : Prop where
  counter : CounterKept cfg kinds t e
  lock : LockKept cfg kinds t e
  third : ThirdCurrent cfg kinds t e

/-- Two reconciles that run are one. -/
theorem LockKept.unique {e : Event} (hlock : LockKept cfg kinds t e)
    (hp : (phaseOf cfg kinds p t).kind = some .reconcile)
    (hq : (phaseOf cfg kinds q t).kind = some .reconcile) : p = q :=
  Option.some.inj ((hlock p hp).symm.trans (hlock q hq))

/-- A request that does not write the new set leaves it alone. -/
theorem apply_hostsNew (p : Pid) (s : World) (hop : op.writesNew = false) :
    (op.apply p s).hostsNew = s.hostsNew := by
  by_cases hc : op.conditional = true
  · obtain ⟨_, _, _, happly⟩ := apply_of_conditional p s hc
    rw [happly]
  · cases op
    case deleteNew | saddNew | rename => cases hop
    case updateStatus | acquire | release | setMarker => exact absurd rfl hc
    all_goals rfl

/-- What a round has put into the new set stays there while the set is left alone. -/
theorem Phase.Builds.congr (hbuilds : φ.Builds s) (hnew : s'.hostsNew = s.hostsNew) :
    φ.Builds s' := by
  cases φ with
  | cleared => exact hnew.trans hbuilds
  | building => exact hnew.trans hbuilds
  | swapping => exact ⟨hnew.trans hbuilds.1, fun hempty => hbuilds.2 (hnew.symm.trans hempty)⟩
  | _ => trivial

/-! ### The host set -/

/-- A step that leaves the host set without expiry: it has left it alone, its process has yet to arm
it, or it was a `RENAME`. -/
theorem hosts_step (hf : AllFit cfg kinds t) (hm : SysMove cfg kinds t s l s')
    (hS : s'.hosts = some ⟨S, none⟩) :
    s.hosts = some ⟨S, none⟩ ∨ OwesArm cfg kinds (⟨l, s, s'⟩ :: t) ∨
      ∃ p, l = .answer p .rename (.ok ()) ∧ S = s.hostsNew := by
  cases hm with
  | start _ => exact .inl hS
  | unnamed _ _ => exact .inl hS
  | tick _ => exact .inl hS
  | @ok p op a hp ha henabled =>
    clear henabled
    by_cases hc : op.conditional = true
    · obtain ⟨_, _, _, happly⟩ := apply_of_conditional p s hc
      rw [happly] at hS
      exact .inl hS
    · cases op
      case rename =>
        refine .inr (.inr ⟨p, rfl, ?_⟩)
        cases hS
        rfl
      case deleteHosts => cases hS
      case expireHosts ttl =>
        simp only [Req.apply, World.expireHosts] at hS
        split at hS <;> cases hS
      case saddHosts | sremHosts =>
        obtain ⟨o, ho, _, harm⟩ := hp
        refine .inr (.inl ⟨p, o, ?_, harm⟩)
        rw [phaseOf_ok (hf p).1, ho]
        rfl
      case updateStatus | acquire | release | setMarker => exact absurd rfl hc
      all_goals exact .inl hS

/-- An armed set has an expiry, so a debt to arm stays where the set has none. -/
theorem OwesArm.step (harm : OwesArm cfg kinds t) (hf : AllFit cfg kinds t)
    (hm : SysMove cfg kinds t s l s') (hS : s'.hosts = some ⟨S, none⟩) :
    OwesArm cfg kinds (⟨l, s, s'⟩ :: t) := by
  obtain ⟨q, o, hq, ho⟩ := harm
  have hopen : ¬ o.Settled := fun hset => by
    rw [hset.2.2] at ho
    cases ho
  obtain ⟨o', ho', -, hkept⟩ := owes_step hf hq hopen hm
  refine ⟨q, o', ho', (hkept ?_).trans ho⟩
  rintro ttl r hl
  cases hm with
  | start _ => cases hl
  | unnamed _ _ => cases hl
  | tick _ => cases hl
  | ok _ _ _ =>
    cases hl
    simp only [Req.apply, World.expireHosts] at hS
    split at hS <;> cases hS

/-! ### The invariant -/

/-- What is known of the host set, of the set that a round builds and of what is owed. -/
structure Gated (cfg : Config) (kinds : Kind → Prop) (t : List Event) (s : World) : Prop where
  armsLast : ∀ p, (phaseOf cfg kinds p t).ArmsLast
  builds : ∀ p, (phaseOf cfg kinds p t).Builds s
  /-- A round that has put its set in place finds its rows there, unless a writer has yet to arm. -/
  placed : ∀ p left b rows, phaseOf cfg kinds p t = .built left b rows →
    ∀ S, s.hosts = some ⟨S, none⟩ → OwesArm cfg kinds t ∨ ∀ h ∈ hostsOfRows rows, h ∈ S
  /-- The set is complete, a writer has yet to arm it, or a reconcile is not done with it. -/
  complete : ∀ S, s.hosts = some ⟨S, none⟩ → OwesArm cfg kinds t ∨
    (∃ p, (phaseOf cfg kinds p t).InRounds) ∨ ∀ h, s.db.HasRow h → h ∈ S

/-- A writer that has yet to bump the counter has yet to arm the host set. -/
theorem OwesBump.owesArm (howes : OwesBump cfg kinds t)
    (harms : ∀ p, (phaseOf cfg kinds p t).ArmsLast) : OwesArm cfg kinds t := by
  obtain ⟨q, o, hq, hbump⟩ := howes
  have harm := harms q
  rw [hq] at harm
  exact ⟨q, o, hq, harm hbump⟩

/-- Every turn keeps the arming of the host set behind the bump. -/
theorem Turn.armsLast {φ' : Phase} (hturn : Turn cfg s φ op φ') (harms : φ.ArmsLast) :
    φ'.ArmsLast := by
  cases hturn with
  | stay _ => exact harms
  | other _ _ _ hkept => exact hkept harms
  | _ => trivial

/-- Every turn keeps what a round has put into the new set. -/
theorem Turn.builds {φ' : Phase} (hturn : Turn cfg s φ op φ') (hbuilds : φ.Builds s) :
    φ'.Builds (op.apply p s) := by
  cases hturn with
  | stay hnew => exact hbuilds.congr (apply_hostsNew p s hnew)
  | other _ _ hkind _ => cases φ' <;> first | exact absurd rfl hkind | trivial
  | clear => rfl
  | fetch _ => exact hbuilds
  | add =>
    change s.hostsNew ∪ _ = _
    rw [show s.hostsNew = _ from hbuilds, List.toFinset_append]
  | present hne => exact ⟨hbuilds, hne⟩
  | lock | count | absent | swap | drop | again | ended | scan | look | erase | unlock => trivial

/-- A request that writes the set of a round is one of a reconcile. -/
theorem Turn.kind_of_writesNew {φ' : Phase} (hturn : Turn cfg s φ op φ')
    (hnew : op.writesNew = true) : φ.kind = some .reconcile := by
  cases hturn with
  | stay hsame => exact absurd (hsame.symm.trans hnew) Bool.false_ne_true
  | other hsame _ _ _ => exact absurd (hsame.symm.trans hnew) Bool.false_ne_true
  | clear | add | swap => rfl
  | lock | count | fetch | present | absent | drop | again | ended | scan | look | erase | unlock =>
    cases hnew

/-- What a round has built, where another process makes the step. -/
theorem Phase.Builds.step_of_same (hbuilds : (phaseOf cfg kinds q t).Builds s)
    (hlock : LockKept cfg kinds t ⟨l, s, s'⟩) (hm : SysMove cfg kinds t s l s')
    (hsame : ∀ op a, l ≠ .answer q op (.ok a)) : (phaseOf cfg kinds q t).Builds s' := by
  cases hm with
  | start _ => exact hbuilds
  | unnamed _ _ => exact hbuilds
  | tick _ => exact hbuilds.congr rfl
  | @ok p op a hp ha _ =>
    by_cases hnew : op.writesNew = false
    · exact hbuilds.congr (apply_hostsNew p s hnew)
    · have hkind := (turn_of_ok hp ha).kind_of_writesNew (by simpa using hnew)
      have hidle : (phaseOf cfg kinds q t).kind ≠ some .reconcile := by
        intro hq
        cases hlock.unique hkind hq
        exact hsame op a rfl
      cases hφ : phaseOf cfg kinds q t <;> rw [hφ] at hidle <;> trivial

/-- No `RENAME` fails: the round has built its set, and nobody else has taken it away. -/
theorem Gated.hostsNew_ne (hg : Gated cfg kinds t s) {left : Nat}
    (hφ : phaseOf cfg kinds q t = .swapping left b rows) : s.hostsNew ≠ ∅ := by
  have hbuilds := hg.builds q
  rw [hφ] at hbuilds
  exact hbuilds.2

private theorem kind_of_rename (hm : SysMove cfg kinds t s l s') (hl : l = .answer p .rename (.ok ())) :
    (phaseOf cfg kinds p t).kind = some .reconcile := by
  cases hm with
  | start _ => cases hl
  | unnamed _ _ => cases hl
  | tick _ => cases hl
  | ok hp _ _ =>
    cases hl
    obtain ⟨_, _, _, hφ⟩ := hp
    rw [hφ]
    rfl

private theorem inRounds_of_rename (hf : AllFit cfg kinds t) (hm : SysMove cfg kinds t s l s')
    (hl : l = .answer p .rename (.ok ())) :
    (phaseOf cfg kinds p (⟨l, s, s'⟩ :: t)).InRounds := by
  cases hm with
  | start _ => cases hl
  | unnamed _ _ => cases hl
  | tick _ => cases hl
  | ok hp _ _ =>
    cases hl
    obtain ⟨_, _, _, hφ⟩ := hp
    rw [phaseOf_ok (hf p).1, hφ]
    trivial

private theorem answer_of_getDirty {n : Option Nat} (hm : SysMove cfg kinds t s l s')
    (hl : l = .answer p .getDirty (.ok n)) : n = s.dirtyCount := by
  cases hm with
  | start _ => cases hl
  | unnamed _ _ => cases hl
  | tick _ => cases hl
  | ok _ ha _ =>
    cases hl
    exact ha

/-! ### One step -/

section OneStep

variable (hg : Gated cfg kinds t s) (hf : AllFit cfg kinds t) (hm : SysMove cfg kinds t s l s')

include hg hf hm

/-- After a step every process still arms the host set last. -/
theorem Gated.armsLast_step (q : Pid) : (phaseOf cfg kinds q (⟨l, s, s'⟩ :: t)).ArmsLast := by
  rcases phase_cases hf hm q with ⟨_, hsame⟩ | ⟨_, hidle⟩ | ⟨_, _, habort⟩ | ⟨op, a, _, _, hturn⟩
  · rw [hsame]
    exact hg.armsLast q
  · rw [hidle]
    trivial
  · rw [habort]
    trivial
  · exact hturn.armsLast (hg.armsLast q)

/-- After a step the rounds have put into the new set what they should. -/
theorem Gated.builds_step (hlock : LockKept cfg kinds t ⟨l, s, s'⟩) (q : Pid) :
    (phaseOf cfg kinds q (⟨l, s, s'⟩ :: t)).Builds s' := by
  rcases phase_cases hf hm q with ⟨hno, hsame⟩ | ⟨_, hidle⟩ | ⟨_, _, habort⟩ | ⟨op, a, _, rfl, hturn⟩
  · rw [hsame]
    exact (hg.builds q).step_of_same hlock hm hno
  · rw [hidle]
    trivial
  · rw [habort]
    trivial
  · exact hturn.builds (hg.builds q)

/-- When a round has renamed its set over the host set, the set has every hostname of its rows, or a
writer has yet to arm. -/
theorem Gated.placed_step (hlock : LockKept cfg kinds t ⟨l, s, s'⟩) {left : Nat}
    (hφ : phaseOf cfg kinds q (⟨l, s, s'⟩ :: t) = .built left b rows)
    (hS : s'.hosts = some ⟨S, none⟩) :
    OwesArm cfg kinds (⟨l, s, s'⟩ :: t) ∨ ∀ h ∈ hostsOfRows rows, h ∈ S := by
  -- What stays in place, when the round was over before the step.
  have stays (hbuilt : phaseOf cfg kinds q t = .built left b rows)
      (hno : ∀ p, l ≠ .answer p .rename (.ok ())) :
      OwesArm cfg kinds (⟨l, s, s'⟩ :: t) ∨ ∀ h ∈ hostsOfRows rows, h ∈ S := by
    rcases hosts_step hf hm hS with hsame | howes | ⟨p, hl, _⟩
    · exact (hg.placed q left b rows hbuilt S hsame).imp_left fun howes => howes.step hf hm hS
    · exact .inl howes
    · exact absurd hl (hno p)
  rcases phase_cases hf hm q with ⟨hno, hsame⟩ | ⟨_, hidle⟩ | ⟨_, _, habort⟩ | ⟨op, a, hl, rfl, hturn⟩
  · rw [hsame] at hφ
    refine stays hφ fun p hl => ?_
    -- Another reconcile that renames would hold the lock as well.
    have hq : (phaseOf cfg kinds q t).kind = some .reconcile := by
      rw [hφ]
      rfl
    cases hlock.unique (kind_of_rename hm hl) hq
    exact hno _ _ hl
  · rw [hidle] at hφ
    cases hφ
  · rw [habort] at hφ
    cases hφ
  · rw [hφ] at hturn
    generalize hold : phaseOf cfg kinds q t = ψ at hturn
    cases hturn with
    | stay hnew =>
      refine stays hold fun p hl' => ?_
      cases hl.symm.trans hl'
      cases hnew
    | other _ _ hkind _ => exact absurd rfl hkind
    | swap =>
      cases hS
      have hbuilds := hg.builds q
      rw [hold] at hbuilds
      refine .inr fun h hmem => ?_
      rw [hbuilds.1]
      exact List.mem_toFinset.mpr hmem
    | drop => cases hS

omit hf hm in
/-- When a reconcile ends its rounds, the set is complete or a writer has yet to arm it. -/
theorem Gated.complete_of_over (hrounds : Rounds cfg kinds t s)
    (hthird : ThirdCurrent cfg kinds t ⟨.answer q .getDirty (.ok s.dirtyCount), s, s⟩) {left : Nat}
    (hφ : phaseOf cfg kinds q t = .built left b rows) (hover : s.dirtyCount = b ∨ left = 0)
    (hS : s.hosts = some ⟨S, none⟩) : OwesArm cfg kinds t ∨ ∀ h, s.db.HasRow h → h ∈ S := by
  rcases hg.placed q left b rows hφ S hS with howes | hplaced
  · exact .inl howes
  · rcases hrounds.current q b rows (by rw [hφ]; rfl) with hagrees | howes | hmoved
    · exact .inr fun h hrow => hplaced h ((hagrees h).mpr hrow)
    · exact .inl (howes.owesArm hg.armsLast)
    · obtain rfl : left = 0 := hover.resolve_left hmoved
      have hrows := (hthird q _ b rows rfl hφ).resolve_left hmoved
      exact .inr fun h hrow => hplaced h (hrows h hrow)

/-- After a step the host set is complete, or a reconcile is in its rounds, or a writer has yet to
arm. -/
theorem Gated.complete_step (hrounds : Rounds cfg kinds t s) (hwarm : cfg.warmEnabled = true)
    (hthird : ThirdCurrent cfg kinds t ⟨l, s, s'⟩) (hS : s'.hosts = some ⟨S, none⟩) :
    OwesArm cfg kinds (⟨l, s, s'⟩ :: t) ∨
      (∃ p, (phaseOf cfg kinds p (⟨l, s, s'⟩ :: t)).InRounds) ∨ ∀ h, s'.db.HasRow h → h ∈ S := by
  have kept (howes : OwesArm cfg kinds t) : OwesArm cfg kinds (⟨l, s, s'⟩ :: t) :=
    howes.step hf hm hS
  rcases hosts_step hf hm hS with hsame | howes | ⟨p, hl, _⟩
  · rcases hg.complete S hsame with howes | ⟨q, hq⟩ | hall
    · exact .inl (kept howes)
    · rcases phase_cases hf hm q with ⟨_, hstay⟩ | ⟨hstop, _⟩ | ⟨hempty, ⟨_, _, _, hφ⟩, _⟩ |
        ⟨op, a, hl, rfl, hturn⟩
      · rw [← hstay] at hq
        exact .inr (.inl ⟨q, hq⟩)
      · cases hφ : phaseOf cfg kinds q t <;> rw [hφ] at hq hstop <;> first | exact hq.elim | exact hstop.elim
      · exact absurd hempty (hg.hostsNew_ne hφ)
      · generalize hnew : phaseOf cfg kinds q (⟨l, s, op.apply q s⟩ :: t) = ψ at hturn
        generalize hold : phaseOf cfg kinds q t = φ at hturn hq
        have goes (hψ : ψ.InRounds) :
            ∃ p, (phaseOf cfg kinds p (⟨l, s, op.apply q s⟩ :: t)).InRounds := by
          rw [← hnew] at hψ
          exact ⟨q, hψ⟩
        cases hturn with
        | stay _ => exact .inr (.inl (goes hq))
        | other _ hkind _ _ => cases φ <;> first | exact hq.elim | exact absurd rfl hkind
        | count | clear | fetch | add | present | absent | swap | drop | again =>
          exact .inr (.inl (goes trivial))
        | lock | scan | look | erase => exact hq.elim
        | ended hover =>
          obtain rfl := answer_of_getDirty hm hl
          rw [hl] at hthird
          exact (hg.complete_of_over hrounds hthird hold hover hsame).imp kept .inr
        | unlock hlast => rcases hlast with rfl | ⟨_, rfl⟩ <;> exact hq.elim
    · rcases hasRow_step hwarm hf hm with hdb | howes
      · exact .inr (.inr fun h hrow => hall h ((hdb h).mp hrow))
      · exact .inl (howes.owesArm (hg.armsLast_step hf hm))
  · exact .inl howes
  · exact .inr (.inl ⟨p, inRounds_of_rename hf hm hl⟩)

/-- Every steady step keeps what is known of the host set. -/
theorem Gated.step (hrounds : Rounds cfg kinds t s) (hwarm : cfg.warmEnabled = true)
    (hsteady : Steady cfg kinds t ⟨l, s, s'⟩) : Gated cfg kinds (⟨l, s, s'⟩ :: t) s' where
  armsLast := hg.armsLast_step hf hm
  builds := hg.builds_step hf hm hsteady.lock
  placed _ _ _ _ hφ _ hS := hg.placed_step hf hm hsteady.lock hφ hS
  complete _ hS := hg.complete_step hf hm hrounds hwarm hsteady.third hS

end OneStep

/-! ### Every run -/

/-- Without a history nothing is owed and no reconcile runs: the set is complete. -/
theorem Gated.init (h₀ : ∀ S, s.hosts = some ⟨S, none⟩ → ∀ h, s.db.HasRow h → h ∈ S) :
    Gated cfg kinds [] s where
  armsLast _ := trivial
  builds _ := trivial
  placed := nofun
  complete S hS := .inr (.inr (h₀ S hS))

/-- A process that may stop is not in the rounds of a reconcile. -/
theorem Phase.MayStop.not_inRounds (hstop : φ.MayStop) : ¬ φ.InRounds := by
  cases φ <;> first | exact hstop.elim | exact id

/-- A hostname is no member only of a set that is there. -/
theorem World.members_of_nonmember (hcheck : s.check h = .nonmember) :
    ∃ S, s.members = some S ∧ h ∉ S := by
  unfold World.check at hcheck
  split at hcheck
  · cases hcheck
  · rename_i S hS
    split at hcheck
    · cases hcheck
    · rename_i hmem
      exact ⟨S, hS, hmem⟩

/-- A set that has the hostname or an expiry does not refuse the hostname for good. -/
theorem World.check_of_later (hset : ∀ S, s.hosts = some ⟨S, none⟩ → h ∈ S) :
    ∃ T, ∀ n, T ≤ n → { s with now := n }.check h ≠ .nonmember := by
  refine ⟨(s.hosts.bind Cell.expiry).getD 0, fun n hn hcheck => ?_⟩
  obtain ⟨S, hS, hmem⟩ := World.members_of_nonmember hcheck
  obtain ⟨expiry, hhosts, halive⟩ := Cell.peek_eq_some.mp hS
  have hhosts : s.hosts = some ⟨S, expiry⟩ := hhosts
  cases expiry with
  | none => exact hmem (hset S hhosts)
  | some e =>
    rw [hhosts] at hn
    exact absurd (halive e rfl) (Nat.not_lt.mpr hn)

/-- The gate is complete: in every run whose reconciles keep their lock and end with a counter that
stands still, once every program has ended a host set without expiry has every hostname of a row, and
the gate refuses no such hostname for good. -/
theorem gate_complete {c : Core.Config Pid Req Req.Ans Exn World} (hwarm : cfg.warmEnabled = true)
    (h₀ : ∀ S, s₀.hosts = some ⟨S, none⟩ → ∀ h, s₀.db.HasRow h → h ∈ S)
    (hrun : SysRun cfg kinds s₀ t c) (hsteady : Throughout (Steady cfg kinds) t)
    (hdone : ∀ p, ∃ r, c.proc p = some (.done r)) (hrow : c.shared.db.HasRow h) :
    (∀ S, c.shared.hosts = some ⟨S, none⟩ → h ∈ S) ∧
      ∃ T, ∀ n, T ≤ n → { c.shared with now := n }.check h ≠ .nonmember := by
  let I : List Event → World → Prop := fun t s => Rounds cfg kinds t s ∧ Gated cfg kinds t s
  obtain ⟨-, -, hg⟩ : AllFit cfg kinds t ∧ I t c.shared := by
    refine SysRun.invariant (Steady cfg kinds) I ⟨.init, .init h₀⟩ ?_ hrun hsteady
    rintro t s l s' hf ⟨hrounds, hg⟩ hw hm
    exact ⟨hrounds.step hwarm hf hw.counter hm, hg.step hf hm hrounds hwarm hw⟩
  have hstop (q : Pid) : (phaseOf cfg kinds q t).MayStop := by
    obtain ⟨r, hr⟩ := hdone q
    exact hrun.follows system_follows q hr
  have hset : ∀ S, c.shared.hosts = some ⟨S, none⟩ → h ∈ S := by
    intro S hS
    rcases hg.complete S hS with ⟨q, o, hq, harm⟩ | ⟨q, hq⟩ | hall
    · have hsettled := hstop q
      rw [hq] at hsettled
      rw [hsettled.2.2] at harm
      cases harm
    · exact absurd hq (hstop q).not_inRounds
    · exact hall h hrow
  exact ⟨hset, World.check_of_later hset⟩

/-! ### The lock of a reconcile -/

/-- The lock has a positive life when it is taken, and time does not take it away. -/
def LockLasts (e : Event) : Prop :=
  (∀ p ttl, e.label = .answer p (.acquire ttl) (.ok true) → 0 < ttl) ∧
    (e.label = .env → e.post.lockHolder = e.pre.lockHolder)

/-- Only its holder gives the lock back. -/
theorem lockHolder_step (hlasts : LockLasts ⟨l, s, s'⟩) (hm : SysMove cfg kinds t s l s')
    (hheld : s.lockHolder = some q) (hkept : ∀ a, l ≠ .answer q .release (.ok a)) :
    s'.lockHolder = some q := by
  cases hm with
  | start _ => exact hheld
  | unnamed _ _ => exact hheld
  | tick _ => exact (hlasts.2 rfl).trans hheld
  | @ok p op a hp ha henabled =>
    clear henabled
    cases op
    case acquire ttl =>
      rw [show (Req.acquire ttl).apply p s = s from if_neg (by rw [hheld]; nofun)]
      exact hheld
    case release =>
      have hne : s.lockHolder ≠ some p := by
        rw [hheld]
        rintro ⟨⟩
        exact hkept a rfl
      rw [show Req.release.apply p s = s from if_neg hne]
      exact hheld
    case updateStatus | setMarker =>
      simp only [Req.apply]
      split <;> exact hheld
    all_goals exact hheld

/-- A process that has asked for the lock and then reconciles has got it. -/
theorem lock_of_acquire (hf : AllFit cfg kinds t) (hm : SysMove cfg kinds t s l s')
    (hq : (phaseOf cfg kinds q (⟨l, s, s'⟩ :: t)).kind = some .reconcile) (ttl : Nat) (a : Bool)
    (hl : l = .answer q (.acquire ttl) (.ok a)) :
    a = true ∧ s'.lock = some (.lasting s'.now q (some ttl)) := by
  cases hm with
  | start _ => cases hl
  | unnamed _ _ => cases hl
  | tick _ => cases hl
  | ok hp ha _ =>
    cases hl
    rw [phaseOf_ok (hf q).1, hp.1] at hq
    cases a with
    | false => cases hq
    | true =>
      have hfree : s.lockHolder = none := of_decide_eq_true (Eq.symm ha)
      rw [show (Req.acquire ttl).apply q s = _ from if_pos hfree]
      exact ⟨rfl, rfl⟩

private theorem idle_of_release {a : Bool} (hf : AllFit cfg kinds t)
    (hm : SysMove cfg kinds t s (.answer q .release (.ok a)) s') :
    phaseOf cfg kinds q (⟨.answer q .release (.ok a), s, s'⟩ :: t) = .idle := by
  cases hm with
  | ok _ _ _ =>
    rw [phaseOf_ok (hf q).1]
    rfl

/-- A reconcile that runs has taken the lock just now, or was running before. -/
theorem kind_step (hf : AllFit cfg kinds t) (hm : SysMove cfg kinds t s l s')
    (hq : (phaseOf cfg kinds q (⟨l, s, s'⟩ :: t)).kind = some .reconcile) :
    (phaseOf cfg kinds q t).kind = some .reconcile ∨
      ∃ ttl, l = .answer q (.acquire ttl) (.ok true) ∧
        s'.lock = some (.lasting s'.now q (some ttl)) := by
  rcases phase_cases hf hm q with ⟨_, hsame⟩ | ⟨_, hidle⟩ | ⟨_, ⟨_, _, _, hφ⟩, _⟩ | ⟨op, a, hl, rfl, hturn⟩
  · rw [hsame] at hq
    exact .inl hq
  · rw [hidle] at hq
    cases hq
  · rw [hφ]
    exact .inl rfl
  · have hlock := lock_of_acquire hf hm hq
    generalize phaseOf cfg kinds q (⟨l, s, op.apply q s⟩ :: t) = ψ at hturn hq
    generalize phaseOf cfg kinds q t = φ at hturn
    cases hturn with
    | stay _ => exact .inl hq
    | other _ _ hkind _ => exact absurd hq hkind
    | @lock ttl =>
      obtain ⟨rfl, hlock⟩ := hlock ttl a hl
      exact .inr ⟨ttl, hl, hlock⟩
    | unlock _ => cases hq
    | _ => exact .inl rfl

/-- Where no lock expires under its holder, a reconcile runs only while it holds its lock. -/
theorem lockKept_of_run {c : Core.Config Pid Req Req.Ans Exn World} (hrun : SysRun cfg kinds s₀ t c)
    (hlasts : Throughout (fun _ => LockLasts) t) : Throughout (LockKept cfg kinds) t := by
  let I : List Event → World → Prop := fun t s => Throughout (LockKept cfg kinds) t ∧
    ∀ q, (phaseOf cfg kinds q t).kind = some .reconcile → s.lockHolder = some q
  have hI : I [] s₀ := ⟨trivial, nofun⟩
  refine (SysRun.invariant (fun _ => LockLasts) I hI ?_ hrun hlasts).2.1
  rintro t s l s' hf ⟨hkept, hheld⟩ hlast hm
  refine ⟨⟨hheld, hkept⟩, fun q hq => ?_⟩
  rcases kind_step hf hm hq with hbefore | ⟨ttl, hl, hlock⟩
  · refine lockHolder_step hlast hm (hheld q hbefore) ?_
    rintro a rfl
    rw [idle_of_release hf hm] at hq
    cases hq
  · rw [World.lockHolder, hlock]
    exact Cell.peek_until q (Nat.lt_add_of_pos_right (hlast.1 q ttl hl))

/-! ### One tenant without domains -/

/-- Creations and reconciles. -/
def creationRace (k : Kind) : Prop := k = .create ∨ k = .reconcile

/-- One tenant, and no domain. -/
def bareDb : Database where
  tenants := [acme]
  domains := []
  tenant_id := acmeDb.tenant_id
  tenant_schema := acmeDb.tenant_schema
  domain_id := by simp
  domain_host := by simp
  foreign_key := by simp

def bareWorld : World := { acmeWorld with db := bareDb }

/-- A hostname that is missing in a set without an expiry stays so while time goes by. -/
theorem World.check_of_missing (hS : s.hosts = some ⟨S, none⟩) (hmem : h ∉ S) (n : Nat) :
    { s with now := n }.check h = .nonmember := by
  have hmembers : { s with now := n }.members = some S := congrArg (Cell.peek n) hS
  rw [World.check, hmembers]
  exact if_neg hmem

/-- In each of the three rounds of a reconcile a domain is created after the rows were read. The
third comparison sees the counter move as the two before it, but no round is left: the set that has
just been renamed lacks the third hostname and has lost its expiry, and the reconcile that was asked
for has found the lock taken. -/
theorem refused_for_good : warmPage.warmEnabled = true ∧
    (∀ S, bareWorld.hosts = some ⟨S, none⟩ → ∀ h, bareWorld.db.HasRow h → h ∈ S) ∧
    ∃ t c, SysRun warmPage creationRace bareWorld t c ∧ (∀ p, ∃ r, c.proc p = some (.done r)) ∧
      c.shared.queue = 0 ∧ c.shared.db.HasRow "c" ∧
      (∃ S, c.shared.hosts = some ⟨S, none⟩ ∧ "c" ∉ S) ∧
      ∀ n, { c.shared with now := n }.check "c" = .nonmember := by
  have r0 : SysRun warmPage creationRace bareWorld [] (.idle bareWorld) := .nil
  have r1 := r0.start 1 ⟨.reconcile, .inr rfl, .command⟩ rfl
  have r2 := r1.answer 1 .ping (.ok true) ⟨rfl, trivial, rfl⟩ rfl
  have r3 := r2.answer 1 (.acquire 120) (.ok true) ⟨rfl, trivial, rfl⟩ rfl
  have r4 := r3.answer 1 .ping (.ok true) ⟨rfl, trivial, rfl⟩ rfl
  have r5 := r4.answer 1 .getDirty (.ok none) ⟨rfl, trivial, rfl⟩ rfl
  have r6 := r5.answer 1 .deleteNew (.ok ()) ⟨trivial, trivial, rfl⟩ rfl
  have r7 := r6.answer 1 .readDomains (.ok []) ⟨.refl _, trivial, rfl⟩ rfl
  have r8 := r7.start 2 ⟨.create, .inl rfl, .create ⟨1, "a", 1⟩⟩ rfl
  have r9 := r8.answer 2 (.getMany [.host "a"]) (.ok []) ⟨rfl, trivial, rfl⟩ rfl
  have r10 := r9.answer 2 (.insertDomain ⟨1, "a", 1⟩) (.ok true) ⟨rfl, trivial, rfl⟩ rfl
  have r11 := r10.answer 2 (.set (.host "a") .tombstone (some 5)) (.ok ())
    ⟨trivial, trivial, rfl⟩ rfl
  have r12 := r11.answer 2 .existsHosts (.ok false) ⟨rfl, trivial, rfl⟩ rfl
  have r13 := r12.answer 2 .incrDirty (.ok ()) ⟨trivial, trivial, rfl⟩ rfl
  have r14 := r13.answer 2 (.expireDirty 3600) (.ok ()) ⟨trivial, trivial, rfl⟩ rfl
  have r15 := r14.answer 2 (.expireHosts 300) (.ok ()) ⟨trivial, trivial, rfl⟩ rfl
  have r16 := r15.answer 2 (.setMarker 10) (.ok true) ⟨rfl, trivial, rfl⟩ rfl
  have r17 := r16.answer 2 .enqueue (.ok ()) ⟨trivial, trivial, rfl⟩ rfl
  have r18 := r17.answer 1 .existsNew (.ok false) ⟨rfl, trivial, rfl⟩ rfl
  have r19 := r18.answer 1 .deleteHosts (.ok ()) ⟨trivial, trivial, rfl⟩ rfl
  have r20 := r19.answer 1 .getDirty (.ok (some 1)) ⟨rfl, trivial, rfl⟩ rfl
  have r21 := r20.start 3 ⟨.reconcile, .inr rfl, .task⟩ rfl
  have r22 := r21.answer 3 .dequeue (.ok ()) ⟨trivial, Nat.one_pos, rfl⟩ rfl
  have r23 := r22.answer 3 .ping (.ok true) ⟨rfl, trivial, rfl⟩ rfl
  have r24 := r23.answer 3 (.acquire 120) (.ok false) ⟨rfl, trivial, rfl⟩ rfl
  have r25 := r24.answer 1 .getDirty (.ok (some 1)) ⟨rfl, trivial, rfl⟩ rfl
  have r26 := r25.answer 1 .deleteNew (.ok ()) ⟨trivial, trivial, rfl⟩ rfl
  have r27 := r26.answer 1 .readDomains (.ok [⟨"a", acme⟩]) ⟨.refl _, trivial, rfl⟩ rfl
  have r28 := r27.start 2 ⟨.create, .inl rfl, .create ⟨2, "b", 1⟩⟩ rfl
  have r29 := r28.answer 2 (.getMany [.host "b"]) (.ok []) ⟨rfl, trivial, rfl⟩ rfl
  have r30 := r29.answer 2 (.insertDomain ⟨2, "b", 1⟩) (.ok true) ⟨rfl, trivial, rfl⟩ rfl
  have r31 := r30.answer 2 (.set (.host "b") .tombstone (some 5)) (.ok ())
    ⟨trivial, trivial, rfl⟩ rfl
  have r32 := r31.answer 2 .existsHosts (.ok false) ⟨rfl, trivial, rfl⟩ rfl
  have r33 := r32.answer 2 .incrDirty (.ok ()) ⟨trivial, trivial, rfl⟩ rfl
  have r34 := r33.answer 2 (.expireDirty 3600) (.ok ()) ⟨trivial, trivial, rfl⟩ rfl
  have r35 := r34.answer 2 (.expireHosts 300) (.ok ()) ⟨trivial, trivial, rfl⟩ rfl
  have r36 := r35.answer 2 (.setMarker 10) (.ok false) ⟨rfl, trivial, rfl⟩ rfl
  have r37 := r36.answer 1 (.saddNew ["a"]) (.ok ()) ⟨trivial, trivial, rfl⟩ rfl
  have r38 := r37.answer 1 (.set (.host "a") (.positive acme) none) (.ok ())
    ⟨trivial, trivial, rfl⟩ rfl
  have r39 := r38.answer 1 (.set (.schema "acme") (.positive acme) none) (.ok ())
    ⟨trivial, trivial, rfl⟩ rfl
  have r40 := r39.answer 1 .existsNew (.ok true) ⟨rfl, trivial, rfl⟩ rfl
  have r41 := r40.answer 1 .rename (.ok ())
    ⟨trivial, (by decide : (∅ ∪ ["a"].toFinset : Finset Host) ≠ ∅), rfl⟩ rfl
  have r42 := r41.answer 1 .getDirty (.ok (some 2)) ⟨rfl, trivial, rfl⟩ rfl
  have r43 := r42.answer 1 .getDirty (.ok (some 2)) ⟨rfl, trivial, rfl⟩ rfl
  have r44 := r43.answer 1 .deleteNew (.ok ()) ⟨trivial, trivial, rfl⟩ rfl
  have r45 := r44.answer 1 .readDomains (.ok [⟨"b", acme⟩, ⟨"a", acme⟩]) ⟨.refl _, trivial, rfl⟩ rfl
  have r46 := r45.start 2 ⟨.create, .inl rfl, .create ⟨3, "c", 1⟩⟩ rfl
  have r47 := r46.answer 2 (.getMany [.host "c"]) (.ok []) ⟨rfl, trivial, rfl⟩ rfl
  have r48 := r47.answer 2 (.insertDomain ⟨3, "c", 1⟩) (.ok true) ⟨rfl, trivial, rfl⟩ rfl
  have r49 := r48.answer 2 (.set (.host "c") .tombstone (some 5)) (.ok ())
    ⟨trivial, trivial, rfl⟩ rfl
  have r50 := r49.answer 2 .existsHosts (.ok true) ⟨rfl, trivial, rfl⟩ rfl
  have r51 := r50.answer 2 (.saddHosts "c") (.ok ()) ⟨trivial, trivial, rfl⟩ rfl
  have r52 := r51.answer 2 .incrDirty (.ok ()) ⟨trivial, trivial, rfl⟩ rfl
  have r53 := r52.answer 2 (.expireDirty 3600) (.ok ()) ⟨trivial, trivial, rfl⟩ rfl
  have r54 := r53.answer 2 (.expireHosts 300) (.ok ()) ⟨trivial, trivial, rfl⟩ rfl
  have r55 := r54.answer 2 (.setMarker 10) (.ok false) ⟨rfl, trivial, rfl⟩ rfl
  have r56 := r55.answer 1 (.saddNew ["b", "a"]) (.ok ()) ⟨trivial, trivial, rfl⟩ rfl
  have r57 := r56.answer 1 (.set (.host "b") (.positive acme) none) (.ok ())
    ⟨trivial, trivial, rfl⟩ rfl
  have r58 := r57.answer 1 (.set (.host "a") (.positive acme) none) (.ok ())
    ⟨trivial, trivial, rfl⟩ rfl
  have r59 := r58.answer 1 (.set (.schema "acme") (.positive acme) none) (.ok ())
    ⟨trivial, trivial, rfl⟩ rfl
  have r60 := r59.answer 1 .existsNew (.ok true) ⟨rfl, trivial, rfl⟩ rfl
  have r61 := r60.answer 1 .rename (.ok ())
    ⟨trivial, (by decide : (∅ ∪ ["b", "a"].toFinset : Finset Host) ≠ ∅), rfl⟩ rfl
  have r62 := r61.answer 1 .getDirty (.ok (some 3)) ⟨rfl, trivial, rfl⟩ rfl
  have r63 := r62.answer 1 .readSchemas (.ok ["acme"]) ⟨rfl, trivial, rfl⟩ rfl
  have r64 := r63.answer 1 (.scanHosts 0) (.ok ["a", "b", "c"])
    ⟨scanHosts_of_run [.schema "acme", .host "a", .host "b", .host "c", .schema "acme", .host "a", .host "b", .host "a"]
        r63 (fun _ => rfl) rfl (by simp), trivial, rfl⟩ rfl
  have r65 := r64.answer 1 (.getMany [.host "c"]) (.ok [(.host "c", .tombstone)])
    ⟨rfl, trivial, rfl⟩ rfl
  have r66 := r65.answer 1 (.scanSchemas 0) (.ok ["acme"])
    ⟨scanSchemas_of_run [.schema "acme", .host "a", .host "b", .host "c", .schema "acme", .host "a", .host "b", .host "a"]
        r65 (fun _ => rfl) rfl (by simp), trivial, rfl⟩ rfl
  have r67 := r66.answer 1 .release (.ok true) ⟨rfl, trivial, rfl⟩ rfl
  have hmem : "c" ∉ (∅ ∪ ["b", "a"].toFinset : Finset Host) := by decide
  refine ⟨rfl, nofun, _, _, r67, ?_, rfl, ?_, ⟨_, rfl, hmem⟩, World.check_of_missing rfl hmem⟩
  · exact r67.all_done [1, 2, 3] rfl ⟨⟨_, rfl⟩, ⟨_, rfl⟩, _, rfl⟩
  · exact ⟨⟨3, "c", 1⟩, List.mem_cons_self, rfl⟩

/-- The step reads the counter, takes the lock or lets time go by. -/
def isTimed : SysLabel → Bool
  | .answer _ .getDirty _ | .answer _ (.acquire _) _ | .env => true
  | _ => false

/-- What is asked of a step besides the lock that its reconcile holds. -/
def Orderly (cfg : Config) (kinds : Kind → Prop) (t : List Event) (e : Event) : Prop :=
  CounterKept cfg kinds t e ∧ ThirdCurrent cfg kinds t e ∧ LockLasts e

private theorem steady_of_run {c : Core.Config Pid Req Req.Ans Exn World} (hrun : SysRun cfg kinds s₀ t c)
    (horderly : Throughout (Orderly cfg kinds) t) : Throughout (Steady cfg kinds) t := by
  have hlock := lockKept_of_run hrun (horderly.mono fun _ _ h => h.2.2)
  exact (horderly.and hlock).mono fun _ _ h => ⟨h.1.1, h.2, h.1.2.1⟩

/-- A step that leaves the counter alone and is not about time is orderly. -/
theorem Orderly.of_not_timed {e : Event} (hcount : e.post.dirtyCount = e.pre.dirtyCount)
    (hplain : isTimed e.label = false) : Orderly cfg kinds t e := by
  refine ⟨fun _ _ => hcount, fun p n b rows hl => ?_, fun p ttl hl => ?_, fun hl => ?_⟩
  all_goals
    rw [hl] at hplain
    cases hplain

/-- Bumping the counter is orderly. -/
theorem Orderly.of_incr : Orderly cfg kinds t ⟨.answer p .incrDirty (.ok ()), s, s.incrDirty⟩ :=
  ⟨fun _ hincr => absurd rfl (hincr p _), nofun, nofun, nofun⟩

/-- Taking the lock for a positive time is orderly. -/
theorem Orderly.of_acquire {ttl : Nat} {a : Bool} (hcount : s'.dirtyCount = s.dirtyCount)
    (httl : 0 < ttl) : Orderly cfg kinds t ⟨.answer p (.acquire ttl) (.ok a), s, s'⟩ := by
  refine ⟨fun _ _ => hcount, nofun, fun q ttl' hl => ?_, nofun⟩
  cases hl
  exact httl

/-- The counter is read, and not at the end of a third round. -/
theorem Orderly.of_count {n : Option Nat} (hφ : ∀ b rows, phaseOf cfg kinds p t ≠ .built 0 b rows) :
    Orderly cfg kinds t ⟨.answer p .getDirty (.ok n), s, s⟩ := by
  refine ⟨fun _ _ => rfl, fun q m b rows hl hbuilt => ?_, nofun, nofun⟩
  cases hl
  exact absurd hbuilt (hφ b rows)

/-- A domain is created after the first round has read the rows; the second round finds it. -/
theorem completed_run : ∃ t c, SysRun warmPage creationRace bareWorld t c ∧
    Throughout (Steady warmPage creationRace) t ∧ (∀ p, ∃ r, c.proc p = some (.done r)) ∧
      c.shared.queue = 0 ∧ c.shared.db.HasRow "a" ∧ ∃ S, c.shared.hosts = some ⟨S, none⟩ := by
  have r0 : SysRun warmPage creationRace bareWorld [] (.idle bareWorld) := .nil
  have r1 := r0.start 1 ⟨.reconcile, .inr rfl, .command⟩ rfl
  have r2 := r1.answer 1 .ping (.ok true) ⟨rfl, trivial, rfl⟩ rfl
  have r3 := r2.answer 1 (.acquire 120) (.ok true) ⟨rfl, trivial, rfl⟩ rfl
  have r4 := r3.answer 1 .ping (.ok true) ⟨rfl, trivial, rfl⟩ rfl
  have r5 := r4.answer 1 .getDirty (.ok none) ⟨rfl, trivial, rfl⟩ rfl
  have r6 := r5.answer 1 .deleteNew (.ok ()) ⟨trivial, trivial, rfl⟩ rfl
  have r7 := r6.answer 1 .readDomains (.ok []) ⟨.refl _, trivial, rfl⟩ rfl
  have r8 := r7.start 2 ⟨.create, .inl rfl, .create ⟨1, "a", 1⟩⟩ rfl
  have r9 := r8.answer 2 (.getMany [.host "a"]) (.ok []) ⟨rfl, trivial, rfl⟩ rfl
  have r10 := r9.answer 2 (.insertDomain ⟨1, "a", 1⟩) (.ok true) ⟨rfl, trivial, rfl⟩ rfl
  have r11 := r10.answer 2 (.set (.host "a") .tombstone (some 5)) (.ok ())
    ⟨trivial, trivial, rfl⟩ rfl
  have r12 := r11.answer 2 .existsHosts (.ok false) ⟨rfl, trivial, rfl⟩ rfl
  have r13 := r12.answer 2 .incrDirty (.ok ()) ⟨trivial, trivial, rfl⟩ rfl
  have r14 := r13.answer 2 (.expireDirty 3600) (.ok ()) ⟨trivial, trivial, rfl⟩ rfl
  have r15 := r14.answer 2 (.expireHosts 300) (.ok ()) ⟨trivial, trivial, rfl⟩ rfl
  have r16 := r15.answer 2 (.setMarker 10) (.ok true) ⟨rfl, trivial, rfl⟩ rfl
  have r17 := r16.answer 2 .enqueue (.ok ()) ⟨trivial, trivial, rfl⟩ rfl
  have r18 := r17.start 3 ⟨.reconcile, .inr rfl, .task⟩ rfl
  have r19 := r18.answer 3 .dequeue (.ok ()) ⟨trivial, Nat.one_pos, rfl⟩ rfl
  have r20 := r19.answer 3 .ping (.ok true) ⟨rfl, trivial, rfl⟩ rfl
  have r21 := r20.answer 3 (.acquire 120) (.ok false) ⟨rfl, trivial, rfl⟩ rfl
  have r22 := r21.answer 1 .existsNew (.ok false) ⟨rfl, trivial, rfl⟩ rfl
  have r23 := r22.answer 1 .deleteHosts (.ok ()) ⟨trivial, trivial, rfl⟩ rfl
  have r24 := r23.answer 1 .getDirty (.ok (some 1)) ⟨rfl, trivial, rfl⟩ rfl
  have r25 := r24.answer 1 .getDirty (.ok (some 1)) ⟨rfl, trivial, rfl⟩ rfl
  have r26 := r25.answer 1 .deleteNew (.ok ()) ⟨trivial, trivial, rfl⟩ rfl
  have r27 := r26.answer 1 .readDomains (.ok [⟨"a", acme⟩]) ⟨.refl _, trivial, rfl⟩ rfl
  have r28 := r27.answer 1 (.saddNew ["a"]) (.ok ()) ⟨trivial, trivial, rfl⟩ rfl
  have r29 := r28.answer 1 (.set (.host "a") (.positive acme) none) (.ok ())
    ⟨trivial, trivial, rfl⟩ rfl
  have r30 := r29.answer 1 (.set (.schema "acme") (.positive acme) none) (.ok ())
    ⟨trivial, trivial, rfl⟩ rfl
  have r31 := r30.answer 1 .existsNew (.ok true) ⟨rfl, trivial, rfl⟩ rfl
  have r32 := r31.answer 1 .rename (.ok ())
    ⟨trivial, (by decide : (∅ ∪ ["a"].toFinset : Finset Host) ≠ ∅), rfl⟩ rfl
  have r33 := r32.answer 1 .getDirty (.ok (some 1)) ⟨rfl, trivial, rfl⟩ rfl
  have r34 := r33.answer 1 .readSchemas (.ok ["acme"]) ⟨rfl, trivial, rfl⟩ rfl
  have r35 := r34.answer 1 (.scanHosts 0) (.ok ["a"])
    ⟨scanHosts_of_run [.schema "acme", .host "a", .host "a"] r34 (fun _ => rfl) rfl (by simp),
      trivial, rfl⟩ rfl
  have r36 := r35.answer 1 (.scanSchemas 0) (.ok ["acme"])
    ⟨scanSchemas_of_run [.schema "acme", .host "a", .host "a"] r35 (fun _ => rfl) rfl (by simp),
      trivial, rfl⟩ rfl
  have r37 := r36.answer 1 .release (.ok true) ⟨rfl, trivial, rfl⟩ rfl
  have plain {t : List Event} {e : Event} (hcount : e.post.dirtyCount = e.pre.dirtyCount)
      (hplain : isTimed e.label = false) : Orderly warmPage creationRace t e :=
    .of_not_timed hcount hplain
  refine ⟨_, _, r37, steady_of_run r37 ?_, ?_, rfl, ?_, _, rfl⟩
  · exact ⟨plain rfl rfl, plain rfl rfl, plain rfl rfl, plain rfl rfl, .of_count nofun,
      plain rfl rfl, plain rfl rfl, plain rfl rfl, plain rfl rfl, plain rfl rfl, plain rfl rfl,
      plain rfl rfl, .of_count nofun, .of_count nofun, plain rfl rfl, plain rfl rfl,
      .of_acquire rfl (by decide), plain rfl rfl, plain rfl rfl, plain rfl rfl, plain rfl rfl,
      plain rfl rfl, plain rfl rfl, plain (dirtyCount_expireDirty _ (by decide)) rfl, .of_incr,
      plain rfl rfl, plain rfl rfl, plain rfl rfl, plain rfl rfl, plain rfl rfl, plain rfl rfl,
      plain rfl rfl, .of_count nofun, plain rfl rfl, .of_acquire rfl (by decide), plain rfl rfl,
      plain rfl rfl, trivial⟩
  · exact r37.all_done [1, 2, 3] rfl ⟨⟨_, rfl⟩, ⟨_, rfl⟩, _, rfl⟩
  · exact ⟨⟨1, "a", 1⟩, List.mem_cons_self, rfl⟩

/-- A hostname that is created while a reconcile runs is in the host set when both are done, and is
served from then on. -/
theorem gate_complete_rebuilt : ∃ t c, SysRun warmPage creationRace bareWorld t c ∧
    Throughout (Steady warmPage creationRace) t ∧ c.shared.queue = 0 ∧ c.shared.db.HasRow "a" ∧
      (∃ S, c.shared.hosts = some ⟨S, none⟩ ∧ "a" ∈ S) ∧
      ∃ T, ∀ n, T ≤ n → { c.shared with now := n }.check "a" ≠ .nonmember := by
  obtain ⟨t, c, hrun, hsteady, hdone, hqueue, hrow, S, hS⟩ := completed_run
  have h₀ : ∀ S, bareWorld.hosts = some ⟨S, none⟩ → ∀ h, bareWorld.db.HasRow h → h ∈ S := nofun
  obtain ⟨hset, hpasses⟩ := gate_complete rfl h₀ hrun hsteady hdone hrow
  exact ⟨t, c, hrun, hsteady, hqueue, hrow, ⟨S, hS, hset S hS⟩, hpasses⟩

end MtShards.Resolver
