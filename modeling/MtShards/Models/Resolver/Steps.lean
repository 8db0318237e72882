import MtShards.Models.Resolver.Conformance

/-!
# Steps of the resolver

What a step of a run can be, seen through the automaton, and the rule by which an invariant is
carried along every run.
-/

namespace MtShards.Resolver

open MtShards.Core

/-- The label of a step. -/
abbrev SysLabel := Label Pid Req Req.Ans Exn

/-- The phase of a process after a trace. -/
abbrev phaseOf (cfg : Config) (kinds : Kind → Prop) (p : Pid) (t : List Event) : Phase :=
  phaseAt (protocol cfg kinds) p t

variable {cfg : Config} {kinds : Kind → Prop} {t : List Event} {s s₀ s' : World} {p q : Pid}
  {op : Req} {φ : Phase}

/-- What a step can be. -/
inductive SysMove (cfg : Config) (kinds : Kind → Prop) (t : List Event) (s : World) :
    SysLabel → World → Prop
  /-- A process that may stop starts another program. -/
  | start {p : Pid} : (phaseOf cfg kinds p t).MayStop → SysMove cfg kinds t s (.start p) s
  /-- A permitted request is carried out. -/
  | ok {p : Pid} {op : Req} {a : op.Ans} : (phaseOf cfg kinds p t).Permits cfg kinds op →
      op.Answers cfg.keyspace p s a → op.Enabled s → SysMove cfg kinds t s (.answer p op (.ok a)) (op.apply p s)
  /-- A `RENAME` fails for want of its source. -/
  | unnamed {p : Pid} : (phaseOf cfg kinds p t).Permits cfg kinds .rename → s.hostsNew = ∅ →
      SysMove cfg kinds t s (.answer p .rename (.error .redisError)) s
  /-- Time goes by. -/
  | tick {n : Nat} : s.now ≤ n → SysMove cfg kinds t s .env { s with now := n }

/-- The kind of program that a phase gives away. -/
def Phase.kind : Phase → Option Kind
  | read _ _ | filling _ => some .fill
  | loaded _ | changed _ => some .status
  | holding _ | opened _ _ | cleared _ _ | building _ _ _ _ | swapping _ _ _ | emptying _ _ _
  | built _ _ _ | sweeping _ _ _ | aborted => some .reconcile
  | idle | owes _ | lost => none

/-- Every phase is one that programs of the given kinds get into. -/
def Phase.Fits (kinds : Kind → Prop) (φ : Phase) : Prop :=
  φ ≠ .lost ∧ ∀ k, φ.kind = some k → kinds k

/-- A phase of a kind of call that runs is one. -/
theorem Phase.fits_of_kind {k : Kind} (hl : φ ≠ .lost) (hk : φ.kind = some k) (hks : kinds k) :
    φ.Fits kinds :=
  ⟨hl, fun k' hk' => by rwa [← Option.some.inj (hk.symm.trans hk')]⟩

/-- A writer may owe anything. -/
theorem Phase.fits_owes (o : Owed) : (Phase.owes o).Fits kinds :=
  ⟨fun h => Phase.noConfusion h, fun _ hk => by cases hk⟩

/-- A process may be idle. -/
theorem Phase.fits_idle : Phase.idle.Fits kinds :=
  ⟨fun h => Phase.noConfusion h, fun _ hk => by cases hk⟩

/-- An answer that Redis gives leads to a phase of the same kinds. -/
theorem Phase.Fits.after (h : φ.Fits kinds) (hp : φ.Permits cfg kinds op) {a : op.Ans}
    (ha : op.Answers cfg.keyspace p s a) : (φ.after cfg.toSettings op a).Fits kinds := by
  have keep {k : Kind} (hk : φ.kind = some k) {ψ : Phase} (hl : ψ ≠ .lost)
      (hψ : ψ.kind = some k) : ψ.Fits kinds := fits_of_kind hl hψ (h.2 k hk)
  cases op
  case readRow h => exact fits_of_kind nofun rfl hp.2
  case loadTenant pk =>
    cases a with
    | none => exact h
    | some tenant => exact fits_of_kind nofun rfl hp.2
  case updateStatus pk expected st =>
    obtain ⟨tenant, rfl, _⟩ := hp
    cases a with
    | false => exact h
    | true => exact keep rfl nofun rfl
  case readHosts pk =>
    obtain ⟨tenant, rfl, _⟩ := hp
    exact fits_owes _
  case insertDomain d =>
    cases a with
    | false => exact h
    | true => exact fits_owes _
  case saveDomain d h' =>
    cases a with
    | false => exact h
    | true => exact fits_owes _
  case deleteDomain d => exact fits_owes _
  case getMany ks =>
    cases φ
    case sweeping => exact keep rfl nofun rfl
    all_goals exact h
  case set k e ttl =>
    rcases hp with ⟨o, rfl, _⟩ | ⟨left, before, rows, added, v, rfl, _⟩
    · exact fits_owes _
    · exact h
  case setNx k e ttl =>
    rcases hp with ⟨h', row, rfl, _⟩ | ⟨tenant, rfl, _⟩
    · cases row with
      | none => exact fits_idle
      | some tenant => exact keep rfl nofun rfl
    · exact fits_idle
  case deleteMany ks =>
    rcases hp with ⟨o, rfl, _⟩ | ⟨rows, i, found, rfl⟩
    · exact fits_owes _
    · exact keep rfl nofun rfl
  case scanHosts i =>
    obtain ⟨rows, found, rfl⟩ := hp
    exact keep rfl nofun rfl
  case ping =>
    cases a with
    | false => exact Bool.noConfusion ha
    | true => exact h
  case incrDirty =>
    obtain ⟨o, rfl, _⟩ := hp
    exact fits_owes _
  case expireHosts ttl =>
    obtain ⟨o, rfl, _⟩ := hp
    exact fits_owes _
  case acquire ttl =>
    cases a with
    | false => exact h
    | true => exact fits_of_kind nofun rfl hp.2
  case getDirty =>
    rcases hp with ⟨left, rfl⟩ | ⟨left, before, rows, rfl⟩
    · exact keep rfl nofun rfl
    · change (if a = before ∨ left = 0 then Phase.sweeping rows 0 [] else .holding left).Fits kinds
      split
      · exact keep rfl nofun rfl
      · exact keep rfl nofun rfl
  case deleteNew =>
    obtain ⟨left, before, rfl⟩ := hp
    exact keep rfl nofun rfl
  case readDomains =>
    obtain ⟨left, before, rfl⟩ := hp
    exact keep rfl nofun rfl
  case saddNew hs =>
    obtain ⟨left, before, rows, added, rfl⟩ := hp
    exact keep rfl nofun rfl
  case existsNew =>
    obtain ⟨left, before, rows, rfl⟩ := hp
    cases a with
    | false => exact keep rfl nofun rfl
    | true => exact keep rfl nofun rfl
  case rename =>
    obtain ⟨left, before, rows, rfl⟩ := hp
    exact keep rfl nofun rfl
  case deleteHosts =>
    obtain ⟨left, before, rows, rfl⟩ := hp
    exact keep rfl nofun rfl
  case release => exact fits_idle
  all_goals exact h

/-! ### The phases of a step -/

/-- A process that starts a call is idle. -/
theorem phaseOf_start : phaseOf cfg kinds p (⟨.start p, s, s'⟩ :: t) = .idle := phaseAt_start_self

/-- A call of another process leaves the phase. -/
theorem phaseOf_start_of_ne (h : p ≠ q) :
    phaseOf cfg kinds q (⟨.start p, s, s'⟩ :: t) = phaseOf cfg kinds q t := phaseAt_start_of_ne h

/-- An answer to another process leaves the phase. -/
theorem phaseOf_answer_of_ne {r : Except Exn op.Ans} (h : p ≠ q) :
    phaseOf cfg kinds q (⟨.answer p op r, s, s'⟩ :: t) = phaseOf cfg kinds q t :=
  phaseAt_answer_of_ne h

/-- An answer takes its process to the phase after it. -/
theorem phaseOf_ok {a : op.Ans} (hl : phaseOf cfg kinds p t ≠ .lost) :
    phaseOf cfg kinds p (⟨.answer p op (.ok a), s, s'⟩ :: t) =
      (phaseOf cfg kinds p t).after cfg.toSettings op a :=
  phaseAt_answer_self.trans (if_neg hl)

/-- A `RENAME` that fails takes its process out of the reconcile. -/
theorem phaseOf_unnamed {e : Exn} (hl : phaseOf cfg kinds p t ≠ .lost) :
    phaseOf cfg kinds p (⟨.answer p .rename (.error e), s, s'⟩ :: t) = .aborted :=
  phaseAt_answer_self.trans (if_neg hl)

/-- Every process is in a phase of its kinds. -/
def AllFit (cfg : Config) (kinds : Kind → Prop) (t : List Event) : Prop :=
  ∀ p, (phaseOf cfg kinds p t).Fits kinds

/-- A permitted move of the machine is one of the steps, unless the process is lost. -/
theorem sysMove_of_move {l : SysLabel} (hf : AllFit cfg kinds t)
    (h : Move (machine cfg.keyspace) (protocol cfg kinds) t s l s') :
    SysMove cfg kinds t s l s' := by
  cases h with
  | start hs => exact .start hs
  | inner _ hi => exact hi.elim
  | @answer p op r _ hp he =>
    have hp : (phaseOf cfg kinds p t).Permits cfg kinds op := hp.resolve_left (hf p).1
    cases r with
    | ok a =>
      obtain ⟨ha, hen, rfl⟩ := he
      exact .ok hp ha hen
    | error e =>
      obtain ⟨rfl, hnew, rfl, rfl⟩ := he
      exact .unnamed hp hnew
  | env he =>
    obtain ⟨n, hn, rfl⟩ := he
    exact .tick hn
  | kill hk => exact hk.elim

/-- What a step is to one process. -/
inductive Part (cfg : Config) (kinds : Kind → Prop) (q : Pid) (t : List Event) (s : World)
    (l : SysLabel) (s' : World) : Prop
  | other (label : ∀ op r, l ≠ .answer q op r)
      (phase : phaseOf cfg kinds q (⟨l, s, s'⟩ :: t) = phaseOf cfg kinds q t)
  | start (phase : phaseOf cfg kinds q (⟨l, s, s'⟩ :: t) = .idle)
      (mayStop : (phaseOf cfg kinds q t).MayStop)
  | unnamed (phase : phaseOf cfg kinds q (⟨l, s, s'⟩ :: t) = .aborted)
      (swapping : ∃ left b rows, phaseOf cfg kinds q t = .swapping left b rows)
      (built : s.hostsNew = ∅)
  | ok (op : Req) (a : op.Ans) (label : l = .answer q op (.ok a)) (state : s' = op.apply q s)
      (phase : phaseOf cfg kinds q (⟨l, s, s'⟩ :: t) =
        (phaseOf cfg kinds q t).after cfg.toSettings op a)
      (permits : (phaseOf cfg kinds q t).Permits cfg kinds op)
      (answers : op.Answers cfg.keyspace q s a)

/-- Every move of the system is one of the parts that a process sees of it. -/
theorem SysMove.part {l : SysLabel} (q : Pid) (hf : AllFit cfg kinds t)
    (h : SysMove cfg kinds t s l s') : Part cfg kinds q t s l s' := by
  have hne {p : Pid} {op : Req} {r : Except Exn op.Ans} (hpq : p ≠ q) (op' : Req)
      (r' : Except Exn op'.Ans) : (.answer p op r : SysLabel) ≠ .answer q op' r' := by
    intro hl
    cases hl
    exact hpq rfl
  cases h with
  | @start p hstop =>
    by_cases hpq : p = q
    · subst hpq
      exact .start phaseOf_start hstop
    · exact .other nofun (phaseOf_start_of_ne hpq)
  | @ok p op a hp ha _ =>
    by_cases hpq : p = q
    · subst hpq
      exact .ok op a rfl rfl (phaseOf_ok (hf p).1) hp ha
    · exact .other (hne hpq) (phaseOf_answer_of_ne hpq)
  | @unnamed p hp hnew =>
    by_cases hpq : p = q
    · subst hpq
      exact .unnamed (phaseOf_unnamed (hf p).1) hp hnew
    · exact .other (hne hpq) (phaseOf_answer_of_ne hpq)
  | tick _ => exact .other nofun rfl

/-- After every move the phases still fit the kinds of calls that run. -/
theorem AllFit.step {l : SysLabel} (hf : AllFit cfg kinds t) (h : SysMove cfg kinds t s l s') :
    AllFit cfg kinds (⟨l, s, s'⟩ :: t) := by
  intro q
  cases h.part q hf with
  | other _ hphase =>
    rw [hphase]
    exact hf q
  | start hphase _ =>
    rw [hphase]
    exact Phase.fits_idle
  | unnamed hphase hswap _ =>
    rw [hphase]
    obtain ⟨left, b, rows, hφ⟩ := hswap
    refine Phase.fits_of_kind nofun rfl ((hf q).2 .reconcile ?_)
    rw [hφ]
    rfl
  | ok op a _ _ hphase hp ha =>
    rw [hphase]
    exact (hf q).after hp ha

/-- An invariant that every step meeting a condition keeps holds along every run whose steps all
meet it. -/
theorem SysRun.invariant {c : Core.Config Pid Req Req.Ans Exn World}
    (R : List Event → Event → Prop) (I : List Event → World → Prop) (h₀ : I [] s₀)
    (hstep : ∀ t s l s', AllFit cfg kinds t → I t s → R t ⟨l, s, s'⟩ → SysMove cfg kinds t s l s' →
      I (⟨l, s, s'⟩ :: t) s')
    (h : SysRun cfg kinds s₀ t c) (hR : Throughout R t) : AllFit cfg kinds t ∧ I t c.shared := by
  refine Run.invariant_throughout system_follows R
    (fun t s => AllFit cfg kinds t ∧ I t s) ⟨fun _ => Phase.fits_idle, h₀⟩ ?_ h hR
  rintro t c l s' _ ⟨hf, hI⟩ hR hm
  have hs := sysMove_of_move hf hm
  exact ⟨hf.step hs, hstep t c.shared l s' hf hI hR hs⟩

end MtShards.Resolver
