import MtShards.Models.Scheduler.Bookkeeping
import MtShards.Models.Scheduler.Loops

/-!
# Conservation of targets

At every step of either loop each entry is queued, in flight, finished or not run, and in one of
these places only; the loops start each target at most once, in the order of the list on its
shard and within the limits, and they return only with nothing queued and nothing in flight.
-/

namespace MtShards.Scheduler

open MtShards.Core

/-! ### What a step of the parallel loop does -/

/-- The parent is inside the loop, or collects what it left behind. -/
def Pc.inLoop : Pc → Bool
  | top | fill | submit _ | wait | collect _ _ | rescue _ => true
  | _ => false

/-- A step of the loop. -/
inductive Parent.LoopStep (jobs perShard : Int) (p : Parent) : Parent → Prop
  | top : p.pc = .top →
      LoopStep jobs perShard p { p with sched := p.sched.drain p.signals, pc := .fill }
  | take {i : Id} {st : TenantStage} : p.pc = .fill →
      p.sched.stage.next jobs perShard = some (i, st) →
      LoopStep jobs perShard p { p with
        sched := Sched.markRunning ⟨p.sched.entry, st⟩ i, started := p.started ++ [i]
        pc := .submit i }
  | leave : p.pc = .fill → p.sched.stage.next jobs perShard = none → p.running = [] →
      LoopStep jobs perShard p { p with pc := .release false }
  | sleep : p.pc = .fill → p.sched.stage.next jobs perShard = none → p.running ≠ [] →
      LoopStep jobs perShard p { p with pc := .wait }
  | raised {i : Id} : p.pc = .submit i → p.poolBroken = true →
      LoopStep jobs perShard p { p with pc := .release true }
  | submit {i : Id} : p.pc = .submit i → p.poolBroken = false →
      LoopStep jobs perShard p { p with
        future := Function.update p.future i (some .pending), running := p.running ++ [i]
        pc := .fill }
  | wake {done : List Id} : p.pc = .wait → done.Nodup → (∀ i ∈ done, i ∈ p.running) →
      LoopStep jobs perShard p { p with pc := .collect done false }
  | again {broken : Bool} : p.pc = .collect [] broken →
      LoopStep jobs perShard p { p with pc := if broken then .rescue p.running else .top }
  | seeBroken {i : Id} {rest : List Id} {broken : Bool} : p.pc = .collect (i :: rest) broken →
      p.future i = some .broken → LoopStep jobs perShard p { p with pc := .collect rest true }
  | collect {i : Id} {rest : List Id} {broken : Bool} {d : Delivered} :
      p.pc = .collect (i :: rest) broken → p.future i = some (.delivered d) →
      LoopStep jobs perShard p { p with
        running := p.running.erase i, sched := p.sched.finish i d, pc := .collect rest broken }
  | cutOff : p.pc = .rescue [] → LoopStep jobs perShard p { p with pc := .cut }
  | rescue {i : Id} {rest : List Id} {res : Migrator.Result} : p.pc = .rescue (i :: rest) →
      p.future i = some (.delivered (.result res)) →
      LoopStep jobs perShard p { p with
        running := p.running.erase i, sched := p.sched.finish i (.result res), pc := .rescue rest }
  | skip {i : Id} {rest : List Id} : p.pc = .rescue (i :: rest) →
      (∀ res, p.future i ≠ some (.delivered (.result res))) →
      LoopStep jobs perShard p { p with pc := .rescue rest }

/-- A step after the loop. -/
inductive Parent.AfterStep (p : Parent) : Parent → Prop
  | cut : p.pc = .cut → AfterStep p { p with sched := p.cutRunning, pc := .release false }
  | release {raised : Bool} : p.pc = .release raised → AfterStep p { p with pc := .shutdown raised }
  | failed : p.pc = .shutdown true → AfterStep p p.failed
  | shutdown : p.pc = .shutdown false → AfterStep p { p with pc := .snapshots p.running }
  | settled : p.pc = .snapshots [] →
      AfterStep p { p with stop := p.sched.stage.stop, pc := .recheck }
  | snapshot {i : Id} {rest : List Id} : p.pc = .snapshots (i :: rest) →
      AfterStep p { p with sched := p.snap i, pc := .snapshots rest }
  | rechecked : p.pc = .recheck → AfterStep p { p with pc := .ended }
  | handled : p.pc = .handler [] → AfterStep p { p with pc := .ended }
  | handle {i : Id} {rest : List Id} : p.pc = .handler (i :: rest) →
      AfterStep p { p with sched := p.snap i, pc := .handler rest }

/-- What happens around the parent: futures are settled, signals are counted. -/
structure Parent.SameBooks (p p' : Parent) : Prop where
  size : p'.size = p.size
  sched : p'.sched = p.sched
  running : p'.running = p.running
  started : p'.started = p.started
  stop : p'.stop = p.stop
  pc : p'.pc = p.pc

section Steps

variable {p p' : Parent} {jobs perShard : Int} {e : Event}

/-- Inside the loop the parent advances by a step of the loop. -/
theorem loopStep_of_advance (hloop : p.pc.inLoop = true) (h : p.advance jobs perShard = some p') :
    p.LoopStep jobs perShard p' := by
  rw [Parent.advance] at h
  split at h
  · rename_i hpc
    obtain rfl := Option.some.inj h
    exact .top hpc
  · rename_i hpc
    split at h
    · rename_i i st hnext
      obtain rfl := Option.some.inj h
      exact .take hpc hnext
    · rename_i hnext
      obtain rfl := Option.some.inj h
      by_cases hrun : p.running = []
      · have hpc' : (if p.running.isEmpty then Pc.release false else .wait) = .release false := by
          simp [hrun]
        rw [hpc']
        exact .leave hpc hnext hrun
      · have hpc' : (if p.running.isEmpty then Pc.release false else .wait) = .wait := by
          simp [hrun]
        rw [hpc']
        exact .sleep hpc hnext hrun
  · rename_i i hpc
    split at h
    · rename_i hbroken
      obtain rfl := Option.some.inj h
      exact .raised hpc hbroken
    · rename_i hbroken
      obtain rfl := Option.some.inj h
      exact .submit hpc (by simpa using hbroken)
  · cases h
  · rename_i broken hpc
    obtain rfl := Option.some.inj h
    exact .again hpc
  · rename_i i rest broken hpc
    split at h
    · rename_i hfuture
      obtain rfl := Option.some.inj h
      exact .seeBroken hpc hfuture
    · rename_i d hfuture
      obtain rfl := Option.some.inj h
      exact .collect hpc hfuture
    · cases h
  · rename_i hpc
    obtain rfl := Option.some.inj h
    exact .cutOff hpc
  · rename_i i rest hpc
    split at h
    · rename_i res hfuture
      obtain rfl := Option.some.inj h
      exact .rescue hpc hfuture
    · rename_i hfuture
      obtain rfl := Option.some.inj h
      exact .skip hpc hfuture
  all_goals
    rename_i hpc
    rw [hpc] at hloop
    cases hloop

/-- After the loop the parent advances by a step of what follows it. -/
theorem afterStep_of_advance (hloop : p.pc.inLoop = false)
    (h : p.advance jobs perShard = some p') : p.AfterStep p' := by
  rw [Parent.advance] at h
  cases hpc : p.pc with
  | cut =>
    simp only [hpc, Option.some.injEq] at h
    subst h
    exact .cut hpc
  | release raised =>
    simp only [hpc, Option.some.injEq] at h
    subst h
    exact .release hpc
  | shutdown raised =>
    cases raised with
    | true =>
      simp only [hpc, if_true, Option.some.injEq] at h
      subst h
      exact .failed hpc
    | false =>
      simp only [hpc, Bool.false_eq_true, if_false, Option.some.injEq] at h
      subst h
      exact .shutdown hpc
  | snapshots todo =>
    cases todo with
    | nil =>
      simp only [hpc, Option.some.injEq] at h
      subst h
      exact .settled hpc
    | cons i rest =>
      simp only [hpc, Option.some.injEq] at h
      subst h
      exact .snapshot hpc
  | recheck =>
    simp only [hpc, Option.some.injEq] at h
    subst h
    exact .rechecked hpc
  | handler todo =>
    cases todo with
    | nil =>
      simp only [hpc, Option.some.injEq] at h
      subst h
      exact .handled hpc
    | cons i rest =>
      simp only [hpc, Option.some.injEq] at h
      subst h
      exact .handle hpc
  | ended => simp [hpc] at h
  | _ =>
    rw [hpc] at hloop
    cases hloop

/-- What an event may do. -/
inductive Parent.Stepped (jobs perShard : Int) (p : Parent) : Event → Parent → Prop
  | advanced {p' : Parent} (advance : p.advance jobs perShard = some p') :
      Stepped jobs perShard p .advance p'
  | woken {done : List Id} (pc : p.pc = .wait) (nodup : done.Nodup)
      (running : ∀ i ∈ done, i ∈ p.running) :
      Stepped jobs perShard p (.waitReturns done) { p with pc := .collect done false }
  | delivered {i : Id} (pending : p.future i = some .pending) (whole : p.poolBroken = false)
      (d : Delivered) : Stepped jobs perShard p (.delivers i d)
        { p with future := Function.update p.future i (some (.delivered d)) }
  | broke (whole : p.poolBroken = false) : Stepped jobs perShard p .breaks p.breakPool
  | signalled {inside : Bool} {p' : Parent} (signal : p.onSignal inside = some p') :
      Stepped jobs perShard p (.signal inside) p'
  | rechecked {i : Id} (pc : p.pc = .recheck) (kind : (p.sched.entry i).kind = .of .skipped)
      (reason : (p.sched.entry i).reason = .of .locked) (provisioning : Bool) (msg : String) :
      Stepped jobs perShard p (.recheck i provisioning msg)
        { p with sched := p.recheckEntry i provisioning msg }

/-- Each event of the parent is of one of the kinds of `Stepped`. -/
theorem stepped_of_step (h : p.step jobs perShard e = some p') : p.Stepped jobs perShard e p' := by
  cases e with
  | advance => exact .advanced h
  | waitReturns done =>
    simp only [Parent.step] at h
    split at h
    · rename_i hdone
      obtain rfl := Option.some.inj h
      exact .woken hdone.1 hdone.2.1 fun i hi => (hdone.2.2 i hi).1
    · cases h
  | delivers i d =>
    simp only [Parent.step] at h
    split at h
    · rename_i hi
      obtain rfl := Option.some.inj h
      exact .delivered hi.1 hi.2 d
    · cases h
  | breaks =>
    simp only [Parent.step] at h
    split at h
    · rename_i hb
      obtain rfl := Option.some.inj h
      exact .broke hb.1
    · cases h
  | signal inside => exact .signalled h
  | recheck i provisioning msg =>
    simp only [Parent.step] at h
    split at h
    · rename_i hi
      obtain rfl := Option.some.inj h
      exact .rechecked hi.1 hi.2.2.1 hi.2.2.2 provisioning msg
    · cases h

/-- Inside the loop an event is a step of the loop, or happens around the parent. -/
theorem loopStep_of_step (hloop : p.pc.inLoop = true) (h : p.step jobs perShard e = some p') :
    p.LoopStep jobs perShard p' ∨ p.SameBooks p' := by
  cases stepped_of_step h with
  | advanced hadvance => exact .inl (loopStep_of_advance hloop hadvance)
  | woken hpc hnodup hrunning => exact .inl (.wake hpc hnodup hrunning)
  | delivered _ _ _ => exact .inr ⟨rfl, rfl, rfl, rfl, rfl, rfl⟩
  | broke _ => exact .inr ⟨rfl, rfl, rfl, rfl, rfl, rfl⟩
  | signalled hsignal =>
    have hlive : p.pc.live = true := by
      cases hpc : p.pc <;> simp_all [Pc.inLoop, Pc.live]
    simp only [Parent.onSignal, hlive, if_true] at hsignal
    split at hsignal
    · obtain rfl := Option.some.inj hsignal
      exact .inr ⟨rfl, rfl, rfl, rfl, rfl, rfl⟩
    · obtain rfl := Option.some.inj hsignal
      exact .inr ⟨rfl, rfl, rfl, rfl, rfl, rfl⟩
  | rechecked hpc _ _ _ _ =>
    rw [hpc] at hloop
    cases hloop

end Steps

/-! ### The books along the parallel loop -/

/-- The futures that the parent is about to look at are its own, each of them once. -/
def Parent.Todo (p : Parent) : Prop :=
  match p.pc with
  | .collect todo _ | .rescue todo => todo.Nodup ∧ ∀ i ∈ todo, i ∈ p.running
  | _ => True

/-- The books fit together with what the parent has in its hands. -/
structure Parent.Books (ts : List Target) (p : Parent) : Prop where
  ok : p.sched.Ok ts p.flight p.started
  todo : p.Todo

section Books

variable {ts : List Target} {p p' : Parent} {jobs perShard : Int}

/-- But where a target is about to be submitted, the targets in flight are the running ones. -/
theorem Parent.flight_eq {pc : Pc} (hpc : p.pc = pc) (h : ∀ i, pc ≠ .submit i) :
    p.flight = p.running := by
  rw [Parent.flight, hpc]
  cases pc with
  | submit i => exact absurd rfl (h i)
  | _ => rfl

/-- Collecting one future keeps the rest of them the parent's own. -/
theorem todo_erase {todo running : List Id} {i : Id} (hnodup : (i :: todo).Nodup)
    (hmem : ∀ j ∈ i :: todo, j ∈ running) :
    todo.Nodup ∧ ∀ j ∈ todo, j ∈ running.erase i := by
  obtain ⟨hi, hrest⟩ := List.nodup_cons.mp hnodup
  refine ⟨hrest, fun j hj => ?_⟩
  have hne : j ≠ i := by
    rintro rfl
    exact hi hj
  exact (List.mem_erase_of_ne hne).mpr (hmem j (List.mem_cons_of_mem _ hj))

/-- What is left to collect is still without repetition and still running. -/
theorem todo_tail {todo running : List Id} {i : Id} (hnodup : (i :: todo).Nodup)
    (hmem : ∀ j ∈ i :: todo, j ∈ running) : todo.Nodup ∧ ∀ j ∈ todo, j ∈ running :=
  ⟨(List.nodup_cons.mp hnodup).2, fun j hj => hmem j (List.mem_cons_of_mem _ hj)⟩

/-- A step that touches no account keeps the books in order. -/
theorem Parent.SameBooks.books (h : p.SameBooks p') (hp : p.Books ts) : p'.Books ts := by
  have hflight : p'.flight = p.flight := by
    rw [Parent.flight, Parent.flight, h.pc, h.running]
  refine ⟨?_, ?_⟩
  · rw [h.sched, hflight, h.started]
    exact hp.ok
  · have htodo := hp.todo
    rw [Parent.Todo] at htodo ⊢
    rw [h.pc, h.running]
    exact htodo

/-- Draining the queues on a signal keeps the stage consistent. -/
theorem Sched.Ok.drain {s : Sched} {flight started : List Id} (h : s.Ok ts flight started)
    (signals : Nat) : (s.drain signals).Ok ts flight started := by
  rw [Sched.drain]
  split
  · exact h.halt _ _
  · exact h

/-- A step of the loop keeps the books, unless `submit` raises. -/
theorem Parent.LoopStep.books (h : p.LoopStep jobs perShard p') (hp : p.Books ts)
    (hsubmit : ∀ i, p.pc = .submit i → p.poolBroken = false) : p'.Books ts := by
  have hok := hp.ok
  have htodo := hp.todo
  cases h with
  | top hpc =>
    rw [p.flight_eq hpc (by simp)] at hok
    exact ⟨hok.drain _, trivial⟩
  | take hpc hnext =>
    rw [p.flight_eq hpc (by simp)] at hok
    exact ⟨hok.start hnext, trivial⟩
  | leave hpc _ _ =>
    rw [p.flight_eq hpc (by simp)] at hok
    exact ⟨hok, trivial⟩
  | sleep hpc _ _ =>
    rw [p.flight_eq hpc (by simp)] at hok
    exact ⟨hok, trivial⟩
  | raised hpc hbroken =>
    rw [hsubmit _ hpc] at hbroken
    cases hbroken
  | @submit i hpc _ =>
    have hflight : p.flight = p.running ++ [i] := by rw [Parent.flight, hpc]
    rw [hflight] at hok
    exact ⟨hok, trivial⟩
  | wake hpc hnodup hmem =>
    rw [p.flight_eq hpc (by simp)] at hok
    exact ⟨hok, hnodup, hmem⟩
  | @again broken hpc =>
    rw [p.flight_eq hpc (by simp)] at hok
    cases broken with
    | true => exact ⟨hok, hok.flight_nodup, fun _ hi => hi⟩
    | false => exact ⟨hok, trivial⟩
  | seeBroken hpc _ =>
    rw [p.flight_eq hpc (by simp)] at hok
    rw [Parent.Todo, hpc] at htodo
    exact ⟨hok, todo_tail htodo.1 htodo.2⟩
  | collect hpc _ =>
    rw [p.flight_eq hpc (by simp)] at hok
    rw [Parent.Todo, hpc] at htodo
    exact ⟨hok.finish (htodo.2 _ List.mem_cons_self) _, todo_erase htodo.1 htodo.2⟩
  | cutOff hpc =>
    rw [p.flight_eq hpc (by simp)] at hok
    exact ⟨hok, trivial⟩
  | rescue hpc _ =>
    rw [p.flight_eq hpc (by simp)] at hok
    rw [Parent.Todo, hpc] at htodo
    exact ⟨hok.finish (htodo.2 _ List.mem_cons_self) _, todo_erase htodo.1 htodo.2⟩
  | skip hpc _ =>
    rw [p.flight_eq hpc (by simp)] at hok
    rw [Parent.Todo, hpc] at htodo
    exact ⟨hok, todo_tail htodo.1 htodo.2⟩

end Books

/-! ### Runs without a broken pool and without a hard stop -/

/-- No worker dies, and there is at most one signal. -/
def Parent.Calm (p : Parent) : Event → Prop
  | .breaks => False
  | .signal _ => p.signals = 0
  | _ => True

instance (p : Parent) : DecidablePred p.Calm
  | .breaks => inferInstanceAs (Decidable False)
  | .signal _ => inferInstanceAs (Decidable (p.signals = 0))
  | .advance | .waitReturns _ | .delivers _ _ | .recheck _ _ _ => inferInstanceAs (Decidable True)

/-- Where the parent of a calm run may stand. -/
def Pc.calm : Pc → Prop
  | collect _ broken => broken = false
  | rescue _ | cut | handler _ => False
  | release raised | shutdown raised => raised = false
  | snapshots todo => todo = []
  | _ => True

/-- What holds at every step of a calm parallel run. -/
structure Parent.Sound (ts : List Target) (jobs perShard : Int) (p : Parent) : Prop where
  books : p.Books ts
  poolBroken : p.poolBroken = false
  future : ∀ i, p.future i ≠ some .broken
  path : p.pc.calm
  jobs_le : (p.flight.length : Int) ≤ jobs
  perShard_le : ∀ a, ((onShard ts a p.flight).length : Int) ≤ perShard
  waiting : p.pc = .wait → p.running ≠ []
  back : p.pc.inLoop = false → p.running = [] ∧ ∀ a, p.sched.stage.queue a = []

section Calm

variable {ts : List Target} {p p' : Parent} {jobs perShard : Int} {e : Event}

private theorem onShard_erase_le {a : Alias} {ids : List Id} {i : Id} :
    (onShard ts a (ids.erase i)).length ≤ (onShard ts a ids).length :=
  (List.erase_sublist.filter _).length_le

/-- With one more target in flight, the limits still hold if there was room for it. -/
theorem room_append {flight : List Id} {i : Id} (hjobs : (flight.length : Int) < jobs)
    (hshard : ((onShard ts (shardAt ts i) flight).length : Int) < perShard)
    (hle : ∀ a, ((onShard ts a flight).length : Int) ≤ perShard) :
    ((flight ++ [i]).length : Int) ≤ jobs ∧
      ∀ a, ((onShard ts a (flight ++ [i])).length : Int) ≤ perShard := by
  refine ⟨?_, fun a => ?_⟩
  · simp only [List.length_append, List.length_singleton]
    omega
  · by_cases ha : shardAt ts i = a
    · subst ha
      simp only [onShard, List.filter_append, List.length_append] at hshard ⊢
      simp
      omega
    · simpa [onShard, ha] using hle a

/-- A step of the loop in a calm run. -/
theorem Parent.Sound.loop (h : p.Sound ts jobs perShard) (hjobs : 1 ≤ jobs) (hper : 1 ≤ perShard)
    (hs : p.LoopStep jobs perShard p') : p'.Sound ts jobs perShard := by
  have hbooks := hs.books h.books fun _ _ => h.poolBroken
  have hok := h.books.ok
  have hpath := h.path
  have hj := h.jobs_le
  have hp := h.perShard_le
  cases hs with
  | top hpc =>
    rw [p.flight_eq hpc (by simp)] at hj hp
    exact ⟨hbooks, h.poolBroken, h.future, trivial, hj, hp, nofun, nofun⟩
  | take hpc hnext =>
    rw [p.flight_eq hpc (by simp)] at hj hp hok
    obtain ⟨hjobs', hshard⟩ := hok.room hnext
    obtain ⟨hj', hp'⟩ := room_append hjobs' hshard hp
    exact ⟨hbooks, h.poolBroken, h.future, trivial, hj', hp', nofun, nofun⟩
  | leave hpc hnext hrun =>
    rw [p.flight_eq hpc (by simp)] at hj hp hok
    rw [hrun] at hok
    exact ⟨hbooks, h.poolBroken, h.future, rfl, hj, hp, nofun,
      fun _ => ⟨hrun, hok.queue_empty hjobs hper hnext⟩⟩
  | sleep hpc _ hrun =>
    rw [p.flight_eq hpc (by simp)] at hj hp
    exact ⟨hbooks, h.poolBroken, h.future, trivial, hj, hp, fun _ => hrun, nofun⟩
  | raised _ hbroken =>
    rw [h.poolBroken] at hbroken
    cases hbroken
  | @submit i hpc _ =>
    have hflight : p.flight = p.running ++ [i] := by rw [Parent.flight, hpc]
    rw [hflight] at hj hp
    refine ⟨hbooks, h.poolBroken, fun j => ?_, trivial, hj, hp, nofun, nofun⟩
    by_cases hji : j = i
    · simp [hji]
    · simpa [hji] using h.future j
  | wake hpc _ _ =>
    rw [p.flight_eq hpc (by simp)] at hj hp
    exact ⟨hbooks, h.poolBroken, h.future, rfl, hj, hp, nofun, nofun⟩
  | again hpc =>
    rw [p.flight_eq hpc (by simp)] at hj hp
    rw [hpc] at hpath
    obtain rfl : _ = false := hpath
    exact ⟨hbooks, h.poolBroken, h.future, trivial, hj, hp, nofun, nofun⟩
  | seeBroken _ hfuture => exact absurd hfuture (h.future _)
  | collect hpc _ =>
    rw [p.flight_eq hpc (by simp)] at hj hp
    rw [hpc] at hpath
    refine ⟨hbooks, h.poolBroken, h.future, hpath, ?_, fun a => ?_, nofun, nofun⟩
    · exact le_trans (Int.ofNat_le.mpr List.erase_sublist.length_le) hj
    · exact le_trans (Int.ofNat_le.mpr onShard_erase_le) (hp a)
  | cutOff hpc =>
    rw [hpc] at hpath
    exact hpath.elim
  | rescue hpc _ =>
    rw [hpc] at hpath
    exact hpath.elim
  | skip hpc _ =>
    rw [hpc] at hpath
    exact hpath.elim

/-- What happens around the parent of a calm run. -/
theorem Parent.Sound.around (h : p.Sound ts jobs perShard) (hs : p.SameBooks p')
    (hbroken : p'.poolBroken = false) (hfuture : ∀ i, p'.future i ≠ some .broken) :
    p'.Sound ts jobs perShard := by
  have hflight : p'.flight = p.flight := by rw [Parent.flight, Parent.flight, hs.pc, hs.running]
  refine ⟨hs.books h.books, hbroken, hfuture, ?_, ?_, ?_, ?_, ?_⟩
  · rw [hs.pc]
    exact h.path
  · rw [hflight]
    exact h.jobs_le
  · rw [hflight]
    exact h.perShard_le
  · rw [hs.pc, hs.running]
    exact h.waiting
  · rw [hs.pc, hs.running, hs.sched]
    exact h.back

/-- After the loop of a calm run the parent only moves on. -/
theorem Parent.Sound.after (h : p.Sound ts jobs perShard) {pc : Pc} {stop : Option Stop}
    (hloop : p.pc.inLoop = false) (hpc : pc.inLoop = false) (hpath : pc.calm) :
    Parent.Sound ts jobs perShard { p with stop := stop, pc := pc } := by
  have hold : p.flight = p.running := by
    cases hp : p.pc with
    | submit i =>
      rw [hp] at hloop
      cases hloop
    | _ => exact p.flight_eq hp (by simp)
  have hnew : Parent.flight { p with stop := stop, pc := pc } = p.running := by
    cases pc with
    | submit i => cases hpc
    | _ => rfl
  refine ⟨⟨?_, ?_⟩, h.poolBroken, h.future, hpath, ?_, ?_, ?_, fun _ => h.back hloop⟩
  · rw [hnew, ← hold]
    exact h.books.ok
  · cases pc <;> trivial
  · rw [hnew, ← hold]
    exact h.jobs_le
  · rw [hnew, ← hold]
    exact h.perShard_le
  · rintro rfl
    cases hpc

/-- A re-check writes an entry that is finished, and leaves it finished. -/
theorem Sched.Ok.recheck {flight started : List Id} (h : p.sched.Ok ts flight started) {i : Id}
    (hi : (p.sched.entry i).kind = .of .skipped) (provisioning : Bool) (msg : String) :
    (p.recheckEntry i provisioning msg).Ok ts flight started := by
  refine ⟨?_, h.keys_nodup, h.key_mem, h.flight_nodup, ?_, ?_, ?_, h.inflight, h.order,
    h.started_lt, h.stopped⟩
  · intro j
    by_cases hj : j = i
    · subst hj
      simp [Parent.recheckEntry, h.target]
    · simp [Parent.recheckEntry, hj, h.target]
  · intro j
    rw [h.mem_flight]
    by_cases hj : j = i
    · subst hj
      simp [Parent.recheckEntry, hi]
    · simp [Parent.recheckEntry, hj]
  · intro a j
    by_cases hj : j = i
    · subst hj
      simp [Parent.recheckEntry, h.mem_queue, hi]
    · simp [Parent.recheckEntry, hj, h.mem_queue]
  · intro j hlt
    by_cases hj : j = i
    · subst hj
      cases provisioning <;> simp [Parent.recheckEntry]
    · simpa [Parent.recheckEntry, hj] using h.finished j hlt

/-- Each step after the loop keeps the parent sound. -/
theorem Parent.Sound.advance (h : p.Sound ts jobs perShard) (hloop : p.pc.inLoop = false)
    (hs : p.advance jobs perShard = some p') : p'.Sound ts jobs perShard := by
  have hpath := h.path
  have hrun := (h.back hloop).1
  cases afterStep_of_advance hloop hs with
  | release hpc =>
    rw [hpc] at hpath
    exact h.after hloop rfl hpath
  | shutdown _ => exact h.after hloop rfl hrun
  | settled _ => exact h.after hloop rfl trivial
  | rechecked _ => exact h.after hloop rfl trivial
  | cut hpc =>
    rw [hpc] at hpath
    exact hpath.elim
  | failed hpc =>
    rw [hpc] at hpath
    cases hpath
  | snapshot hpc =>
    rw [hpc] at hpath
    cases hpath
  | handled hpc =>
    rw [hpc] at hpath
    exact hpath.elim
  | handle hpc =>
    rw [hpc] at hpath
    exact hpath.elim

/-- Every event of a calm run keeps what holds at its steps. -/
theorem Parent.Sound.step (h : p.Sound ts jobs perShard) (hjobs : 1 ≤ jobs) (hper : 1 ≤ perShard)
    (hcalm : p.Calm e) (hs : p.step jobs perShard e = some p') : p'.Sound ts jobs perShard := by
  cases stepped_of_step hs with
  | advanced hadvance =>
    cases hloop : p.pc.inLoop with
    | true => exact h.loop hjobs hper (loopStep_of_advance hloop hadvance)
    | false => exact h.advance hloop hadvance
  | woken hpc hnodup hrunning => exact h.loop hjobs hper (.wake hpc hnodup hrunning)
  | @delivered i _ _ d =>
    refine h.around ⟨rfl, rfl, rfl, rfl, rfl, rfl⟩ h.poolBroken fun j => ?_
    by_cases hj : j = i
    · simp [hj]
    · simpa [hj] using h.future j
  | broke _ => exact hcalm.elim
  | signalled hsignal =>
    have hfirst : p.signals = 0 := hcalm
    simp only [Parent.onSignal, hfirst, if_true, Option.some.injEq] at hsignal
    subst hsignal
    exact h.around ⟨rfl, rfl, rfl, rfl, rfl, rfl⟩ h.poolBroken h.future
  | rechecked _ hkind _ provisioning msg =>
    -- The re-check leaves the parent's hands, and the queues, as they are.
    exact ⟨⟨h.books.ok.recheck hkind provisioning msg, h.books.todo⟩, h.poolBroken, h.future,
      h.path, h.jobs_le, h.perShard_le, h.waiting, h.back⟩

end Calm

/-! ### The sequential loop -/

/-- What may happen in the sequential loop. -/
inductive SeqLoop.Moved (l : SeqLoop) : SeqLoop → Prop
  | returned (pc : l.pc = .top) (next : (l.sched.drain l.signals).stage.next 1 1 = none) :
      Moved l { l with sched := l.sched.drain l.signals, pc := .returned }
  | took {i : Id} {st : TenantStage} (pc : l.pc = .top)
      (next : (l.sched.drain l.signals).stage.next 1 1 = some (i, st)) :
      Moved l { l with
        sched := Sched.markRunning ⟨(l.sched.drain l.signals).entry, st⟩ i
        started := l.started ++ [i], pc := .running i }
  | finished {i : Id} (pc : l.pc = .running i) (res : Migrator.Result) :
      Moved l { l with sched := l.sched.finish i (.result res), pc := .top }
  | signalled : Moved l { l with signals := 1 }

/-- Each step of the sequential loop is one of its moves. -/
theorem SeqLoop.moved_of_step {l l' : SeqLoop} {e : SeqEvent} (hs : l.step e = some l') :
    l.Moved l' := by
  cases e with
  | advance =>
    simp only [SeqLoop.step] at hs
    split at hs
    · rename_i hpc
      split at hs
      · rename_i hnext
        cases hs
        exact .returned hpc hnext
      · rename_i i st hnext
        cases hs
        exact .took hpc hnext
    · cases hs
  | returns res =>
    simp only [SeqLoop.step] at hs
    split at hs
    · rename_i i hpc
      cases hs
      exact .finished hpc res
    · cases hs
  | signal =>
    simp only [SeqLoop.step] at hs
    split at hs
    · cases hs
      exact .signalled
    · cases hs

/-- What holds at every step of the sequential loop. -/
structure SeqLoop.Sound (ts : List Target) (l : SeqLoop) : Prop where
  ok : l.sched.Ok ts l.flight l.started
  back : l.pc = .returned → ∀ a, l.sched.stage.queue a = []

/-- Each step of the sequential loop keeps it sound. -/
theorem SeqLoop.Sound.step {ts : List Target} {l l' : SeqLoop} {e : SeqEvent} (h : l.Sound ts)
    (hs : l.step e = some l') : l'.Sound ts := by
  have hok := h.ok
  cases SeqLoop.moved_of_step hs with
  | returned hpc hnext =>
    have hflight : l.flight = [] := by rw [SeqLoop.flight, hpc]
    rw [hflight] at hok
    exact ⟨hok.drain _, fun _ => (hok.drain _).queue_empty le_rfl le_rfl hnext⟩
  | took hpc hnext =>
    have hflight : l.flight = [] := by rw [SeqLoop.flight, hpc]
    rw [hflight] at hok
    exact ⟨(hok.drain _).start hnext, nofun⟩
  | @finished i hpc res =>
    have hflight : l.flight = [i] := by rw [SeqLoop.flight, hpc]
    rw [hflight] at hok
    have hfinish := hok.finish List.mem_cons_self (.result res)
    rw [List.erase_cons_head] at hfinish
    exact ⟨hfinish, nofun⟩
  | signalled => exact ⟨hok, h.back⟩

/-- The sequential loop has at most one target in flight. -/
theorem SeqLoop.length_flight_le (l : SeqLoop) : l.flight.length ≤ 1 := by
  rw [SeqLoop.flight]
  split
  · exact le_rfl
  · exact Nat.zero_le 1

/-! ### A stopped stage starts nothing -/

/-- A stage that is stopped hands out no target. -/
theorem next_of_stopped {st : TenantStage} {jobs perShard : Int} (h : st.stop ≠ none) :
    st.next jobs perShard = none := by
  rw [TenantStage.next]
  split
  · rfl
  · rename_i hnone
    exact absurd hnone h

/-- Judging a target does not lift a stop. -/
theorem Sched.judge_stop {s : Sched} (e : Entry) (h : s.stage.stop ≠ none) :
    (s.judge e).stage.stop ≠ none := by
  rw [Sched.judge, if_pos (.inr h)]
  exact h

/-- Accounting for a target sets no stop and lifts none. -/
theorem Sched.account_stop (s : Sched) (e : Entry) :
    (s.account e).stage.stop = s.stage.stop := by
  rw [Sched.account]
  split
  · rfl
  · split
    · rfl
    · split <;> rfl

/-- Finishing a target does not lift a stop. -/
theorem Sched.finish_stop {s : Sched} (i : Id) (d : Delivered) (h : s.stage.stop ≠ none) :
    (s.finish i d).stage.stop ≠ none := by
  simp only [Sched.finish, Sched.done]
  split
  · exact Option.some_ne_none _
  · apply Sched.judge_stop
    rw [Sched.account_stop]
    exact h

/-- Draining the queues does not lift a stop. -/
theorem Sched.drain_stop {s : Sched} (signals : Nat) (h : s.stage.stop ≠ none) :
    (s.drain signals).stage.stop ≠ none := by
  rw [Sched.drain]
  split
  · exact Option.some_ne_none _
  · exact h

/-- Once stopped, the loop stays stopped and starts no target. -/
theorem Parent.LoopStep.stopped {p p' : Parent} {jobs perShard : Int}
    (hs : p.LoopStep jobs perShard p') (h : p.sched.stage.stop ≠ none) :
    p'.sched.stage.stop ≠ none ∧ p'.started = p.started := by
  cases hs with
  | top _ => exact ⟨Sched.drain_stop _ h, rfl⟩
  | take _ hnext =>
    rw [next_of_stopped h] at hnext
    cases hnext
  | collect _ _ => exact ⟨Sched.finish_stop _ _ h, rfl⟩
  | rescue _ _ => exact ⟨Sched.finish_stop _ _ h, rfl⟩
  | _ => exact ⟨h, rfl⟩

/-- Once stopped, the parent stays stopped and starts no target. -/
theorem Parent.Sound.stopped {ts : List Target} {p p' : Parent} {jobs perShard : Int} {e : Event}
    (hp : p.Sound ts jobs perShard) (hcalm : p.Calm e) (hs : p.step jobs perShard e = some p')
    (h : p.sched.stage.stop ≠ none) : p'.sched.stage.stop ≠ none ∧ p'.started = p.started := by
  cases hloop : p.pc.inLoop with
  | true =>
    rcases loopStep_of_step hloop hs with hstep | hsame
    · exact hstep.stopped h
    · rw [hsame.sched, hsame.started]
      exact ⟨h, rfl⟩
  | false =>
    cases stepped_of_step hs with
    | advanced hadvance =>
      have hpath := hp.path
      cases afterStep_of_advance hloop hadvance with
      | failed hpc =>
        rw [hpc] at hpath
        cases hpath
      | cut hpc =>
        rw [hpc] at hpath
        exact hpath.elim
      | _ => exact ⟨h, rfl⟩
    | woken hpc _ _ =>
      rw [hpc] at hloop
      cases hloop
    | delivered _ _ _ => exact ⟨h, rfl⟩
    | broke _ => exact hcalm.elim
    | signalled hsignal =>
      have hfirst : p.signals = 0 := hcalm
      simp only [Parent.onSignal, hfirst, if_true, Option.some.injEq] at hsignal
      subst hsignal
      exact ⟨h, rfl⟩
    | rechecked _ _ _ _ _ => exact ⟨h, rfl⟩

/-- Once stopped, the sequential loop stays stopped and starts no target. -/
theorem SeqLoop.stopped {l l' : SeqLoop} {e : SeqEvent} (hs : l.step e = some l')
    (h : l.sched.stage.stop ≠ none) : l'.sched.stage.stop ≠ none ∧ l'.started = l.started := by
  cases SeqLoop.moved_of_step hs with
  | returned _ _ => exact ⟨Sched.drain_stop _ h, rfl⟩
  | took _ hnext =>
    rw [next_of_stopped (Sched.drain_stop _ h)] at hnext
    cases hnext
  | finished _ _ => exact ⟨Sched.finish_stop _ _ h, rfl⟩
  | signalled => exact ⟨h, rfl⟩

/-! ### Conservation -/

/-- Where an entry is. -/
inductive Place
  | queued
  | inFlight
  | finished
  | notRun
  deriving DecidableEq, Repr

/-- An entry is in a place. -/
def Sched.In (s : Sched) (flight : List Id) (i : Id) : Place → Prop
  | .queued => ∃ a, i ∈ s.stage.queue a
  | .inFlight => i ∈ flight
  | .finished => ∃ k, (s.entry i).kind = .of k
  | .notRun => (s.entry i).kind = .notRun ∧ (s.entry i).reason ≠ .unset

/-- Each entry is in one place, each target is started at most once and in the order of its
shard, and no more are in flight than the limits allow. -/
structure Sched.Conserves (ts : List Target) (jobs perShard : Int) (flight started : List Id)
    (s : Sched) : Prop where
  place : ∀ i < ts.length, ∃! place, s.In flight i place
  once : started.Nodup
  order : ∀ a, onShard ts a started <+: onShard ts a (List.range ts.length)
  jobs_le : (flight.length : Int) ≤ jobs
  perShard_le : ∀ a, ((onShard ts a flight).length : Int) ≤ perShard

/-- Nothing is queued, nothing is in flight, and each entry has a kind and a reason to report. -/
structure Sched.Settled (ts : List Target) (flight : List Id) (s : Sched) : Prop where
  queue : ∀ a, s.stage.queue a = []
  flight_eq : flight = []
  reported : ∀ i < ts.length, (s.entry i).kind ≠ .running ∧ (s.entry i).reason ≠ .unset

section Conserves

variable {ts : List Target} {flight started : List Id} {s : Sched} {jobs perShard : Int}

/-- In a consistent stage every target is in exactly one place. -/
theorem Sched.Ok.place (h : s.Ok ts flight started) {i : Id} (hi : i < ts.length) :
    ∃! place, s.In flight i place := by
  have hqueue : s.In flight i .queued ↔
      (s.entry i).kind = .notRun ∧ (s.entry i).reason = .unset := by
    constructor
    · rintro ⟨a, ha⟩
      exact ((h.mem_queue a i).mp ha).2.2
    · intro hk
      exact ⟨shardAt ts i, (h.mem_queue _ i).mpr ⟨hi, rfl, hk⟩⟩
  have hflight : s.In flight i .inFlight ↔ (s.entry i).kind = .running :=
    (h.mem_flight i).trans (and_iff_right hi)
  have hfin := h.finished i hi
  cases hk : (s.entry i).kind with
  | running =>
    refine ⟨.inFlight, hflight.mpr hk, ?_⟩
    intro place hplace
    cases place with
    | queued => simp [hqueue, hk] at hplace
    | inFlight => rfl
    | finished => simp [Sched.In, hk] at hplace
    | notRun => simp [Sched.In, hk] at hplace
  | of k =>
    refine ⟨.finished, ⟨k, hk⟩, ?_⟩
    intro place hplace
    cases place with
    | queued => simp [hqueue, hk] at hplace
    | inFlight => simp [hflight, hk] at hplace
    | finished => rfl
    | notRun => simp [Sched.In, hk] at hplace
  | interrupted => exact absurd hk hfin.1
  | notRun =>
    by_cases hr : (s.entry i).reason = .unset
    · refine ⟨.queued, hqueue.mpr ⟨hk, hr⟩, ?_⟩
      intro place hplace
      cases place with
      | queued => rfl
      | inFlight => simp [hflight, hk] at hplace
      | finished => simp [Sched.In, hk] at hplace
      | notRun => simp [Sched.In, hr] at hplace
    · refine ⟨.notRun, ⟨hk, hr⟩, ?_⟩
      intro place hplace
      cases place with
      | queued => simp [hqueue, hr] at hplace
      | inFlight => simp [hflight, hk] at hplace
      | finished => simp [Sched.In, hk] at hplace
      | notRun => rfl

/-- A consistent stage within its limits conserves the targets. -/
theorem Sched.Ok.conserves (h : s.Ok ts flight started) (hjobs : (flight.length : Int) ≤ jobs)
    (hper : ∀ a, ((onShard ts a flight).length : Int) ≤ perShard) :
    s.Conserves ts jobs perShard flight started := by
  have horder : ∀ a, onShard ts a started <+: onShard ts a (List.range ts.length) := fun a =>
    (List.prefix_append _ _).trans (h.order a)
  refine ⟨fun i hi => h.place hi, ?_, horder, hjobs, hper⟩
  rw [List.nodup_iff_count_le_one]
  intro i
  have hall : (onShard ts (shardAt ts i) (List.range ts.length)).Nodup := List.nodup_range.filter _
  have hone := List.nodup_iff_count_le_one.mp ((horder (shardAt ts i)).sublist.nodup hall) i
  rwa [onShard, List.count_filter (by simp)] at hone

/-- A consistent stage with nothing queued or in flight has settled every target. -/
theorem Sched.Ok.settled (h : s.Ok ts [] started) (hqueue : ∀ a, s.stage.queue a = []) :
    s.Settled ts [] := by
  refine ⟨hqueue, rfl, fun i hi => ?_⟩
  have hfin := h.finished i hi
  have hrun : (s.entry i).kind ≠ .running := fun hk => by
    simpa using (h.mem_flight i).mpr ⟨hi, hk⟩
  refine ⟨hrun, fun hr => ?_⟩
  cases hk : (s.entry i).kind with
  | running => exact hrun hk
  | of k => exact hfin.2 k hk hr
  | interrupted => exact hfin.1 hk
  | notRun =>
    have hmem := (h.mem_queue (shardAt ts i) i).mpr ⟨hi, rfl, hk, hr⟩
    simp [hqueue] at hmem

end Conserves

/-- The entries of a target list, and the stage that schedules them. -/
def Sched.of (ts : List Target) (keepGoing : Bool) (maxFailures : Int) : Sched :=
  ⟨fun i => Entry.fresh (targetAt ts i), TenantStage.of ts keepGoing maxFailures⟩

section Runs

variable {ts : List Target} {keepGoing : Bool} {maxFailures jobs perShard : Int}

/-- In every calm run of the parallel loop the parent is sound. -/
theorem Parent.sound_of_trace {p : Parent} (hjobs : 1 ≤ jobs) (hper : 1 ≤ perShard)
    (h : Trace (fun p => Parent.step p jobs perShard) Parent.Calm
      (.start ts.length (.of ts keepGoing maxFailures)) p) : p.Sound ts jobs perShard := by
  refine h.invariant ?_ fun p e p' hp hcalm hs => hp.step hjobs hper hcalm hs
  have hok := Sched.ok_of ts keepGoing maxFailures
  refine ⟨⟨hok, trivial⟩, rfl, fun _ => Option.some_ne_none _ |>.symm, trivial, ?_, ?_, nofun, nofun⟩
  · change (0 : Int) ≤ jobs
    omega
  · intro a
    change (0 : Int) ≤ perShard
    omega

/-- In every run of the sequential loop it is sound. -/
theorem SeqLoop.sound_of_trace {l : SeqLoop}
    (h : Trace SeqLoop.step (fun _ _ => True) (.start (.of ts keepGoing maxFailures)) l) :
    l.Sound ts := by
  refine h.invariant ?_ fun l e l' hl _ hs => hl.step hs
  exact ⟨Sched.ok_of ts keepGoing maxFailures, nofun⟩

/-- Conservation of targets, in the parallel loop without a broken pool or a hard stop and in the
sequential one. -/
theorem targets_conserved (ts : List Target) (keepGoing : Bool) (maxFailures jobs perShard : Int)
    (hper : 1 ≤ perShard) (hjobs : perShard ≤ jobs) :
    (∀ p, Trace (fun p => Parent.step p jobs perShard) Parent.Calm
        (.start ts.length (.of ts keepGoing maxFailures)) p →
      p.sched.Conserves ts jobs perShard p.flight p.started ∧
      (p.pc = .wait → p.running ≠ []) ∧
      (p.pc.inLoop = false → p.sched.Settled ts p.flight) ∧
      ∀ q, Trace (fun p => Parent.step p jobs perShard) Parent.Calm p q →
        p.sched.stage.stop ≠ none → q.started = p.started) ∧
    (∀ l, Trace SeqLoop.step (fun _ _ => True) (.start (.of ts keepGoing maxFailures)) l →
      l.sched.Conserves ts 1 1 l.flight l.started ∧
      (l.pc = .returned → l.sched.Settled ts l.flight) ∧
      ∀ m, Trace SeqLoop.step (fun _ _ => True) l m → l.sched.stage.stop ≠ none →
        m.started = l.started) := by
  have hone : 1 ≤ jobs := le_trans hper hjobs
  refine ⟨fun p hp => ?_, fun l hl => ?_⟩
  · have hsound := Parent.sound_of_trace hone hper hp
    refine ⟨hsound.books.ok.conserves hsound.jobs_le hsound.perShard_le, hsound.waiting, ?_, ?_⟩
    · intro hloop
      obtain ⟨hrun, hqueue⟩ := hsound.back hloop
      have hflight : p.flight = [] := by
        cases hpc : p.pc with
        | submit i =>
          rw [hpc] at hloop
          cases hloop
        | _ => rw [p.flight_eq hpc (by simp), hrun]
      have hok := hsound.books.ok
      rw [hflight] at hok ⊢
      exact hok.settled hqueue
    · intro q hq hstop
      have hboth : q.Sound ts jobs perShard ∧ q.sched.stage.stop ≠ none ∧ q.started = p.started := by
        refine hq.invariant (I := fun q => q.Sound ts jobs perShard ∧ q.sched.stage.stop ≠ none ∧
          q.started = p.started) ⟨hsound, hstop, rfl⟩ ?_
        rintro p₁ e p₂ ⟨h₁, hstop₁, hstarted⟩ hcalm hs
        obtain ⟨hstop₂, hsame⟩ := h₁.stopped hcalm hs hstop₁
        exact ⟨h₁.step hone hper hcalm hs, hstop₂, hsame.trans hstarted⟩
      exact hboth.2.2
  · have hsound := SeqLoop.sound_of_trace hl
    have hlen := l.length_flight_le
    refine ⟨hsound.ok.conserves (Int.ofNat_le.mpr hlen) fun a => ?_, ?_, ?_⟩
    · exact Int.ofNat_le.mpr ((List.length_filter_le _ _).trans hlen)
    · intro hpc
      have hflight : l.flight = [] := by rw [SeqLoop.flight, hpc]
      have hok := hsound.ok
      rw [hflight] at hok ⊢
      exact hok.settled (hsound.back hpc)
    · intro m hm hstop
      have hboth : m.sched.stage.stop ≠ none ∧ m.started = l.started := by
        refine hm.invariant (I := fun m => m.sched.stage.stop ≠ none ∧ m.started = l.started)
          ⟨hstop, rfl⟩ ?_
        rintro l₁ e l₂ ⟨hstop₁, hstarted⟩ _ hs
        obtain ⟨hstop₂, hsame⟩ := SeqLoop.stopped hs hstop₁
        exact ⟨hstop₂, hsame.trans hstarted⟩
      exact hboth.2

end Runs

/-! ### A run of two targets on two shards -/

/-- Two tenants, each on a shard of its own. -/
def twoTargets : List Target := [⟨"acme", "tenant_1", 1, .active⟩, ⟨"bolt", "tenant_2", 2, .active⟩]

/-- A worker delivers that it has migrated a target. -/
def deliversOk (i : Id) : Event :=
  .delivers i (.result ⟨.ok, (targetAt twoTargets i).schema, shardAt twoTargets i, .applied,
    "applied 1 migration(s)", [], none⟩)

/-- Both targets are submitted, and both are collected. -/
def smoothRun : List Event :=
  List.replicate 6 .advance ++ [deliversOk 1, .waitReturns [1]] ++ List.replicate 4 .advance ++
    [deliversOk 0, .waitReturns [0]] ++ List.replicate 8 .advance

/-- Two jobs on the two shards: the run ends, and it ends settled. -/
theorem targets_conserved_smooth : (1 : Int) ≤ 1 ∧ (1 : Int) ≤ 2 ∧
    ∃ p, runEvents (fun p => Parent.step p 2 1) (.start 2 (.of twoTargets false 3)) smoothRun = some p ∧
      p.pc = .ended ∧ p.started = [0, 1] ∧ p.sched.Settled twoTargets p.flight := by
  have hconserved := (targets_conserved twoTargets false 3 2 1 (by decide) (by decide)).1
  obtain ⟨p, hp⟩ : ∃ p, runEvents (fun p => Parent.step p 2 1)
      (.start 2 (.of twoTargets false 3)) smoothRun = some p := ⟨_, rfl⟩
  have hpc : (runEvents (fun p => Parent.step p 2 1) (.start 2 (.of twoTargets false 3))
      smoothRun).map (fun p => (p.pc, p.started)) = some (.ended, [0, 1]) := rfl
  rw [hp, Option.map_some, Option.some.injEq, Prod.mk.injEq] at hpc
  have htrace := Trace.of_runEvents (R := Parent.Calm) .start
    (by decide +kernel) hp
  refine ⟨by decide, by decide, p, hp, hpc.1, hpc.2, ?_⟩
  refine (hconserved p htrace).2.2.1 ?_
  rw [hpc.1]
  rfl

end MtShards.Scheduler
