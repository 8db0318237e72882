import MtShards.Models.Scheduler.Conservation

/-!
# Broken pools and hard stops

A worker that dies while targets are in flight is noticed through one of their futures: the
parent leaves its loop, keeps the results that made it back, and interrupts the rest. Two places
are out of step with that. `submit` raises on a pool that is already broken, which leaves the
loop as any other error would; and a second signal that arrives once the pool is released
raises, which skips the snapshots of the targets just cut off.
-/

namespace MtShards.Scheduler

open MtShards.Core

/-! ### Entries that an operation leaves alone -/

section Entries

variable {s : Sched} {i j : Id}

/-- An entry in no queue. -/
def Sched.Free (s : Sched) (i : Id) : Prop := ∀ a, i ∉ s.stage.queue a

/-- An entry in no queue is not queued. -/
theorem Sched.Free.queued (h : s.Free i) : i ∉ s.stage.queued := by
  intro hi
  obtain ⟨a, -, ha⟩ := List.mem_flatMap.mp hi
  exact h a ha

/-- A halt leaves an entry alone that is in no queue. -/
theorem Sched.Free.halt (h : s.Free i) (stop : Stop) (override : Bool) :
    (s.halt stop override).entry i = s.entry i :=
  writeAll_of_notMem h.queued

/-- Accounting for a target leaves an entry alone that is in no queue, and in no queue. -/
theorem Sched.Free.account (h : s.Free i) (e : Entry) :
    (s.account e).entry i = s.entry i ∧ (s.account e).Free i := by
  rw [Sched.account]
  split
  · refine ⟨writeAll_of_notMem (h _), fun a => ?_⟩
    by_cases ha : a = e.target.shard
    · simp [Sched.dropShard, ha]
    · simpa [Sched.dropShard, ha] using h a
  · split
    · exact ⟨rfl, h⟩
    · split
      · exact ⟨rfl, h⟩
      · exact ⟨rfl, h⟩

/-- Judging a target leaves an entry alone that is in no queue. -/
theorem Sched.Free.judge (h : s.Free i) (e : Entry) : (s.judge e).entry i = s.entry i := by
  rw [Sched.judge]
  split
  · rfl
  · split
    · split
      · exact h.halt _ _
      · rfl
    · split
      · exact h.halt _ _
      · rfl

/-- The callback of a finished target leaves an entry alone that is in no queue. -/
theorem Sched.Free.done (h : s.Free i) (j : Id) : (s.done j).entry i = s.entry i := by
  have hland : (s.land (s.entry j).target.shard).Free i := h
  rw [Sched.done]
  split
  · exact hland.halt _ _
  · obtain ⟨heq, hfree⟩ := hland.account (s.entry j)
    rw [hfree.judge, heq]
    rfl

/-- What finishing a target leaves of an entry: only the finished one is written. -/
theorem Sched.Free.finish (h : s.Free i) (j : Id) (d : Delivered) :
    (s.finish j d).entry i = if i = j then (s.entry j).collect d else s.entry i := by
  have hfree : Sched.Free { s with entry := Function.update s.entry j ((s.entry j).collect d) } i := h
  rw [Sched.finish, hfree.done]
  by_cases hij : i = j
  · subst hij
    simp
  · simp [hij]

/-- Draining the queues leaves an entry alone that is in no queue. -/
theorem Sched.Free.drain (h : s.Free i) (signals : Nat) : (s.drain signals).entry i = s.entry i := by
  rw [Sched.drain]
  split
  · exact h.halt _ _
  · rfl

/-- An entry that is no longer `not_run` is in no queue. -/
theorem Sched.Ok.free {ts : List Target} {flight started : List Id} (h : s.Ok ts flight started)
    (hk : (s.entry i).kind ≠ .notRun) : s.Free i := by
  intro a hi
  exact hk ((h.mem_queue a i).mp hi).2.2.1

end Entries

/-! ### What is reported of a delivery -/

/-- An entry reports a delivery: the `Result` as it is, but for a `locked` skip that the re-check
has replaced; an exception of the worker as a failure. -/
def Entry.Reports (e : Entry) : Delivered → Prop
  | .result res => (e.kind = .of res.kind ∧ e.reason = .of res.reason ∧ e.msg = res.msg ∧
      e.invalidIndexes = res.invalidIndexes ∧ e.connError = res.connError) ∨
    (e.rechecked = true ∧ e.kind = .of .ok ∧ res.kind = .skipped ∧ res.reason = .locked)
  | .raised exc => e.kind = .of .failed ∧ e.msg = Migrator.excMsg exc

private theorem reports_collect (e : Entry) (d : Delivered) : (e.collect d).Reports d := by
  cases d with
  | result res => exact .inl ⟨rfl, rfl, rfl, rfl, rfl⟩
  | raised exc => exact ⟨rfl, rfl⟩

/-- An entry that reports a delivery has the kind of a result. -/
theorem Entry.Reports.kind {e : Entry} {d : Delivered} (h : e.Reports d) : ∃ k, e.kind = .of k := by
  cases d with
  | result res =>
    rcases h with h | h
    · exact ⟨_, h.1⟩
    · exact ⟨_, h.2.1⟩
  | raised exc => exact ⟨_, h.1⟩

/-! ### Runs that keep clear of the two places -/

/-- No `submit` on a pool that is already broken, and no second signal between the release of
the pool and the last snapshot while a target is cut off. -/
def Parent.heeds (p : Parent) : Event → Bool
  | .advance =>
    match p.pc with
    | .submit _ => !p.poolBroken
    | _ => true
  | .signal _ => p.signals = 0 || p.pc.live || p.pc = .recheck || p.running.isEmpty
  | _ => true

/-- What the futures of the pool are. -/
structure Parent.Futures (p : Parent) : Prop where
  unstarted : ∀ i, i ∉ p.started → p.future i = none
  pending : p.poolBroken = true → ∀ i, p.future i ≠ some .pending
  broken : p.poolBroken = false → ∀ i, p.future i ≠ some .broken
  cutOff : p.cutOff = true →
    p.poolBroken = true ∧ ∃ i ∈ p.started, Future.isDelivered (p.future i) = false

/-- A worker has delivered no `Result` for a target. -/
def Parent.NoResult (p : Parent) (i : Id) : Prop :=
  ∀ res, p.future i ≠ some (.delivered (.result res))

/-- What was delivered for a started target is reported. -/
def Parent.Reported (p : Parent) (i : Id) : Prop :=
  ∃ d, p.future i = some (.delivered d) ∧ (p.sched.entry i).Reports d

/-- How far the parent is with a broken pool. -/
def Parent.Rescuing (p : Parent) : Prop :=
  match p.pc with
  | .collect _ broken => broken = true → p.poolBroken = true
  | .rescue todo => p.poolBroken = true ∧ ∀ i ∈ p.running, i ∈ todo ∨ p.NoResult i
  | .cut => p.poolBroken = true ∧ ∀ i ∈ p.running, p.NoResult i
  | _ => True

/-- What holds while the parent is inside the loop. -/
structure Parent.Looping (ts : List Target) (p : Parent) : Prop where
  books : p.Books ts
  flight_started : ∀ i ∈ p.flight, i ∈ p.started
  fate : ∀ i ∈ p.started, i ∈ p.flight ∨ p.Reported i
  rescuing : p.Rescuing

/-- A stop for a hard stop or a broken pool. -/
def Stop.Hard (st : Stop) : Prop := st.reason = .hardStop ∨ st.reason = .brokenPool

/-- How far the parent is with the snapshots, and with the stop it reports. -/
def Parent.Snapped (p : Parent) : Prop :=
  match p.pc with
  | .release raised | .shutdown raised => raised = false
  | .snapshots todo => ∀ i ∈ p.running, i ∈ todo ∨ (p.sched.entry i).snapshot = true
  | .recheck | .handler _ | .ended => (∀ i ∈ p.running, (p.sched.entry i).snapshot = true) ∧
      (p.running ≠ [] → ∃ st, p.stop = some st ∧ st.Hard)
  | _ => False

/-- What holds after the loop. -/
structure Parent.Closing (p : Parent) : Prop where
  fate : ∀ i ∈ p.started,
    (i ∈ p.running ∧ (p.sched.entry i).kind = .interrupted ∧ p.NoResult i) ∨ p.Reported i
  running_started : ∀ i ∈ p.running, i ∈ p.started
  broken : p.running ≠ [] → p.poolBroken = true
  stop : p.running ≠ [] → ∃ st, p.sched.stage.stop = some st ∧ st.Hard
  snapped : p.Snapped

section Inside

variable {ts : List Target} {p p' : Parent} {jobs perShard : Int} {i : Id}

/-- A target that is reported has the kind of a result. -/
theorem Parent.Reported.kind (h : p.Reported i) : ∃ k, (p.sched.entry i).kind = .of k := by
  obtain ⟨d, -, hd⟩ := h
  exact hd.kind

/-- A reported target stays reported while neither its future nor its entry changes. -/
theorem Parent.Reported.of_eq (h : p.Reported i) (hfuture : p'.future i = p.future i)
    (hentry : p'.sched.entry i = p.sched.entry i) : p'.Reported i := by
  obtain ⟨d, hd, hrep⟩ := h
  exact ⟨d, hfuture.trans hd, hentry ▸ hrep⟩

/-- What is reported is in no queue and not in flight. -/
theorem Parent.Looping.free (h : p.Looping ts) (hi : p.Reported i) : p.sched.Free i := by
  obtain ⟨k, hk⟩ := hi.kind
  exact h.books.ok.free (by simp [hk])

/-- A target that is reported inside the loop is no longer in flight. -/
theorem Parent.Looping.not_flight (h : p.Looping ts) (hi : p.Reported i) : i ∉ p.flight := by
  obtain ⟨k, hk⟩ := hi.kind
  intro hflight
  rw [((h.books.ok.mem_flight i).mp hflight).2] at hk
  cases hk

/-- A target in flight is collected: it is reported now, and the others are as they were. -/
theorem Parent.Looping.finish (h : p.Looping ts) (hflight : p.flight = p.running)
    (hi : i ∈ p.running) {d : Delivered} (hd : p.future i = some (.delivered d)) {pc : Pc}
    {j : Id} (hj : j ∈ p.started) :
    j ∈ p.running.erase i ∨ Parent.Reported
      { p with running := p.running.erase i, sched := p.sched.finish i d, pc := pc } j := by
  have hkind := ((h.books.ok.mem_flight i).mp (hflight ▸ hi)).2
  by_cases hji : j = i
  · subst hji
    have hfree : p.sched.Free j := h.books.ok.free (by simp [hkind])
    refine .inr ⟨d, hd, ?_⟩
    dsimp only
    rw [hfree.finish, if_pos rfl]
    exact reports_collect _ d
  · rcases h.fate j hj with hf | hrep
    · rw [hflight] at hf
      exact .inl ((List.mem_erase_of_ne hji).mpr hf)
    · refine .inr (hrep.of_eq rfl ?_)
      dsimp only
      rw [(h.free hrep).finish, if_neg hji]

/-- The futures stay what they are while no future, the pool nor the cut changes and no target is
unstarted. -/
theorem Parent.Futures.of_eq (h : p.Futures) (hfuture : p'.future = p.future)
    (hbroken : p'.poolBroken = p.poolBroken) (hcut : p'.cutOff = p.cutOff)
    (hstarted : p.started ⊆ p'.started) : p'.Futures := by
  refine ⟨fun i hi => ?_, ?_, ?_, ?_⟩
  · rw [hfuture]
    exact h.unstarted i fun hmem => hi (hstarted hmem)
  · rw [hfuture, hbroken]
    exact h.pending
  · rw [hfuture, hbroken]
    exact h.broken
  · rw [hfuture, hbroken, hcut]
    intro hc
    obtain ⟨hb, i, hi, hd⟩ := h.cutOff hc
    exact ⟨hb, i, hstarted hi, hd⟩

/-- Inside the loop, or about to settle what it left. -/
def Pc.atWork (pc : Pc) : Prop := pc.inLoop = true ∨ pc = .cut

/-- What holds at every step of a run that keeps clear of the two places. -/
def Parent.Inv (ts : List Target) (p : Parent) : Prop :=
  p.Futures ∧ (p.pc.atWork ∧ p.Looping ts ∨ p.Closing)

/-- Going on in the loop changes nothing about the targets. -/
theorem Parent.Looping.go_on (h : p.Looping ts) (hf : p.Futures) {pc : Pc}
    (hflight : p.flight = p.running) (hpc : ∀ i, pc ≠ .submit i) (hwork : pc.atWork)
    (hbooks : Parent.Books ts { p with pc := pc }) (hresc : Parent.Rescuing { p with pc := pc }) :
    Parent.Inv ts { p with pc := pc } := by
  have hsame : Parent.flight { p with pc := pc } = p.flight :=
    (Parent.flight_eq rfl hpc).trans hflight.symm
  refine ⟨hf.of_eq rfl rfl rfl fun _ hi => hi, .inl ⟨hwork, hbooks, ?_, ?_, hresc⟩⟩
  · rw [hsame]
    exact h.flight_started
  · rw [hsame]
    exact h.fate

/-- Collecting a target in flight. -/
theorem Parent.Looping.collected (h : p.Looping ts) (hf : p.Futures) {pc : Pc}
    (hflight : p.flight = p.running) (hi : i ∈ p.running) {d : Delivered}
    (hd : p.future i = some (.delivered d)) (hpc : ∀ i, pc ≠ .submit i) (hwork : pc.atWork)
    (hbooks : Parent.Books ts
      { p with running := p.running.erase i, sched := p.sched.finish i d, pc := pc })
    (hresc : Parent.Rescuing
      { p with running := p.running.erase i, sched := p.sched.finish i d, pc := pc }) :
    Parent.Inv ts
      { p with running := p.running.erase i, sched := p.sched.finish i d, pc := pc } := by
  have hrest : Parent.flight
      { p with running := p.running.erase i, sched := p.sched.finish i d, pc := pc } =
      p.running.erase i := Parent.flight_eq rfl hpc
  refine ⟨hf.of_eq rfl rfl rfl fun _ hi => hi, .inl ⟨hwork, hbooks, ?_, ?_, hresc⟩⟩
  · rw [hrest]
    intro j hj
    exact h.flight_started j (hflight ▸ List.mem_of_mem_erase hj)
  · rw [hrest]
    exact fun j hj => h.finish hflight hi hd hj

/-- A target that was started is submitted to a pool that works. -/
theorem Parent.Futures.submit (hf : p.Futures) (hbroken : p.poolBroken = false)
    (hi : i ∈ p.started) : Parent.Futures { p with
      future := Function.update p.future i (some .pending), running := p.running ++ [i]
      pc := .fill } := by
  refine ⟨fun j hj => ?_, ?_, fun _ j => ?_, ?_⟩
  · have hji : j ≠ i := by
      rintro rfl
      exact hj hi
    simpa [hji] using hf.unstarted j hj
  · intro hb
    rw [hbroken] at hb
    cases hb
  · by_cases hji : j = i
    · simp [hji]
    · simpa [hji] using hf.broken hbroken j
  · intro hc
    have hb := (hf.cutOff hc).1
    rw [hbroken] at hb
    cases hb

/-- A step of the loop keeps the invariant, as long as nothing is submitted to a broken pool. -/
theorem Parent.LoopStep.inv (hs : p.LoopStep jobs perShard p') (hf : p.Futures)
    (h : p.Looping ts) (hsubmit : ∀ i, p.pc = .submit i → p.poolBroken = false) : p'.Inv ts := by
  have hbooks := hs.books h.books hsubmit
  have hok := h.books.ok
  have htodo := h.books.todo
  have hresc := h.rescuing
  have hfs := h.flight_started
  have hfate := h.fate
  cases hs with
  | top hpc =>
    rw [p.flight_eq hpc (by simp)] at hfs hfate
    refine ⟨hf.of_eq rfl rfl rfl fun _ hi => hi, .inl ⟨.inl rfl, hbooks, hfs, fun i hi => ?_, trivial⟩⟩
    rcases hfate i hi with hfl | hrep
    · exact .inl hfl
    · exact .inr (hrep.of_eq rfl ((h.free hrep).drain _))
  | @take j st hpc hnext =>
    rw [p.flight_eq hpc (by simp)] at hfs hfate
    obtain ⟨a, rest, -, -, -, hqueue, -⟩ := next_eq_some hnext
    have hj := (h.books.ok.mem_queue a j).mp (by rw [hqueue]; exact List.mem_cons_self)
    refine ⟨hf.of_eq rfl rfl rfl (List.subset_append_left _ _),
      .inl ⟨.inl rfl, hbooks, fun i hi => ?_, fun i hi => ?_, trivial⟩⟩
    · rcases List.mem_append.mp hi with hi | hi
      · exact List.mem_append_left _ (hfs i hi)
      · exact List.mem_append_right _ hi
    · rcases List.mem_append.mp hi with hi | hi
      · rcases hfate i hi with hfl | hrep
        · exact .inl (List.mem_append_left _ hfl)
        · have hij : i ≠ j := by
            rintro rfl
            obtain ⟨k, hk⟩ := hrep.kind
            rw [hj.2.2.1] at hk
            cases hk
          refine .inr (hrep.of_eq rfl ?_)
          simp [Sched.markRunning, hij]
      · exact .inl (List.mem_append_right _ hi)
  | leave hpc hnext hrun =>
    rw [p.flight_eq hpc (by simp)] at hfs hfate
    refine ⟨hf.of_eq rfl rfl rfl fun _ hi => hi, .inr ⟨fun i hi => ?_, hfs, ?_, ?_, rfl⟩⟩
    · rcases hfate i hi with hfl | hrep
      · rw [hrun] at hfl
        exact absurd hfl List.not_mem_nil
      · exact .inr (hrep.of_eq rfl rfl)
    · exact fun hne => absurd hrun hne
    · exact fun hne => absurd hrun hne
  | sleep hpc _ _ =>
    exact h.go_on hf (p.flight_eq hpc (by simp)) (by simp) (.inl rfl) hbooks trivial
  | raised hpc hbroken =>
    rw [hsubmit _ hpc] at hbroken
    cases hbroken
  | @submit j hpc hbroken =>
    have hflight : p.flight = p.running ++ [j] := by rw [Parent.flight, hpc]
    have hmem : j ∈ p.flight := by simp [hflight]
    refine ⟨hf.submit hbroken (hfs j hmem), ?_⟩
    rw [hflight] at hfs hfate
    refine .inl ⟨.inl rfl, hbooks, hfs, fun i hi => ?_, trivial⟩
    rcases hfate i hi with hfl | hrep
    · exact .inl hfl
    · have hij : i ≠ j := by
        rintro rfl
        exact h.not_flight hrep hmem
      refine .inr (hrep.of_eq ?_ rfl)
      simp [hij]
  | wake hpc _ _ =>
    exact h.go_on hf (p.flight_eq hpc (by simp)) (by simp) (.inl rfl) hbooks fun h => by cases h
  | @again broken hpc =>
    rw [Parent.Rescuing, hpc] at hresc
    cases broken with
    | true =>
      exact h.go_on hf (p.flight_eq hpc (by simp)) (by simp) (.inl rfl) hbooks
        ⟨hresc rfl, fun _ hi => .inl hi⟩
    | false =>
      exact h.go_on hf (p.flight_eq hpc (by simp)) (by simp) (.inl rfl) hbooks trivial
  | @seeBroken j rest broken hpc hfuture =>
    have hbroken : p.poolBroken = true := by
      by_contra hb
      exact hf.broken (by simpa using hb) j hfuture
    exact h.go_on hf (p.flight_eq hpc (by simp)) (by simp) (.inl rfl) hbooks fun _ => hbroken
  | @collect j rest broken d hpc hfuture =>
    rw [Parent.Todo, hpc] at htodo
    rw [Parent.Rescuing, hpc] at hresc
    exact h.collected hf (p.flight_eq hpc (by simp)) (htodo.2 j List.mem_cons_self) hfuture
      (by simp) (.inl rfl) hbooks hresc
  | cutOff hpc =>
    rw [Parent.Rescuing, hpc] at hresc
    refine h.go_on hf (p.flight_eq hpc (by simp)) (by simp) (.inr rfl) hbooks
      ⟨hresc.1, fun i hi => ?_⟩
    rcases hresc.2 i hi with hnil | hno
    · exact absurd hnil List.not_mem_nil
    · exact hno
  | @rescue j rest res hpc hfuture =>
    have hflight := p.flight_eq hpc (by simp)
    rw [Parent.Todo, hpc] at htodo
    rw [Parent.Rescuing, hpc] at hresc
    rw [hflight] at hok
    refine h.collected hf hflight (htodo.2 j List.mem_cons_self) hfuture (by simp) (.inl rfl)
      hbooks ⟨hresc.1, fun i hi => ?_⟩
    obtain ⟨hne, hi'⟩ := hok.flight_nodup.mem_erase_iff.mp hi
    rcases hresc.2 i hi' with hcons | hno
    · rcases List.mem_cons.mp hcons with rfl | hrest
      · exact absurd rfl hne
      · exact .inl hrest
    · exact .inr hno
  | @skip j rest hpc hno =>
    rw [Parent.Rescuing, hpc] at hresc
    refine h.go_on hf (p.flight_eq hpc (by simp)) (by simp) (.inl rfl) hbooks
      ⟨hresc.1, fun i hi => ?_⟩
    rcases hresc.2 i hi with hcons | hno'
    · rcases List.mem_cons.mp hcons with rfl | hrest
      · exact .inr hno
      · exact .inl hrest
    · exact .inr hno'

/-- What the break left in flight is interrupted, and the stage stops for it. -/
theorem Parent.Looping.cut (h : p.Looping ts) (hf : p.Futures) (hpc : p.pc = .cut) :
    Parent.Inv ts { p with sched := p.cutRunning, pc := .release false } := by
  have hresc := h.rescuing
  have hflight := p.flight_eq hpc (by simp)
  rw [Parent.Rescuing, hpc] at hresc
  refine ⟨hf.of_eq rfl rfl rfl fun _ hi => hi, .inr ⟨fun i hi => ?_, ?_, fun _ => hresc.1, ?_, rfl⟩⟩
  · rcases h.fate i hi with hfl | hrep
    · rw [hflight] at hfl
      refine .inl ⟨hfl, ?_, hresc.2 i hfl⟩
      simp only [Parent.cutRunning, writeAll_of_mem hfl, Parent.interrupt]
    · have hnot : i ∉ p.running := hflight ▸ h.not_flight hrep
      refine .inr (hrep.of_eq rfl ?_)
      simp only [Parent.cutRunning, writeAll_of_notMem hnot]
      exact (h.free hrep).halt _ _
  · intro i hi
    exact h.flight_started i (hflight ▸ hi)
  · intro _
    refine ⟨_, rfl, ?_⟩
    simp only [Sched.stopAfter]
    cases p.sched.stage.stop <;> cases p.hard <;> simp [Stop.Hard]

end Inside

/-! ### After the loop -/

section After

variable {p p' : Parent} {i : Id}

/-- An entry still reports its delivery when a snapshot is put on it. -/
theorem Entry.Reports.snap {e : Entry} {d : Delivered} (h : e.Reports d) (b : Bool) :
    Entry.Reports { e with snapshot := b } d := by
  cases d with
  | result res => exact h
  | raised exc => exact h

/-- A snapshot changes nothing else of an entry. -/
theorem snap_entry (p : Parent) (i j : Id) :
    ∃ b, (p.snap i).entry j = { p.sched.entry j with snapshot := b } ∧
      ((p.sched.entry j).snapshot = true → b = true) ∧ (j = i → b = true) := by
  by_cases hj : j = i
  · subst hj
    exact ⟨true, by simp [Parent.snap], fun _ => rfl, fun _ => rfl⟩
  · refine ⟨(p.sched.entry j).snapshot, by simp [Parent.snap, hj], fun h => h, fun h => absurd h hj⟩

/-- The fates of the started targets outlive whatever leaves their futures, and what is
reported of them, as it is. -/
theorem Parent.Closing.of_eq (h : p.Closing) (hstarted : p'.started = p.started)
    (hrunning : p'.running = p.running) (hbroken : p'.poolBroken = p.poolBroken)
    (hstop : p'.sched.stage.stop = p.sched.stage.stop)
    (hfuture : ∀ i ∈ p.started, p'.future i = p.future i)
    (hkind : ∀ i ∈ p.started, (p.sched.entry i).kind = .interrupted →
      (p'.sched.entry i).kind = .interrupted)
    (hrep : ∀ i ∈ p.started, ∀ d, (p.sched.entry i).Reports d → (p'.sched.entry i).Reports d)
    (hsnapped : p'.Snapped) : p'.Closing := by
  refine ⟨fun i hi => ?_, ?_, ?_, ?_, hsnapped⟩
  · rw [hstarted] at hi
    rcases h.fate i hi with ⟨hrun, hk, hno⟩ | ⟨d, hd, hd'⟩
    · refine .inl ⟨hrunning ▸ hrun, hkind i hi hk, fun res => ?_⟩
      rw [hfuture i hi]
      exact hno res
    · exact .inr ⟨d, (hfuture i hi).trans hd, hrep i hi d hd'⟩
  · rw [hrunning, hstarted]
    exact h.running_started
  · rw [hrunning, hbroken]
    exact h.broken
  · rw [hrunning, hstop]
    exact h.stop

/-- The parent moves on, or asks for a snapshot. -/
theorem Parent.Closing.snap (h : p.Closing) (j : Id) {pc : Pc} {signals : Nat}
    (hsnapped : Parent.Snapped { p with sched := p.snap j, signals := signals, pc := pc }) :
    Parent.Closing { p with sched := p.snap j, signals := signals, pc := pc } := by
  refine h.of_eq rfl rfl rfl rfl (fun _ _ => rfl) (fun i _ hk => ?_) (fun i _ d hd => ?_) hsnapped
  · obtain ⟨b, heq, -⟩ := snap_entry p j i
    dsimp only
    rw [heq]
    exact hk
  · obtain ⟨b, heq, -⟩ := snap_entry p j i
    dsimp only
    rw [heq]
    exact hd.snap b

/-- What holds after the loop does not depend on where the parent is, but for the snapshots. -/
theorem Parent.Closing.moveOn (h : p.Closing) {pc : Pc} {stop : Option Stop}
    (hsnapped : Parent.Snapped { p with stop := stop, pc := pc }) :
    Parent.Closing { p with stop := stop, pc := pc } :=
  h.of_eq rfl rfl rfl rfl (fun _ _ => rfl) (fun _ _ hk => hk) (fun _ _ _ hd => hd) hsnapped

/-- After the loop the parent is not in it. -/
theorem Parent.Closing.not_inLoop (h : p.Closing) : p.pc.inLoop = false := by
  have hsnapped := h.snapped
  rw [Parent.Snapped] at hsnapped
  cases hpc : p.pc <;> simp [hpc, Pc.inLoop] at hsnapped ⊢

/-- What holds after the loop holds after each further step of the parent. -/
theorem Parent.Closing.advance {jobs perShard : Int} (h : p.Closing)
    (hs : p.advance jobs perShard = some p') : p'.Closing := by
  have hsnapped := h.snapped
  rw [Parent.Snapped] at hsnapped
  cases afterStep_of_advance h.not_inLoop hs with
  | cut hpc => simp [hpc] at hsnapped
  | release hpc =>
    simp only [hpc] at hsnapped
    exact h.moveOn hsnapped
  | failed hpc => simp [hpc] at hsnapped
  | shutdown _ => exact h.moveOn fun i hi => .inl hi
  | settled hpc =>
    simp only [hpc] at hsnapped
    refine h.moveOn ⟨fun i hi => ?_, h.stop⟩
    rcases hsnapped i hi with hnil | hsnap
    · exact absurd hnil List.not_mem_nil
    · exact hsnap
  | @snapshot j rest hpc =>
    simp only [hpc] at hsnapped
    refine h.snap j fun i hi => ?_
    obtain ⟨b, heq, hkeep, hnew⟩ := snap_entry p j i
    rcases hsnapped i hi with hcons | hsnap
    · rcases List.mem_cons.mp hcons with rfl | hrest
      · refine .inr ?_
        dsimp only
        rw [heq]
        exact hnew rfl
      · exact .inl hrest
    · refine .inr ?_
      dsimp only
      rw [heq]
      exact hkeep hsnap
  | rechecked hpc =>
    simp only [hpc] at hsnapped
    exact h.moveOn hsnapped
  | handled hpc =>
    simp only [hpc] at hsnapped
    exact h.moveOn hsnapped
  | @handle j rest hpc =>
    simp only [hpc] at hsnapped
    refine h.snap j ⟨fun i hi => ?_, hsnapped.2⟩
    obtain ⟨b, heq, hkeep, -⟩ := snap_entry p j i
    dsimp only
    rw [heq]
    exact hkeep (hsnapped.1 i hi)

/-- `_settle` leaves an entry that is neither running nor unstarted. -/
theorem settle_entry {kind : EntryKind} {reason : EntryReason} {msg : String}
    (h : (p.sched.entry i).kind = .interrupted ∨ ∃ k, (p.sched.entry i).kind = .of k) :
    (p.settle kind reason msg).entry i = p.sched.entry i := by
  have hk : (p.sched.entry i).kind ≠ .running ∧ (p.sched.entry i).kind ≠ .notRun := by
    rcases h with h | ⟨k, h⟩ <;> simp [h]
  simp [Parent.settle, hk]

/-- `KeyboardInterrupt` after the snapshots, or with nothing cut off. -/
theorem Parent.Closing.interrupted (h : p.Closing) (hpc : p.pc = .recheck ∨ p.running = []) :
    p.interrupted.Closing := by
  have hentry : ∀ i ∈ p.started, p.interrupted.sched.entry i = p.sched.entry i := by
    intro i hi
    have hkind : (p.sched.entry i).kind = .interrupted ∨ ∃ k, (p.sched.entry i).kind = .of k := by
      rcases h.fate i hi with hcut | hrep
      · exact .inl hcut.2.1
      · exact .inr hrep.kind
    exact settle_entry (p := { p with stop := _, signals := _ }) hkind
  refine h.of_eq rfl rfl rfl rfl (fun _ _ => rfl) (fun i hi hk => ?_) (fun i hi d hd => ?_) ?_
  · rw [hentry i hi]
    exact hk
  · rw [hentry i hi]
    exact hd
  · refine ⟨fun i hi => ?_, fun _ => ⟨_, rfl, .inl rfl⟩⟩
    rw [hentry i (h.running_started i hi)]
    rcases hpc with hpc | hrun
    · have hsnapped := h.snapped
      rw [Parent.Snapped, hpc] at hsnapped
      exact hsnapped.1 i hi
    · change i ∈ p.running at hi
      rw [hrun] at hi
      exact absurd hi List.not_mem_nil

/-- The re-check of a `locked` skip keeps what holds after the loop. -/
theorem Parent.Closing.recheck (h : p.Closing) (hpc : p.pc = .recheck)
    (hkind : (p.sched.entry i).kind = .of .skipped) (hreason : (p.sched.entry i).reason = .of .locked)
    (provisioning : Bool) (msg : String) :
    Parent.Closing { p with sched := p.recheckEntry i provisioning msg } := by
  have hsnapped := h.snapped
  rw [Parent.Snapped, hpc] at hsnapped
  refine h.of_eq rfl rfl rfl rfl (fun _ _ => rfl) (fun j _ hk => ?_) (fun j _ d hd => ?_) ?_
  · have hji : j ≠ i := by
      rintro rfl
      rw [hkind] at hk
      cases hk
    simpa [Parent.recheckEntry, hji] using hk
  · by_cases hji : j = i
    · subst hji
      cases d with
      | result res =>
        rcases hd with hd | hd
        · have hres : res.kind = .skipped ∧ res.reason = .locked := by
            rw [hkind, hreason] at hd
            exact ⟨(EntryKind.of.inj hd.1).symm, (EntryReason.of.inj hd.2.1).symm⟩
          exact .inr ⟨by simp [Parent.recheckEntry], by simp [Parent.recheckEntry], hres.1, hres.2⟩
        · rw [hkind] at hd
          cases hd.2.1
      | raised exc =>
        rw [Entry.Reports, hkind] at hd
        cases hd.1
    · simpa [Parent.recheckEntry, hji] using hd
  · rw [Parent.Snapped, hpc]
    refine ⟨fun j hj => ?_, hsnapped.2⟩
    have hsnap := hsnapped.1 j hj
    by_cases hji : j = i
    · subst hji
      simpa [Parent.recheckEntry] using hsnap
    · simpa [Parent.recheckEntry, hji] using hsnap

end After

/-! ### Every event -/

section Events

variable {ts : List Target} {p p' : Parent} {jobs perShard : Int} {e : Event} {i : Id}

/-- A future is settled while the pool is whole: what was delivered before stays so. -/
theorem Parent.Inv.settleFutures (h : p.Inv ts) (hbroken : p.poolBroken = false)
    (hf : Parent.Futures p') (hsame : p.SameBooks p')
    (hfuture : ∀ i d, p.future i = some (.delivered d) → p'.future i = some (.delivered d)) :
    p'.Inv ts := by
  have hrep : ∀ i, p.Reported i → p'.Reported i := by
    rintro i ⟨d, hd, hd'⟩
    exact ⟨d, hfuture i d hd, hsame.sched ▸ hd'⟩
  have hflight : p'.flight = p.flight := by
    rw [Parent.flight, Parent.flight, hsame.pc, hsame.running]
  refine ⟨hf, ?_⟩
  rcases h.2 with ⟨hwork, hl⟩ | hc
  · refine .inl ⟨hsame.pc ▸ hwork, hsame.books hl.books, ?_, fun i hi => ?_, ?_⟩
    · rw [hflight, hsame.started]
      exact hl.flight_started
    · rw [hsame.started] at hi
      rw [hflight]
      exact (hl.fate i hi).imp_right (hrep i)
    · -- With the pool whole, the parent is not rescuing anything.
      have hresc := hl.rescuing
      rw [Parent.Rescuing] at hresc ⊢
      rw [hsame.pc]
      cases hpc : p.pc with
      | collect todo broken =>
        simp only [hpc] at hresc ⊢
        intro hb
        rw [hresc hb] at hbroken
        cases hbroken
      | rescue todo =>
        simp only [hpc] at hresc
        rw [hresc.1] at hbroken
        cases hbroken
      | cut =>
        simp only [hpc] at hresc
        rw [hresc.1] at hbroken
        cases hbroken
      | _ => trivial
  · have hrun : p.running = [] := by
      by_contra hne
      rw [hc.broken hne] at hbroken
      cases hbroken
    refine .inr ⟨fun i hi => ?_, ?_, ?_, ?_, ?_⟩
    · rw [hsame.started] at hi
      rcases hc.fate i hi with hcut | hr
      · rw [hrun] at hcut
        exact absurd hcut.1 List.not_mem_nil
      · exact .inr (hrep i hr)
    · rw [hsame.running, hrun]
      exact fun i hi => absurd hi List.not_mem_nil
    · rw [hsame.running, hrun]
      exact fun hne => absurd rfl hne
    · rw [hsame.running, hrun]
      exact fun hne => absurd rfl hne
    · have hsnapped := hc.snapped
      rw [Parent.Snapped] at hsnapped ⊢
      rw [hsame.pc, hsame.running, hsame.sched, hsame.stop]
      exact hsnapped

/-- A delivery on a pool that is not broken keeps the futures what they are. -/
theorem Parent.Futures.deliver (h : p.Futures) (hi : p.future i = some .pending)
    (hbroken : p.poolBroken = false) (d : Delivered) :
    Parent.Futures { p with future := Function.update p.future i (some (.delivered d)) } := by
  have hstarted : i ∈ p.started := by
    by_contra hnot
    rw [h.unstarted i hnot] at hi
    cases hi
  refine ⟨fun j hj => ?_, ?_, fun _ j => ?_, ?_⟩
  · have hji : j ≠ i := by
      rintro rfl
      exact hj hstarted
    simpa [hji] using h.unstarted j hj
  · intro hb
    rw [hbroken] at hb
    cases hb
  · by_cases hji : j = i
    · simp [hji]
    · simpa [hji] using h.broken hbroken j
  · intro hc
    have hb := (h.cutOff hc).1
    rw [hbroken] at hb
    cases hb

/-- When the pool breaks, every pending future breaks with it. -/
theorem Parent.Futures.breakPool (h : p.Futures) (hbroken : p.poolBroken = false) :
    p.breakPool.Futures := by
  refine ⟨fun i hi => ?_, fun _ i => ?_, nofun, fun hc => ⟨rfl, ?_⟩⟩
  · simp [Parent.breakPool, h.unstarted i hi]
  · simp only [Parent.breakPool]
    split
    · simp
    · assumption
  · have hcut : p.cutOff = false := by
      by_contra hne
      have hb := (h.cutOff (by simpa using hne)).1
      rw [hbroken] at hb
      cases hb
    simp only [Parent.breakPool, hcut, Bool.false_or, List.any_eq_true, Bool.not_eq_true'] at hc
    obtain ⟨i, hi, hd⟩ := hc
    refine ⟨i, hi, ?_⟩
    simp only [Parent.breakPool]
    split
    · rfl
    · exact hd

/-- After the loop the parent no longer touches the pool. -/
theorem Parent.Closing.futures (h : p.Closing) (hf : p.Futures)
    (hs : p.advance jobs perShard = some p') : p'.Futures := by
  have hsnapped := h.snapped
  rw [Parent.Snapped] at hsnapped
  cases afterStep_of_advance h.not_inLoop hs with
  | cut hpc => simp [hpc] at hsnapped
  | failed hpc => simp [hpc] at hsnapped
  | _ => exact hf.of_eq rfl rfl rfl fun _ hi => hi

/-- A signal keeps the invariant, if the parent heeds it. -/
theorem Parent.Inv.signal (h : p.Inv ts) {inside : Bool} (hheeds : p.heeds (.signal inside) = true)
    (hs : p.onSignal inside = some p') : p'.Inv ts := by
  rw [Parent.onSignal] at hs
  -- A counted signal changes nothing that the invariant speaks of.
  have hcounted : ∀ n, Parent.Inv ts { p with signals := n } := by
    intro n
    refine ⟨h.1.of_eq rfl rfl rfl fun _ hi => hi, h.2.imp ?_ ?_⟩
    · rintro ⟨hwork, hl⟩
      exact ⟨hwork, ⟨hl.books.ok, hl.books.todo⟩, hl.flight_started, hl.fate, hl.rescuing⟩
    · intro hc
      exact ⟨hc.fate, hc.running_started, hc.broken, hc.stop, hc.snapped⟩
  split at hs
  · obtain rfl := Option.some.inj hs
    exact hcounted 1
  · rename_i hsecond
    split at hs
    · obtain rfl := Option.some.inj hs
      exact hcounted _
    · rename_i hlive
      have hcalm : p.pc = .recheck ∨ p.running = [] := by
        simpa [Parent.heeds, hsecond, hlive] using hheeds
      rcases h.2 with ⟨hwork, -⟩ | hc
      · refine absurd ?_ hlive
        rcases hwork with hloop | hcut
        · cases hpc : p.pc <;> simp_all [Pc.inLoop, Pc.live]
        · rw [hcut]
          rfl
      · have hint : p.interrupted.Inv ts :=
          ⟨h.1.of_eq rfl rfl rfl fun _ hi => hi, .inr (hc.interrupted hcalm)⟩
        rw [Parent.keyboardInterrupt] at hs
        split at hs
        · obtain rfl := Option.some.inj hs
          exact hint
        · obtain rfl := Option.some.inj hs
          exact hint
        · rename_i todo hpc
          have hrun : p.running = [] := by
            rcases hcalm with hre | hrun
            · rw [hpc] at hre
              cases hre
            · exact hrun
          split at hs
          · obtain rfl := Option.some.inj hs
            refine ⟨h.1.of_eq rfl rfl rfl fun _ hi => hi, .inr (hc.snap _ fun i hi => ?_)⟩
            change i ∈ p.running at hi
            rw [hrun] at hi
            exact absurd hi List.not_mem_nil
          · obtain rfl := Option.some.inj hs
            exact hint
        · cases hs

/-- A step that the parent heeds keeps the invariant. -/
theorem Parent.Inv.step (h : p.Inv ts) (hheeds : p.heeds e = true)
    (hs : p.step jobs perShard e = some p') : p'.Inv ts := by
  cases stepped_of_step hs with
  | advanced hadvance =>
    rcases h.2 with ⟨hwork, hl⟩ | hc
    · rcases hwork with hloop | hcut
      · refine (loopStep_of_advance hloop hadvance).inv h.1 hl fun i hpc => ?_
        simpa [Parent.heeds, hpc] using hheeds
      · simp only [Parent.advance, hcut, Option.some.injEq] at hadvance
        subst hadvance
        exact hl.cut h.1 hcut
    · exact ⟨hc.futures h.1 hadvance, .inr (hc.advance hadvance)⟩
  | @woken done hpc hnodup hrunning =>
    rcases h.2 with ⟨-, hl⟩ | hc
    · have hwake : p.LoopStep jobs perShard { p with pc := .collect done false } :=
        .wake hpc hnodup hrunning
      refine hwake.inv h.1 hl fun i hsubmit => ?_
      rw [hpc] at hsubmit
      cases hsubmit
    · have hloop := hc.not_inLoop
      rw [hpc] at hloop
      cases hloop
  | @delivered i hpending hwhole d =>
    refine h.settleFutures hwhole (h.1.deliver hpending hwhole d) ⟨rfl, rfl, rfl, rfl, rfl, rfl⟩ ?_
    intro j d' hd'
    have hji : j ≠ i := by
      rintro rfl
      rw [hpending] at hd'
      cases hd'
    simpa [hji] using hd'
  | broke hwhole =>
    refine h.settleFutures hwhole (h.1.breakPool hwhole) ⟨rfl, rfl, rfl, rfl, rfl, rfl⟩ ?_
    intro j d' hd'
    simp [Parent.breakPool, hd']
  | signalled hsignal => exact h.signal hheeds hsignal
  | rechecked hpc hkind hreason provisioning msg =>
    rcases h.2 with ⟨hwork, -⟩ | hc
    · rw [hpc] at hwork
      rcases hwork with hw | hw <;> cases hw
    · exact ⟨h.1.of_eq rfl rfl rfl fun _ hj => hj,
        .inr (hc.recheck hpc hkind hreason provisioning msg)⟩

end Events

/-! ### The cut, and the stop that is reported -/

/-- The stop of a cut at `q`: a hard stop exactly if a second signal came before it. -/
def Parent.cutStop (q : Parent) : Stop := ⟨if q.hard then .hardStop else .brokenPool, none⟩

/-- The stop that is reported after a cut at `q`: that of the cut, or that of a second signal
after the snapshots. -/
def Parent.StopsFor (p q : Parent) : Prop :=
  p.stop = some q.cutStop ∨ p.stop = some ⟨.hardStop, none⟩ ∧ p.hard = true

/-- The cut was at `q`. -/
structure Parent.CutAt (p q : Parent) : Prop where
  stage : p.sched.stage.stop = some q.cutStop
  reported : p.pc = .recheck ∨ (∃ todo, p.pc = .handler todo) ∨ p.pc = .ended → p.StopsFor q

section Cut

variable {ts : List Target} {p p' q : Parent} {jobs perShard : Int} {e : Event}

/-- The stop is hard from the second signal on. -/
theorem Parent.hard_iff : p.hard = true ↔ 2 ≤ p.signals := decide_eq_true_iff

/-- A step that leaves the stage, and what is reported of it, as they are. -/
theorem Parent.CutAt.of_eq (h : p.CutAt q) (hstage : p'.sched.stage.stop = p.sched.stage.stop)
    (hstop : p'.stop = p.stop) (hsignals : p.signals ≤ p'.signals)
    (hpc : p'.pc = .recheck ∨ (∃ todo, p'.pc = .handler todo) ∨ p'.pc = .ended →
      p.pc = .recheck ∨ (∃ todo, p.pc = .handler todo) ∨ p.pc = .ended) : p'.CutAt q := by
  refine ⟨hstage.trans h.stage, fun hreport => ?_⟩
  rw [Parent.StopsFor, hstop]
  refine (h.reported (hpc hreport)).imp_right fun hlate => ⟨hlate.1, ?_⟩
  rw [Parent.hard_iff] at hlate ⊢
  exact hlate.2.trans hsignals

/-- Writing the interrupted entries does not change where the loop was cut. -/
theorem Parent.CutAt.interrupted (h : p.CutAt q) (hsignals : p.signals ≠ 0) :
    p.interrupted.CutAt q := by
  refine ⟨h.stage, fun _ => .inr ⟨rfl, ?_⟩⟩
  have hcount : p.interrupted.signals = p.signals + 1 := rfl
  rw [Parent.hard_iff, hcount]
  omega

/-- A signal leaves the targets in flight, and what the stage knows. -/
theorem running_of_onSignal {inside : Bool} (hs : p.onSignal inside = some p') :
    p'.running = p.running := by
  rw [Parent.onSignal] at hs
  split at hs
  · obtain rfl := Option.some.inj hs
    rfl
  · split at hs
    · obtain rfl := Option.some.inj hs
      rfl
    · rw [Parent.keyboardInterrupt] at hs
      split at hs
      · obtain rfl := Option.some.inj hs
        rfl
      · obtain rfl := Option.some.inj hs
        rfl
      · split at hs <;>
        · obtain rfl := Option.some.inj hs
          rfl
      · cases hs

/-- A signal after the cut does not change where the loop was cut. -/
theorem Parent.CutAt.signal (h : p.CutAt q) {inside : Bool} (hs : p.onSignal inside = some p') :
    p'.CutAt q := by
  rw [Parent.onSignal] at hs
  split at hs
  · rename_i hnone
    obtain rfl := Option.some.inj hs
    exact h.of_eq rfl rfl (by simp [hnone]) id
  · rename_i hsecond
    split at hs
    · obtain rfl := Option.some.inj hs
      exact h.of_eq rfl rfl (Nat.le_succ _) id
    · rw [Parent.keyboardInterrupt] at hs
      split at hs
      · obtain rfl := Option.some.inj hs
        exact h.interrupted hsecond
      · obtain rfl := Option.some.inj hs
        exact h.interrupted hsecond
      · split at hs
        · obtain rfl := Option.some.inj hs
          refine h.of_eq rfl rfl (Nat.le_succ _) ?_
          rintro (hpc | ⟨todo, hpc⟩ | hpc) <;> cases hpc
        · obtain rfl := Option.some.inj hs
          exact h.interrupted hsecond
      · cases hs

/-- After the loop no target starts or ends running. -/
theorem Parent.Closing.running_eq (hc : p.Closing) (hs : p.step jobs perShard e = some p') :
    p'.running = p.running := by
  cases stepped_of_step hs with
  | advanced hadvance => cases afterStep_of_advance hc.not_inLoop hadvance <;> rfl
  | signalled hsignal => exact running_of_onSignal hsignal
  | _ => rfl

/-- After the loop no step changes where the loop was cut. -/
theorem Parent.Closing.cutAt (hc : p.Closing) (h : p.CutAt q)
    (hs : p.step jobs perShard e = some p') : p'.CutAt q := by
  have hsnapped := hc.snapped
  rw [Parent.Snapped] at hsnapped
  cases stepped_of_step hs with
  | advanced hadvance =>
    cases afterStep_of_advance hc.not_inLoop hadvance with
    | cut hpc => simp [hpc] at hsnapped
    | release hpc => exact h.of_eq rfl rfl le_rfl (by simp)
    | failed hpc => simp [hpc] at hsnapped
    | shutdown hpc => exact h.of_eq rfl rfl le_rfl (by simp)
    | settled hpc => exact ⟨h.stage, fun _ => .inl h.stage⟩
    | snapshot hpc => exact h.of_eq rfl rfl le_rfl (by simp)
    | rechecked hpc => exact h.of_eq rfl rfl le_rfl fun _ => .inl hpc
    | handled hpc => exact h.of_eq rfl rfl le_rfl fun _ => .inr (.inl ⟨_, hpc⟩)
    | handle hpc => exact h.of_eq rfl rfl le_rfl fun _ => .inr (.inl ⟨_, hpc⟩)
  | woken hpc _ _ =>
    have hloop := hc.not_inLoop
    rw [hpc] at hloop
    cases hloop
  | delivered _ _ d => exact h.of_eq rfl rfl le_rfl id
  | broke _ => exact h.of_eq rfl rfl le_rfl id
  | signalled hsignal => exact h.signal hsignal
  | rechecked _ _ _ _ _ => exact h.of_eq rfl rfl le_rfl id

/-- The step that leaves the work behind with targets cut off is the cut. -/
theorem Parent.cut_of_leaves (hwork : p.pc.atWork) (hheeds : p.heeds e = true)
    (hs : p.step jobs perShard e = some p') (hrun : p'.running ≠ []) (hleft : ¬ p'.pc.atWork) :
    p.pc = .cut ∧ p'.CutAt p := by
  have hlive : p.pc.live = true := by
    rcases hwork with hloop | hcut
    · cases hpc : p.pc <;> simp_all [Pc.inLoop, Pc.live]
    · rw [hcut]
      rfl
  cases stepped_of_step hs with
  | advanced hadvance =>
    rcases hwork with hloop | hcut
    · cases loopStep_of_advance hloop hadvance with
      | leave _ _ hnone => exact absurd hnone hrun
      | raised hpc hbroken => simp [Parent.heeds, hpc, hbroken] at hheeds
      | cutOff _ => exact absurd (.inr rfl) hleft
      | @again broken _ =>
        refine absurd (.inl ?_) hleft
        cases broken <;> rfl
      | _ => exact absurd (.inl rfl) hleft
    · simp only [Parent.advance, hcut, Option.some.injEq] at hadvance
      subst hadvance
      refine ⟨hcut, ?_, ?_⟩
      · simp only [Parent.cutRunning, Sched.halt, Sched.stopAfter]
        cases p.sched.stage.stop <;> rfl
      · rintro (hpc | ⟨todo, hpc⟩ | hpc) <;> cases hpc
  | woken _ _ _ => exact absurd (.inl rfl) hleft
  | delivered _ _ d => exact absurd hwork hleft
  | broke _ => exact absurd hwork hleft
  | signalled hsignal =>
    refine absurd hwork ?_
    rw [Parent.onSignal] at hsignal
    split at hsignal
    · obtain rfl := Option.some.inj hsignal
      exact hleft
    · obtain rfl := Option.some.inj hsignal
      exact hleft
  | rechecked hpc _ _ _ _ =>
    rw [hpc] at hlive
    cases hlive

/-- A run that has cut off targets was at the cut before. -/
theorem exists_cut {s₀ : Parent}
    (h : Trace (fun p => Parent.step p jobs perShard) (fun p e => p.heeds e = true) s₀ p)
    (hstart : s₀.Inv ts) (hwork : s₀.pc.atWork) (hrun : p.running ≠ []) (hleft : ¬ p.pc.atWork) :
    ∃ q, Trace (fun p => Parent.step p jobs perShard) (fun p e => p.heeds e = true) s₀ q ∧
      q.pc = .cut ∧
      Trace (fun p => Parent.step p jobs perShard) (fun p e => p.heeds e = true) q p ∧
      p.CutAt q := by
  induction h with
  | start => exact absurd hwork hleft
  | @event p p' e hbefore hheeds hs ih =>
    have hinv : p.Inv ts := hbefore.invariant hstart fun p e p' hp hheeds hs => hp.step hheeds hs
    by_cases hat : p.pc.atWork
    · obtain ⟨hcut, hat'⟩ := Parent.cut_of_leaves hat hheeds hs hrun hleft
      exact ⟨p, hbefore, hcut, .event e .start hheeds hs, hat'⟩
    · have hc : p.Closing := hinv.2.resolve_left fun hl => hat hl.1
      rw [hc.running_eq hs] at hrun
      obtain ⟨q, hq, hcut, hrest, hat'⟩ := ih hrun hat
      exact ⟨q, hq, hcut, .event e hrest hheeds hs, hc.cutAt hat' hs⟩

end Cut

/-! ### The report -/

/-- What the report says of a run in which workers died: it was a hard stop or a broken pool, each
`Result` that was delivered is there, and each started target without a delivery is interrupted,
with a snapshot asked for. -/
structure Parent.Tells (p : Parent) : Prop where
  stop : ∃ st, p.stop = some st ∧ st.Hard
  delivered : ∀ i ∈ p.started, ∀ res, p.future i = some (.delivered (.result res)) →
    (p.sched.entry i).Reports (.result res)
  interrupted : ∀ i ∈ p.started, Future.isDelivered (p.future i) = false →
    (p.sched.entry i).kind = .interrupted ∧ (p.sched.entry i).snapshot = true

/-- A run in which workers died with targets in flight is reported as such, when it keeps clear of
the two places: it came to a cut, and its stop is a hard stop if a second signal came before
that, or after the snapshots, and a broken pool else. -/
theorem cut_off_reported (ts : List Target) (keepGoing : Bool) (maxFailures jobs perShard : Int)
    {p : Parent} (h : Trace (fun p => Parent.step p jobs perShard) (fun p e => p.heeds e = true)
      (.start ts.length (.of ts keepGoing maxFailures)) p)
    (hended : p.pc = .ended) (hcut : p.cutOff = true) :
    p.Tells ∧ ∃ q, Trace (fun p => Parent.step p jobs perShard) (fun p e => p.heeds e = true)
        (.start ts.length (.of ts keepGoing maxFailures)) q ∧ q.pc = .cut ∧
      Trace (fun p => Parent.step p jobs perShard) (fun p e => p.heeds e = true) q p ∧
      p.StopsFor q := by
  have hstart : Parent.Inv ts (.start ts.length (.of ts keepGoing maxFailures)) := by
    refine ⟨⟨fun _ _ => rfl, nofun, fun _ _ => nofun, nofun⟩, .inl ⟨.inl rfl, ?_, nofun, nofun, trivial⟩⟩
    exact ⟨Sched.ok_of ts keepGoing maxFailures, trivial⟩
  have hinv : p.Inv ts := h.invariant hstart fun p e p' hp hheeds hs => hp.step hheeds hs
  have hc : p.Closing := by
    rcases hinv.2 with ⟨hwork, -⟩ | hc
    · rw [hended] at hwork
      rcases hwork with hw | hw <;> cases hw
    · exact hc
  have hsnapped := hc.snapped
  rw [Parent.Snapped, hended] at hsnapped
  have hcutoff : ∀ i ∈ p.started, Future.isDelivered (p.future i) = false →
      i ∈ p.running ∧ (p.sched.entry i).kind = .interrupted := by
    intro i hi hd
    rcases hc.fate i hi with hcut | ⟨d, hd', -⟩
    · exact ⟨hcut.1, hcut.2.1⟩
    · rw [hd'] at hd
      cases hd
  have hrun : p.running ≠ [] := by
    obtain ⟨-, i, hi, hd⟩ := hinv.1.cutOff hcut
    exact List.ne_nil_of_mem (hcutoff i hi hd).1
  have hleft : ¬ p.pc.atWork := by simp [hended, Pc.atWork, Pc.inLoop]
  obtain ⟨q, hq, hat, hrest, hstop⟩ := exists_cut h hstart (.inl rfl) hrun hleft
  refine ⟨?_, q, hq, hat, hrest, hstop.reported (.inr (.inr hended))⟩
  refine ⟨hsnapped.2 hrun, fun i hi res hres => ?_, fun i hi hd => ?_⟩
  · rcases hc.fate i hi with hcut | ⟨d, hd, hrep⟩
    · exact absurd hres (hcut.2.2 res)
    · rw [hd] at hres
      cases hres
      exact hrep
  · obtain ⟨hrun, hk⟩ := hcutoff i hi hd
    exact ⟨hk, hsnapped.1 i hrun⟩

/-- Both targets are in flight when a worker dies; the parent is waiting. -/
def brokenRun : List Event :=
  List.replicate 6 .advance ++ [.breaks, .waitReturns [0]] ++ List.replicate 12 .advance

/-- In a run of two workers whose pool breaks while both wait, both targets are reported as cut off.
-/
theorem cut_off_reported_waiting :
    ∃ p, runEvents (fun p => Parent.step p 2 1) (.start 2 (.of twoTargets false 3)) brokenRun =
      some p ∧ p.pc = .ended ∧ p.cutOff = true ∧ p.started = [0, 1] ∧ p.Tells := by
  obtain ⟨p, hp⟩ : ∃ p, runEvents (fun p => Parent.step p 2 1)
      (.start 2 (.of twoTargets false 3)) brokenRun = some p := ⟨_, rfl⟩
  have hend : (runEvents (fun p => Parent.step p 2 1) (.start 2 (.of twoTargets false 3))
      brokenRun).map (fun p => (p.pc, p.cutOff, p.started)) = some (.ended, true, [0, 1]) := rfl
  rw [hp, Option.map_some, Option.some.injEq, Prod.mk.injEq, Prod.mk.injEq] at hend
  have hallowed : Allowed (fun p => Parent.step p 2 1) (fun p e => p.heeds e = true)
      (.start 2 (.of twoTargets false 3)) brokenRun := by
    decide +kernel
  refine ⟨p, hp, hend.1, hend.2.1, hend.2.2, ?_⟩
  exact (cut_off_reported twoTargets false 3 2 1 (Trace.of_runEvents .start hallowed hp) hend.1
    hend.2.1).1

/-- A worker dies while the second target is about to be submitted: `submit` raises, both targets
are reported as failed without a snapshot, and no stop is reported at all. -/
theorem submit_on_broken_pool :
    ∃ p, runEvents (fun p => Parent.step p 2 1) (.start 2 (.of twoTargets false 3))
        (List.replicate 4 .advance ++ [.breaks] ++ List.replicate 3 .advance) = some p ∧
      p.pc = .ended ∧ p.cutOff = true ∧ p.started = [0, 1] ∧ p.stop = none ∧
      (p.sched.entry 0).kind = .of .failed ∧ (p.sched.entry 0).snapshot = false ∧ ¬ p.Tells := by
  refine ⟨_, rfl, rfl, rfl, rfl, rfl, rfl, rfl, fun h => ?_⟩
  obtain ⟨st, hst, -⟩ := h.stop
  cases hst

end MtShards.Scheduler
