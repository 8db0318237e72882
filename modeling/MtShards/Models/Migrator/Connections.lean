import MtShards.Models.Migrator.Conformance
import MtShards.Models.Migrator.Inventory

/-!
# The connection wrappers of one process

What a migrator leaves behind in its own process is the state of `connections[alias]`: an
open session, armed with the migrator's settings or not, with a statement running on it or
not, and the schema that the wrapper points at. A statement may change the wrapper it runs on
in any way that its kind allows; `_close_shard` closes it and points it back at `public`,
unless an interrupt hits the session reset before it.

`Steady` is the rule for the work between the acquisition of a lease and the clean-up: a
statement is left running only when a `BaseException` is on its way out.
-/

namespace MtShards.Migrator

open MtShards.Core Program

/-- The state of `connections[alias]`. -/
structure Wrapper where
  /-- `c.connection` is not None. -/
  opened : Bool
  /-- The session has the migrator's `lock_timeout` and `application_name`. -/
  armed : Bool
  /-- The transaction status of the session is ACTIVE. -/
  active : Bool
  /-- The schema of the wrapper is `public`. -/
  onPublic : Bool
  deriving DecidableEq, Repr

namespace Wrapper

/-- A statement is running on the connection. -/
def busy (x : Wrapper) : Bool := x.opened && x.active

/-- Nothing for a later user of the alias to inherit. -/
def Clean (x : Wrapper) : Prop := x.armed = false ∧ x.onPublic = true

/-- After `close()` and `set_schema_to_public()`. -/
def shut : Wrapper := ⟨false, false, false, true⟩

/-- A connection that is shut is clean. -/
theorem shut_clean : shut.Clean := ⟨rfl, rfl⟩

end Wrapper

/-- The wrappers of a process. -/
abbrev Wrappers := Alias → Wrapper

/-- The alias whose wrapper a request uses. -/
def Req.home : Req → Alias
  | .shard a _ | .shardIdle a | .closeShard a => a
  | _ => "default"

/-- `_open_shard` arms the session. -/
def Req.arms : Req → Bool
  | .shard _ (.openShard _) => true
  | _ => false

/-- The requests that point the wrapper at a tenant schema. -/
def Req.pointsAway : Req → Bool
  | .shard _ (.migrationPlan _) | .shard _ (.runMigrations _ _) => true
  | _ => false

/-- What a statement may make of the wrapper it runs on, by its kind and its outcome. -/
structure Changed (op : Req) (r : Except Exn op.Ans) (x y : Wrapper) : Prop where
  armed : y.armed = true → x.armed = true ∨ op.arms = true
  onPublic : y.onPublic = false → x.onPublic = false ∨ op.pointsAway = true
  /-- Only a `BaseException` leaves a statement running. -/
  busy : y.busy = true → ∃ e, r = .error e ∧ e.base = true

/-- What a request does to the wrappers, in a run whose tenant is on the alias whenever its
row is read. Exceptions are caught inside `_shard_idle` and `_reset_session`; an interrupt of
the latter comes before `close()`, and only a session that is not running a statement is
reset. -/
def wrapperSem (a : Alias) : Semantics Req Req.Ans Exn Wrappers
  | .shardIdle b, w, .ok idle, w' => w' = w ∧ idle = !(w b).busy
  | .shardIdle _, w, .error e, w' => w' = w ∧ e.base = true
  | .closeShard b, w, .ok _, w' => w' = Function.update w b .shut
  | .closeShard b, w, .error e, w' => e.base = true ∧ (w b).opened = true ∧ (w b).busy = false ∧
      ∃ y : Wrapper, w' = Function.update w b y ∧ (y.armed = true → (w b).armed = true) ∧
        y.onPublic = (w b).onPublic
  | .load pk, w, r, w' => (∀ t, r = .ok (some t) → t.shard.dbAlias = a) ∧
      ∃ y, w' = Function.update w "default" y ∧ Changed (.load pk) r (w "default") y
  | op, w, r, w' => ∃ y, w' = Function.update w op.home y ∧ Changed op r (w op.home) y

/-! ### Work between the lease and the clean-up -/

variable {α β : Type} {a : Alias} {w w' w'' w₀ : Wrappers}

/-- The log of a run over wrappers, newest request first. -/
abbrev WrapperLog := List (Taken Req Req.Ans Exn Wrappers)

variable {l l' l'' : WrapperLog}

/-- The requests of a run on the alias, the idle test and the release of the lease apart. -/
def Req.worksAt (a : Alias) : Req → Prop
  | .shardIdle _ | .leaseRelease _ => False
  | .shard b _ | .closeShard b => b = a
  | _ => True

/-- Work has been added to a log. -/
def WorkAdded (a : Alias) (l l' : WrapperLog) : Prop :=
  ∃ mid, l' = mid ++ l ∧ ∀ x ∈ mid, x.op.worksAt a

/-- No work was added. -/
theorem WorkAdded.refl (a : Alias) (l : WrapperLog) : WorkAdded a l l := by
  refine ⟨[], rfl, ?_⟩
  intro x hx
  cases hx

/-- Work that was added twice was added. -/
theorem WorkAdded.trans (h : WorkAdded a l l') (h' : WorkAdded a l' l'') : WorkAdded a l l'' := by
  obtain ⟨mid, rfl, hmid⟩ := h
  obtain ⟨mid', rfl, hmid'⟩ := h'
  refine ⟨mid' ++ mid, (List.append_assoc ..).symm, ?_⟩
  intro x hx
  rcases List.mem_append.mp hx with hx | hx
  · exact hmid' x hx
  · exact hmid x hx

/-- A request that is work adds work. -/
theorem WorkAdded.cons (h : WorkAdded a l l') {x : Taken Req Req.Ans Exn Wrappers}
    (hx : x.op.worksAt a) : WorkAdded a l (x :: l') := by
  obtain ⟨mid, rfl, hmid⟩ := h
  refine ⟨x :: mid, rfl, ?_⟩
  intro y hy
  rcases List.mem_cons.mp hy with rfl | hy
  · exact hx
  · exact hmid y hy

/-- The other wrappers are as clean as they were. -/
def OthersClean (a : Alias) (w w' : Wrappers) : Prop := ∀ b, b ≠ a → (w b).Clean → (w' b).Clean

/-- The other connections are as clean as they were. -/
theorem OthersClean.refl (a : Alias) (w : Wrappers) : OthersClean a w w := fun _ _ h => h

/-- What leaves the other connections clean twice leaves them clean. -/
theorem OthersClean.trans (h : OthersClean a w w') (h' : OthersClean a w' w'') :
    OthersClean a w w'' := fun b hb hw => h' b hb (h b hb hw)

/-- A change of one connection leaves the others clean. -/
theorem OthersClean.update (w : Wrappers) (y : Wrapper) :
    OthersClean a w (Function.update w a y) := by
  intro b hb hw
  rwa [Function.update_of_ne hb]

/-- A statement that neither arms nor points away keeps a clean wrapper clean. -/
theorem Changed.clean {op : Req} {r : Except Exn op.Ans} {x y : Wrapper} (h : Changed op r x y)
    (harms : op.arms = false) (haway : op.pointsAway = false) (hx : x.Clean) : y.Clean := by
  constructor
  · by_contra hy
    rcases h.armed (eq_true_of_ne_false hy) with hx' | hop
    · rw [hx.1] at hx'
      cases hx'
    · rw [harms] at hop
      cases hop
  · by_contra hy
    rcases h.onPublic (eq_false_of_ne_true hy) with hx' | hop
    · rw [hx.2] at hx'
      cases hx'
    · rw [haway] at hop
      cases hop

/-- What a step leaves, whatever the wrapper of the alias was like. -/
structure StepLeaves (a : Alias) (w : Wrappers) (w' : Wrappers) (r : Except Exn α) : Prop where
  others : OthersClean a w w'
  busy : (w' a).busy = true → (w a).busy = true ∨ ∃ e, r = .error e ∧ e.base = true

/-- A request on `default` that neither arms nor points away leaves a step as it should be. -/
theorem stepLeaves_of_default {op : Req} {r : Except Exn op.Ans} (harms : op.arms = false)
    (haway : op.pointsAway = false) {y : Wrapper} (hw : w' = Function.update w "default" y)
    (hy : Changed op r (w "default") y) : StepLeaves a w w' r := by
  subst hw
  constructor
  · intro b hb hclean
    by_cases hdefault : b = "default"
    · subst hdefault
      rw [Function.update_self]
      exact hy.clean harms haway hclean
    · rwa [Function.update_of_ne hdefault]
  · intro hbusy
    by_cases hdefault : a = "default"
    · subst hdefault
      rw [Function.update_self] at hbusy
      exact .inr (hy.busy hbusy)
    · rw [Function.update_of_ne hdefault] at hbusy
      exact .inl hbusy

/-- Work on the alias leaves the other wrappers clean, and a statement running only behind a
`BaseException`. -/
theorem stepLeaves_of_work (op : Req) {r : Except Exn op.Ans} (hop : op.worksAt a)
    (h : wrapperSem a op w r w') : StepLeaves a w w' r := by
  cases op with
  | shard b q =>
    obtain rfl : b = a := hop
    obtain ⟨y, rfl, hy⟩ := h
    refine ⟨OthersClean.update w y, fun hbusy => .inr (hy.busy ?_)⟩
    rwa [show Function.update w (Req.shard b q).home y b = y from Function.update_self ..] at hbusy
  | closeShard b =>
    obtain rfl : b = a := hop
    cases r with
    | ok u =>
      obtain rfl := h
      refine ⟨OthersClean.update w .shut, fun hbusy => ?_⟩
      rw [Function.update_self] at hbusy
      cases hbusy
    | error e =>
      obtain ⟨hbase, _, _, y, rfl, _⟩ := h
      exact ⟨OthersClean.update w y, fun _ => .inr ⟨e, rfl, hbase⟩⟩
  | shardIdle b => exact hop.elim
  | leaseRelease k => exact hop.elim
  | load pk =>
    obtain ⟨_, y, hw, hy⟩ := h
    exact stepLeaves_of_default rfl rfl hw hy
  | _ =>
    obtain ⟨y, hw, hy⟩ := h
    exact stepLeaves_of_default rfl rfl hw hy

/-! ### Steady programs -/

/-- What steady work leaves: a log of work, the other wrappers clean, a statement running only
behind a `BaseException`, and a value as said. -/
structure Steadily (a : Alias) (V : α → Prop) (l : WrapperLog) (w : Wrappers) (l' : WrapperLog)
    (w' : Wrappers) (r : Except Exn α) : Prop where
  log : WorkAdded a l l'
  others : OthersClean a w w'
  busy : (w' a).busy = true → ∃ e, r = .error e ∧ e.base = true
  value : onOutcome V (fun _ => True) r

/-- From any state without a running statement, the program works steadily. -/
def Steady (a : Alias) (V : α → Prop) (x : Prog α) : Prop :=
  ∀ l w, (w a).busy = false → x.Ensures (wrapperSem a) (fun _ _ => True) l w (Steadily a V l w)

variable {V : α → Prop} {U : β → Prop}

/-- Returning a value is steady. -/
theorem steady_pure {v : α} (hv : V v) : Steady a V (Pure.pure v : Prog α) := by
  intro l w hw
  refine ⟨.refl a l, .refl a w, fun hbusy => ?_, hv⟩
  rw [hw] at hbusy
  cases hbusy

/-- Raising is steady. -/
theorem steady_raise {e : Exn} : Steady a V (raise e : Prog α) := by
  intro l w hw
  refine ⟨.refl a l, .refl a w, fun hbusy => ?_, trivial⟩
  rw [hw] at hbusy
  cases hbusy

/-- One request of work, from any state. -/
theorem work_call {op : Req} (hop : op.worksAt a) (l : WrapperLog) (w : Wrappers) :
    (call op).Ensures (wrapperSem a) (fun _ _ => True) l w fun l' w' r =>
      WorkAdded a l l' ∧ StepLeaves a w w' r := by
  refine ensures_request.mpr fun r w' hsem => ⟨trivial, ?_, stepLeaves_of_work op hop hsem⟩
  exact (WorkAdded.refl a l).cons hop

/-- A single request that is work is steady. -/
theorem steady_call {op : Req} (hop : op.worksAt a) : Steady a (fun _ => True) (call op) := by
  intro l w hw
  refine (work_call hop l w).mono fun l' w' r h => ⟨h.1, h.2.others, fun hbusy => ?_, ?_⟩
  · refine (h.2.busy hbusy).resolve_left fun hbefore => ?_
    rw [hw] at hbefore
    cases hbefore
  · cases r <;> trivial

/-- `_close_shard` is steady even where a statement is running. -/
theorem closeShard_steadily (l : WrapperLog) (w : Wrappers) :
    (closeShard a).Ensures (wrapperSem a) (fun _ _ => True) l w
      (Steadily a (fun _ => True) l w) := by
  refine ensures_request.mpr fun r w' hsem => ⟨trivial, (WorkAdded.refl a l).cons rfl, ?_, ?_, ?_⟩
  · exact (stepLeaves_of_work (.closeShard a) rfl hsem).others
  · cases r with
    | ok u =>
      obtain rfl := hsem
      intro hbusy
      rw [Function.update_self] at hbusy
      cases hbusy
    | error e => exact fun _ => ⟨e, rfl, hsem.1⟩
  · cases r <;> trivial

/-- After steady work that returned no statement is running. -/
theorem Steadily.not_busy {v : α} (h : Steadily a V l w l' w' (.ok v)) : (w' a).busy = false := by
  cases hb : (w' a).busy with
  | false => rfl
  | true =>
    obtain ⟨e, he, _⟩ := h.busy hb
    cases he

/-- After steady work that raised an `Exception` no statement is running. -/
theorem Steadily.not_busy_of_exception {e : Exn} (h : Steadily a V l w l' w' (.error e))
    (he : e.base = false) : (w' a).busy = false := by
  cases hb : (w' a).busy with
  | false => rfl
  | true =>
    obtain ⟨e', he', hbase⟩ := h.busy hb
    cases he'
    rw [he] at hbase
    cases hbase

/-- Steady work followed by more of it. -/
theorem Steadily.andThen {r : Except Exn α} {r' : Except Exn β} (h : Steadily a V l w l' w' r)
    (h' : Steadily a U l' w' l'' w'' r') : Steadily a U l w l'' w'' r' :=
  ⟨h.log.trans h'.log, h.others.trans h'.others, h'.busy, h'.value⟩

/-- After steady work that raised the condition on the value does not matter. -/
theorem Steadily.ofError {e : Exn} (h : Steadily a V l w l' w' (.error e)) :
    Steadily a U l w l' w' (.error e) := by
  refine ⟨h.log, h.others, fun hbusy => ?_, trivial⟩
  obtain ⟨e', he', hbase⟩ := h.busy hbusy
  cases he'
  exact ⟨e, rfl, hbase⟩

/-- A sequence of steady work is steady. -/
theorem Steady.bind {x : Prog α} {f : α → Prog β} (hx : Steady a V x)
    (hf : ∀ v, V v → Steady a U (f v)) : Steady a U (x >>= f) := by
  intro l w hw
  refine ensures_bind.mpr ((hx l w hw).mono fun l' w' r h => ?_)
  cases r with
  | error e => exact h.ofError
  | ok v => exact ((hf v h.value) l' w' h.not_busy).mono fun l'' w'' r' h' => h.andThen h'

/-- A guarded program of steady parts is steady. -/
theorem steady_guarded {x : Prog α} {k : α → Prog β} {onError : Exn → Prog β} (hx : Steady a V x)
    (hk : ∀ v, V v → Steady a U (k v)) (he : ∀ e, Steady a U (onError e)) :
    Steady a U (guarded onError x k) := by
  intro l w hw
  refine ensures_bind.mpr (ensures_attempt.mpr ((hx l w hw).mono fun l' w' r h => ?_))
  cases r with
  | ok v => exact ((hk v h.value) l' w' h.not_busy).mono fun l'' w'' r' h' => h.andThen h'
  | error e =>
    simp only [onOutcome_ok]
    split
    · exact h.ofError
    · rename_i hbase
      have hquiet := h.not_busy_of_exception (eq_false_of_ne_true hbase)
      exact ((he e) l' w' hquiet).mono fun l'' w'' r' h' => h.andThen h'

/-- The condition on the value can be loosened. -/
theorem Steady.mono {V' : α → Prop} {x : Prog α} (hx : Steady a V x) (hV : ∀ v, V v → V' v) :
    Steady a V' x := by
  intro l w hw
  refine (hx l w hw).mono fun l' w' r h => ⟨h.log, h.others, h.busy, ?_⟩
  cases r with
  | ok v => exact hV v h.value
  | error e => trivial

/-- `try: x finally: _close_shard`, where the body may leave a statement running. -/
theorem steady_closing {x : Prog α} (hx : Steady a V x) : Steady a V (tryFinally x (closeShard a)) := by
  intro l w hw
  refine ensures_tryFinally.mpr ((hx l w hw).mono fun l' w' r h => ?_)
  refine (closeShard_steadily l' w').mono fun l'' w'' u hu => ?_
  cases u with
  | error e => exact h.andThen hu.ofError
  | ok _ =>
    refine ⟨h.log.trans hu.log, h.others.trans hu.others, fun hbusy => ?_, h.value⟩
    rw [hu.not_busy] at hbusy
    cases hbusy

end MtShards.Migrator
