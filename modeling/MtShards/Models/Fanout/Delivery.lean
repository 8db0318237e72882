import MtShards.Models.Fanout.Calendar

/-!
# What a wave sends and stamps

The batches that `fanout_dispatch` hands over, the calls of `send_task` that `sub_dispatch` makes
for each of them and how each of these ends, and the watermarks it stamps afterwards.
Dictionaries are mutable and shared with the caller, so the loop of `sub_dispatch` runs over a
store that keeps them under the number they were created with.
-/

namespace MtShards.Fanout

variable {e : BeatEntry} {broker : Message → SendOutcome} {schemas : List SchemaName}
  {s : SchemaName}

/-! ### Headers and options -/

namespace Dict

variable {d : Dict} {k k' : PyKey} {v : PyVal}

/-- A key is looked up from the first member on. -/
theorem get?_cons (kv : PyKey × PyVal) (d : Dict) (k : PyKey) :
    Dict.get? (kv :: d) k = if kv.1 = k then some kv.2 else d.get? k := by
  rw [Dict.get?, List.find?_cons]
  by_cases h : kv.1 = k
  · simp [h]
  · simp [h, Dict.get?]

private theorem get?_set_self (d : Dict) (k : PyKey) (v : PyVal) : (d.set k v).get? k = some v := by
  induction d with
  | nil => rw [Dict.set, get?_cons, if_pos rfl]
  | cons kv d ih =>
    rw [Dict.set]
    split
    · rw [get?_cons, if_pos rfl]
    · rename_i hne
      rw [get?_cons, if_neg hne, ih]

private theorem get?_set_of_ne (d : Dict) (v : PyVal) (h : k' ≠ k) : (d.set k v).get? k' = d.get? k' := by
  induction d with
  | nil =>
    rw [Dict.set, get?_cons, if_neg (Ne.symm h)]
  | cons kv d ih =>
    rw [Dict.set]
    split
    · rename_i heq
      rw [get?_cons, get?_cons, if_neg (Ne.symm h), if_neg (heq ▸ Ne.symm h)]
    · rw [get?_cons, get?_cons, ih]

private theorem get?_erase_self (d : Dict) (k : PyKey) : (d.erase k).get? k = none := by
  rw [Dict.get?, Option.map_eq_none_iff, List.find?_eq_none]
  intro kv hkv
  simpa [Dict.erase] using (List.mem_filter.mp hkv).2

private theorem get?_erase_of_ne (d : Dict) (h : k' ≠ k) : (d.erase k).get? k' = d.get? k' := by
  induction d with
  | nil => rfl
  | cons kv d ih =>
    rw [Dict.erase, List.filter_cons]
    split
    · rw [get?_cons, get?_cons, ← ih]
      rfl
    · rename_i hkv
      have hkey : kv.1 = k := by simpa using hkv
      rw [get?_cons, if_neg (hkey ▸ Ne.symm h), ← ih]
      rfl

end Dict

/-- A message for a schema: the schema is stamped on it, and everything else the caller gave is
as the caller gave it. -/
structure Message.CarriesFor (m : Message) (e : BeatEntry) (s : SchemaName) : Prop where
  task : m.task = e.taskName
  args : m.args = e.taskArgs.getD []
  kwargs : m.kwargs = e.taskKwargs.getD []
  schema : m.headers.get? (.str "_schema_name") = some (.str s)
  headers : ∃ given, callerHeaders (e.taskOptions.getD []) = some given ∧
    ∀ k, k ≠ .str "_schema_name" → m.headers.get? k = given.get? k
  options : ∀ k, k ≠ .str "headers" → m.options.get? k = (e.taskOptions.getD []).get? k
  no_headers : m.options.get? (.str "headers") = none

private theorem message_carries {e : BeatEntry} {m : Message} (h : e.message s = some m) :
    m.CarriesFor e s := by
  rw [BeatEntry.message] at h
  split at h
  · cases h
  · obtain ⟨given, hgiven, rfl⟩ := Option.map_eq_some_iff.mp h
    exact ⟨rfl, rfl, rfl, Dict.get?_set_self given _ _,
      ⟨given, hgiven, fun k hk => Dict.get?_set_of_ne given _ hk⟩,
      fun k hk => Dict.get?_erase_of_ne _ hk, Dict.get?_erase_self _ _⟩

/-- `send_task` takes the options of an entry: each of them has a place among its
parameters, and the headers can be unpacked. -/
def BeatEntry.Sendable (e : BeatEntry) : Prop :=
  (∀ kv ∈ (e.taskOptions.getD []).erase (.str "headers"),
      ∃ k, kv.1 = .str k ∧ k ∉ sendTaskReserved) ∧
    ∃ given, callerHeaders (e.taskOptions.getD []) = some given

/-- A key is accepted exactly if it is a text that `send_task` does not take itself. -/
theorem refused_eq_false_iff {k : PyKey} :
    k.refused = false ↔ ∃ name, k = .str name ∧ name ∉ sendTaskReserved := by
  cases k with
  | str name =>
    have hmem : (∀ x ∈ sendTaskReserved, ¬ name = x) ↔ name ∉ sendTaskReserved :=
      ⟨fun h hname => h name hname rfl, fun h x hx heq => h (heq ▸ hx)⟩
    simpa [PyKey.refused] using hmem
  | int i => simp [PyKey.refused]

private theorem message_isSome : (e.message s).isSome ↔ e.Sendable := by
  rw [BeatEntry.message, BeatEntry.Sendable]
  split
  · rename_i hrefused
    obtain ⟨kv, hkv, hkey⟩ := List.any_eq_true.mp hrefused
    refine ⟨fun h => ?_, fun h => ?_⟩
    · cases h
    · rw [refused_eq_false_iff.mpr (h.1 kv hkv)] at hkey
      cases hkey
  · rename_i hnone
    rw [Option.isSome_map, Option.isSome_iff_exists]
    refine ⟨fun h => ⟨fun kv hkv => ?_, h⟩, fun h => h.2⟩
    rw [← refused_eq_false_iff, ← Bool.not_eq_true]
    exact fun hkey => hnone (List.any_eq_true.mpr ⟨kv, hkv, hkey⟩)

/-! ### The dictionaries of the caller -/

/-- A call of `send_task`: the schema it is for, what it is called with (`none` when that cannot
be put together), and how it ends. -/
structure Attempt where
  schema : SchemaName
  message : Option Message
  outcome : SendOutcome

/-- How a call ends: what the broker makes of the message, and a `TypeError` without one. -/
def outcomeOf (broker : Message → SendOutcome) : Option Message → SendOutcome
  | some m => broker m
  | none => .raised

/-- The dictionaries there are, under the numbers they were created with. -/
abbrev Store := List Dict

namespace Store

variable {st : Store} {o : Option Nat} {given : Option Dict} {r : Nat}

/-- The dictionary that a reference points at; `None` and a falsy one count as `{}`. -/
def optionsAt (st : Store) (o : Option Nat) : Dict := (o.bind fun r => st[r]?).getD []

/-- `options = dict(task_options or {})`, then `options.pop("headers", None)`. -/
def prepare (st : Store) (o : Option Nat) : Store :=
  (st ++ [st.optionsAt o]).set st.length ((st.optionsAt o).erase (.str "headers"))

/-- `{**caller_headers, "_schema_name": schema}`, if the headers can be unpacked. -/
def stampHeaders (given : Option Dict) (st : Store) (schema : SchemaName) : Store :=
  match given with
  | some d => st ++ [d.set (.str "_schema_name") (.str schema)]
  | none => st

/-- What `send_task` is called with, out of the headers and the options at their numbers. -/
def call (st : Store) (e : BeatEntry) (headers : Option Nat) (options : Nat) : Option Message :=
  if (st[options]?.getD []).any fun kv => kv.1.refused then none
  else headers.map fun h =>
    ⟨e.taskName, e.taskArgs.getD [], e.taskKwargs.getD [], st[h]?.getD [], st[options]?.getD []⟩

/-- The loop of `sub_dispatch`: the dictionaries it leaves, and its calls of `send_task`. -/
def sendEach (e : BeatEntry) (broker : Message → SendOutcome) (given : Option Dict)
    (options : Nat) : Store → List SchemaName → Store × List Attempt
  | st, [] => (st, [])
  | st, s :: rest =>
    let made := st.stampHeaders given s
    let m := made.call e (given.map fun _ => st.length) options
    let others := match outcomeOf broker m with
      | .sent | .operationalError => sendEach e broker given options made rest
      | .raised => (made, [])
    (others.1, ⟨s, m, outcomeOf broker m⟩ :: others.2)

/-- `sub_dispatch` to the end of its loop, with the `task_options` at `o`. -/
def dispatch (st : Store) (e : BeatEntry) (broker : Message → SendOutcome) (o : Option Nat)
    (schemas : List SchemaName) : Store × List Attempt :=
  (st.prepare o).sendEach e broker (callerHeaders (st.optionsAt o)) st.length schemas

/-- Preparing the options makes a copy of them without the headers. -/
theorem prepare_eq (st : Store) (o : Option Nat) :
    st.prepare o = st ++ [(st.optionsAt o).erase (.str "headers")] := by
  rw [prepare, List.set_append_right _ _ le_rfl, Nat.sub_self]
  rfl

/-- Stamping headers changes no dict that was there. -/
theorem stampHeaders_keeps (given : Option Dict) (st : Store) (s : SchemaName) :
    st <+: st.stampHeaders given s := by
  cases given with
  | none => exact List.prefix_rfl
  | some d => exact List.prefix_append _ _

/-- A dict that was there is found unchanged after headers were stamped. -/
theorem stampHeaders_getElem? {d : Dict} (h : st[r]? = some d) (given : Option Dict)
    (s : SchemaName) : (st.stampHeaders given s)[r]? = some d := by
  obtain ⟨made, hmade⟩ := stampHeaders_keeps given st s
  rw [← hmade, List.getElem?_append_left (List.getElem?_eq_some_iff.mp h).1, h]

/-- What was there before the loop is there afterwards, unchanged. -/
theorem sendEach_keeps (st : Store) (schemas : List SchemaName) :
    st <+: (st.sendEach e broker given r schemas).1 := by
  induction schemas generalizing st with
  | nil => exact List.prefix_rfl
  | cons s rest ih =>
    have hmade := stampHeaders_keeps given st s
    rw [sendEach]
    dsimp only
    split
    · exact hmade.trans (ih _)
    · exact hmade.trans (ih _)
    · exact hmade

/-- No dictionary of the caller is changed. -/
theorem dispatch_keeps (st : Store) (o : Option Nat) (schemas : List SchemaName) :
    st <+: (st.dispatch e broker o schemas).1 := by
  have hprepared : st <+: st.prepare o := by
    rw [prepare_eq]
    exact List.prefix_append _ _
  exact hprepared.trans (sendEach_keeps _ _)

/-- The headers and options of a round put together are the message of its schema. -/
theorem call_stampHeaders (hgiven : callerHeaders (e.taskOptions.getD []) = given)
    (hoptions : st[r]? = some ((e.taskOptions.getD []).erase (.str "headers"))) :
    (st.stampHeaders given s).call e (given.map fun _ => st.length) r = e.message s := by
  have hkept : (st.stampHeaders given s)[r]? =
      some ((e.taskOptions.getD []).erase (.str "headers")) :=
    stampHeaders_getElem? hoptions given s
  rw [call, BeatEntry.message, hkept, hgiven]
  cases given with
  | none => rfl
  | some d => simp [stampHeaders]

end Store

/-! ### Attempts -/

/-- The attempts of the loop, without the dictionaries it makes. -/
def BeatEntry.attempts (e : BeatEntry) (broker : Message → SendOutcome) :
    List SchemaName → List Attempt
  | [] => []
  | s :: rest =>
    ⟨s, e.message s, outcomeOf broker (e.message s)⟩ ::
      match outcomeOf broker (e.message s) with
      | .sent | .operationalError => e.attempts broker rest
      | .raised => []

/-- Over copies of the headers every attempt is what the entry asks for. -/
theorem Store.sendEach_attempts {st : Store} {given : Option Dict} {r : Nat}
    (hgiven : callerHeaders (e.taskOptions.getD []) = given)
    (hoptions : st[r]? = some ((e.taskOptions.getD []).erase (.str "headers"))) :
    (st.sendEach e broker given r schemas).2 = e.attempts broker schemas := by
  induction schemas generalizing st with
  | nil => rfl
  | cons s rest ih =>
    have hkept := stampHeaders_getElem? hoptions given s
    rw [sendEach, BeatEntry.attempts]
    dsimp only
    rw [call_stampHeaders hgiven hoptions]
    cases outcomeOf broker (e.message s) with
    | sent => exact congrArg _ (ih hkept)
    | operationalError => exact congrArg _ (ih hkept)
    | raised => rfl

/-- A sub-dispatch attempts what the entry asks for, whatever the dicts share. -/
theorem Store.dispatch_attempts {st : Store} {o : Option Nat}
    (ho : st.optionsAt o = e.taskOptions.getD []) :
    (st.dispatch e broker o schemas).2 = e.attempts broker schemas := by
  refine sendEach_attempts (by rw [ho]) ?_
  rw [prepare_eq, ho]
  simp

/-- The loop came to its end. -/
def Returns (log : List Attempt) : Prop := ∀ a ∈ log, a.outcome ≠ .raised

/-- The schemas the broker took the task for. -/
def sentIn (log : List Attempt) : List SchemaName :=
  (log.filter fun a => a.outcome = .sent).map Attempt.schema

/-- A log returns if its first attempt and the others do. -/
theorem returns_cons {a : Attempt} {log : List Attempt} :
    Returns (a :: log) ↔ a.outcome ≠ .raised ∧ Returns log := List.forall_mem_cons

/-- Every attempt is the send for its schema. -/
theorem eq_of_mem_attempts {a : Attempt} (h : a ∈ e.attempts broker schemas) :
    a = ⟨a.schema, e.message a.schema, outcomeOf broker (e.message a.schema)⟩ := by
  induction schemas with
  | nil => cases h
  | cons s rest ih =>
    rw [BeatEntry.attempts] at h
    rcases List.mem_cons.mp h with rfl | h
    · rfl
    · cases hs : outcomeOf broker (e.message s) with
      | sent =>
        rw [hs] at h
        exact ih h
      | operationalError =>
        rw [hs] at h
        exact ih h
      | raised =>
        rw [hs] at h
        cases h

/-- The schemas are tried in their order, none of them left out before the loop ends. -/
theorem attempts_inOrder (e : BeatEntry) (broker : Message → SendOutcome)
    (schemas : List SchemaName) :
    (e.attempts broker schemas).map Attempt.schema <+: schemas := by
  induction schemas with
  | nil => exact List.nil_prefix
  | cons s rest ih =>
    rw [BeatEntry.attempts, List.map_cons, List.prefix_cons_inj]
    cases outcomeOf broker (e.message s) with
    | sent => exact ih
    | operationalError => exact ih
    | raised => exact List.nil_prefix

/-- Without an exception of the second class every schema is tried. -/
theorem attempts_all (h : Returns (e.attempts broker schemas)) :
    (e.attempts broker schemas).map Attempt.schema = schemas := by
  induction schemas with
  | nil => rfl
  | cons s rest ih =>
    rw [BeatEntry.attempts] at h ⊢
    rw [List.map_cons]
    obtain ⟨hs, hrest⟩ := returns_cons.mp h
    dsimp only at hs
    cases hsend : outcomeOf broker (e.message s) with
    | sent =>
      rw [hsend] at hrest
      exact congrArg (s :: ·) (ih hrest)
    | operationalError =>
      rw [hsend] at hrest
      exact congrArg (s :: ·) (ih hrest)
    | raised => exact absurd hsend hs

private theorem sendTo_eq (e : BeatEntry) (broker : Message → SendOutcome) (s : SchemaName) :
    e.sendTo broker s = outcomeOf broker (e.message s) := by
  rw [BeatEntry.sendTo]
  cases e.message s <;> rfl

/-- The loop of `sub_dispatch`, read off its attempts. -/
theorem sendAll_eq (e : BeatEntry) (broker : Message → SendOutcome) (schemas : List SchemaName) :
    (sendAll (e.sendTo broker) schemas).1 = sentIn (e.attempts broker schemas) ∧
      ((sendAll (e.sendTo broker) schemas).2 = true ↔ Returns (e.attempts broker schemas)) := by
  induction schemas with
  | nil => exact ⟨rfl, fun _ _ h => (List.not_mem_nil h).elim, fun _ => rfl⟩
  | cons s rest ih =>
    rw [sendAll, BeatEntry.attempts, returns_cons, sendTo_eq]
    cases hsend : outcomeOf broker (e.message s) with
    | sent =>
      have hsent : sentIn (⟨s, e.message s, .sent⟩ :: e.attempts broker rest) =
          s :: sentIn (e.attempts broker rest) := rfl
      rw [hsent, ih.1]
      simpa using ih.2
    | operationalError =>
      have hsent : sentIn (⟨s, e.message s, .operationalError⟩ :: e.attempts broker rest) =
          sentIn (e.attempts broker rest) := rfl
      rw [hsent, ih.1]
      simpa using ih.2
    | raised => simp [sentIn]

/-! ### Watermarks -/

/-- What a call of `sub_dispatch` comes to, by the calls of `send_task` it has made. -/
structure Accounts (e : BeatEntry) (argsSig : String) (broker : Message → SendOutcome)
    (runTs : Option Int) (rows : TaskRuns) (b : List SchemaName) (log : List Attempt)
    (done : Done) : Prop where
  /-- In order, and no schema twice. -/
  attempts : log.map Attempt.schema <+: b
  once : (log.map Attempt.schema).Nodup
  /-- Every schema, unless an exception of the second class is raised. -/
  all : Returns log → log.map Attempt.schema = b
  made : ∀ a ∈ log, a.message.isSome ↔ e.Sendable
  unmade : ∀ a ∈ log, a.message = none → a.outcome = .raised
  messages : ∀ a ∈ log, ∀ m, a.message = some m → m.CarriesFor e a.schema ∧ a.outcome = broker m
  sent : done.sent = sentIn log
  /-- The watermarks that are advanced: those of the schemas that were sent, if the loop came to
  its end and there is a time to stamp. -/
  stamped : ∀ s, s ∈ done.stamped ↔ runTs.isSome ∧ Returns log ∧ s ∈ sentIn log
  advanced : ∀ ts, runTs = some ts → ∀ s ∈ done.stamped,
    done.rows ⟨s, e.taskName, argsSig⟩ = stampedAt ts (rows ⟨s, e.taskName, argsSig⟩)
  others : ∀ key, (∀ s ∈ done.stamped, key ≠ ⟨s, e.taskName, argsSig⟩) → done.rows key = rows key

/-- A batch is dealt with: whatever dictionaries there are, none of them is changed, and the
result is that of the calls made. -/
def Delivers (e : BeatEntry) (argsSig : String) (broker : Message → SendOutcome)
    (runTs : Option Int) (rows : TaskRuns) (b : List SchemaName) (done : Done) : Prop :=
  ∀ (st : Store) (o : Option Nat), st.optionsAt o = e.taskOptions.getD [] →
    st <+: (st.dispatch e broker o b).1 ∧
      Accounts e argsSig broker runTs rows b (st.dispatch e broker o b).2 done

section Rows

variable {argsSig : String} {runTs : Option Int} {rows : TaskRuns}

private theorem mem_subDispatch_stamped :
    s ∈ (subDispatch e argsSig broker runTs rows schemas).stamped ↔
      runTs.isSome ∧ Returns (e.attempts broker schemas) ∧
        s ∈ sentIn (e.attempts broker schemas) := by
  obtain ⟨hsent, hfinished⟩ := sendAll_eq e broker schemas
  cases runTs with
  | none => simp [subDispatch]
  | some ts =>
    simp only [subDispatch]
    split
    · rename_i hdone
      simp [hsent, hfinished.mp hdone]
    · rename_i hdone
      simp [mt hfinished.mpr hdone]

private theorem subDispatch_advanced {ts : Int} (hts : runTs = some ts)
    (h : s ∈ (subDispatch e argsSig broker runTs rows schemas).stamped) :
    (subDispatch e argsSig broker runTs rows schemas).rows ⟨s, e.taskName, argsSig⟩ =
      stampedAt ts (rows ⟨s, e.taskName, argsSig⟩) := by
  have hrow := subDispatch_stamps e argsSig broker runTs rows schemas s
  subst hts
  dsimp only at hrow
  rwa [if_pos h] at hrow

private theorem subDispatch_others {key : RunKey}
    (h : ∀ s ∈ (subDispatch e argsSig broker runTs rows schemas).stamped,
      key ≠ ⟨s, e.taskName, argsSig⟩) :
    (subDispatch e argsSig broker runTs rows schemas).rows key = rows key := by
  cases runTs with
  | none => rfl
  | some ts =>
    simp only [subDispatch] at h ⊢
    split
    · rename_i hdone
      rw [if_pos hdone] at h
      refine (TaskRuns.markRan_apply rows key ts _ _ _).trans (if_neg fun hmem => ?_)
      obtain ⟨s, hs, rfl⟩ := List.mem_map.mp hmem
      exact h s hs rfl
    · rfl

/-- Every call of `sub_dispatch` on distinct schemas. -/
theorem subDispatch_delivers (hnodup : schemas.Nodup) :
    Delivers e argsSig broker runTs rows schemas
      (subDispatch e argsSig broker runTs rows schemas) := by
  intro st o ho
  refine ⟨Store.dispatch_keeps st o schemas, ?_⟩
  rw [Store.dispatch_attempts ho]
  have hprefix := attempts_inOrder e broker schemas
  exact {
    attempts := hprefix
    once := hnodup.sublist hprefix.sublist
    all := attempts_all
    made := fun a ha => by
      rw [eq_of_mem_attempts ha]
      exact message_isSome
    unmade := fun a ha hm => by
      rw [eq_of_mem_attempts ha] at hm ⊢
      dsimp only at hm ⊢
      rw [hm]
      rfl
    messages := fun a ha m hm => by
      rw [eq_of_mem_attempts ha] at hm ⊢
      dsimp only at hm ⊢
      rw [hm]
      exact ⟨message_carries hm, rfl⟩
    sent := subDispatch_sent.trans (sendAll_eq e broker schemas).1
    stamped := fun s => mem_subDispatch_stamped
    advanced := fun ts hts s hs => subDispatch_advanced hts hs
    others := fun key h => subDispatch_others h }

end Rows

/-! ### A wave -/

/-- A batch is never empty and never too long. -/
theorem batches_length {size : Nat} (hsize : 1 ≤ size) {due b : List SchemaName}
    (hb : b ∈ batches size due) : b ≠ [] ∧ b.length ≤ size := by
  obtain ⟨i, hi, rfl⟩ := List.mem_map.mp hb
  have hlt : i * size < due.length := by
    have hdiv : i < (due.length + size - 1) / size := List.mem_range.mp hi
    have hmul : (i + 1) * size ≤ due.length + size - 1 := (Nat.le_div_iff_mul_le hsize).mp hdiv
    rw [Nat.succ_mul] at hmul
    omega
  refine ⟨fun hnil => ?_, List.length_take_le _ _⟩
  have hlen := congrArg List.length hnil
  rw [List.length_take, List.length_drop, List.length_nil] at hlen
  omega

/-- The course of a wave: the batches are handed over one after the other, until one that the
broker refuses, and each of them is dealt with. -/
inductive Delivered (e : BeatEntry) (argsSig : String) (w : Wave) (runTs : Option Int) :
    TaskRuns → List (List SchemaName) → Done → Prop
  | nil {rows : TaskRuns} : Delivered e argsSig w runTs rows [] ⟨rows, [], []⟩
  | refused {rows : TaskRuns} {b : List SchemaName} {rest : List (List SchemaName)}
      (hdelay : w.delay b = false) : Delivered e argsSig w runTs rows (b :: rest) ⟨rows, [], []⟩
  | handed {rows : TaskRuns} {b : List SchemaName} {rest : List (List SchemaName)}
      {first others : Done} (hdelay : w.delay b = true)
      (hfirst : Delivers e argsSig w.send runTs rows b first)
      (hothers : Delivered e argsSig w runTs first.rows rest others) :
      Delivered e argsSig w runTs rows (b :: rest)
        ⟨others.rows, first.sent ++ others.sent, first.stamped ++ others.stamped⟩

section Waves

variable {Zone : Type} {cal : Calendar Zone} {conf : BeatConf} {argsSig : String}
  {runTs : Option Int} {rows : TaskRuns} {w : Wave} {bs : List (List SchemaName)}

private theorem runBatches_delivered (hnodup : ∀ b ∈ bs, b.Nodup) :
    Delivered e argsSig w runTs rows bs (runBatches e argsSig w runTs rows bs) := by
  induction bs generalizing rows with
  | nil => exact .nil
  | cons b rest ih =>
    obtain ⟨hb, hrest⟩ := List.forall_mem_cons.mp hnodup
    rw [runBatches]
    cases hdelay : w.delay b with
    | false =>
      rw [if_neg Bool.false_ne_true]
      exact .refused hdelay
    | true =>
      rw [if_pos rfl]
      exact .handed hdelay (subDispatch_delivers hb) (ih hrest)

/-- The batches of a wave are the due schemas in their order. They are handed over in turn, and
each schema of them is tried at most once, sent with its own schema on the message, and stamped
exactly when it was sent. -/
theorem fan_out_delivers (rows : TaskRuns) (hacquired : w.acquired = true)
    (hsize : 1 ≤ e.batchSizeOf conf) (hdue : (waveDue cal conf e argsSig rows w).Nodup) :
    (batches (e.batchSizeOf conf) (waveDue cal conf e argsSig rows w)).flatten =
        waveDue cal conf e argsSig rows w ∧
      (∀ b ∈ batches (e.batchSizeOf conf) (waveDue cal conf e argsSig rows w),
        b ≠ [] ∧ b.length ≤ e.batchSizeOf conf) ∧
      Delivered e argsSig w (waveRunTs e w) rows
        (batches (e.batchSizeOf conf) (waveDue cal conf e argsSig rows w))
        (fanoutDispatch cal conf e argsSig rows w) := by
  have hflatten := batches_flatten hsize (waveDue cal conf e argsSig rows w)
  refine ⟨hflatten, fun b hb => batches_length hsize hb, ?_⟩
  rw [fanoutDispatch, if_pos hacquired]
  refine runBatches_delivered fun b hb => ?_
  have hsub := List.sublist_flatten_of_mem hb
  rw [hflatten] at hsub
  exact hdue.sublist hsub

/-- A report every minute, in batches of two, with a header of its own. -/
def tracedReport : BeatEntry :=
  ⟨"x.report", "tenants", some "* * * * *", some 120000000, none, none,
    some [(.str "queue", .str "slow"), (.str "headers", .dict [(.str "x-trace", .str "1")])],
    some 2⟩

/-- A broker that is lost at the send for `beta`. -/
def lostAtBeta (m : Message) : SendOutcome :=
  match m.headers.get? (.str "_schema_name") with
  | some (.str "beta") => .operationalError
  | _ => .sent

/-- A tick half a minute after the occurrence. -/
def tracedWave : Wave :=
  ⟨90000000, [("acme", "UTC"), ("beta", "UTC"), ("gamma", "UTC")], [], true, fun _ => true,
    lostAtBeta⟩

/-- What the tick does to an empty table. -/
def tracedDone : Done :=
  fanoutDispatch everyMinute ⟨300000000, 100⟩ tracedReport "" (fun _ => none) tracedWave

/-- A wave over three tenants in two batches, one of them lost, is delivered to the other two. -/
theorem fan_out_delivers_two_batches :
    batches 2 ["acme", "beta", "gamma"] = [["acme", "beta"], ["gamma"]] ∧
      Delivered tracedReport "" tracedWave (some 90000000) (fun _ => none)
        [["acme", "beta"], ["gamma"]] tracedDone ∧
      tracedDone.sent = ["acme", "gamma"] ∧ tracedDone.stamped = ["acme", "gamma"] := by
  have hdue : waveDue everyMinute ⟨300000000, 100⟩ tracedReport "" (fun _ => none) tracedWave =
      ["acme", "beta", "gamma"] := by decide
  have hbatches : batches 2 ["acme", "beta", "gamma"] = [["acme", "beta"], ["gamma"]] := rfl
  have hdelivered : Delivered tracedReport "" tracedWave (waveRunTs tracedReport tracedWave)
      (fun _ => none) (batches (tracedReport.batchSizeOf ⟨300000000, 100⟩)
        (waveDue everyMinute ⟨300000000, 100⟩ tracedReport "" (fun _ => none) tracedWave))
      tracedDone :=
    (fan_out_delivers _ rfl (by decide) (by rw [hdue]; decide)).2.2
  rw [hdue] at hdelivered
  exact ⟨hbatches, hdelivered, by decide, by decide⟩

end Waves

end MtShards.Fanout
