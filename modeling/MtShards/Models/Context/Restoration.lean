import MtShards.Models.Context.Routing

/-!
# Both routing axes are restored on every exit

The clean-up of `_switch` writes back exactly what the entry changed: the axes of
the state it leaves are those of the state it was entered in, provided the body
kept the axes it was given. Structural induction extends this to every program,
and the outcome of a program is shown to be the first exception raised inside it,
computed without reference to the routing state.
-/

namespace MtShards.Context

open MtShards.Core

/-- Recording a tenant leaves the pinned alias alone. -/
@[simp] theorem Routing.record_currentDb (s : Routing) (a : Alias) (t : Recorded) :
    (s.record a t).currentDb = s.currentDb := rfl

/-- Recording a tenant puts the connection of a known alias on the tenant's schema. -/
@[simp] theorem Routing.schemaOf_record_self (s : Routing) (a : Alias) (t : Recorded) :
    (s.record a t).schemaOf a = (s.schemaOf a).map fun _ => t.schemaName := by
  simp only [Routing.schemaOf, Routing.record, Function.update_self, Option.map_map]
  rfl

/-- Recording a tenant leaves every other connection alone. -/
@[simp] theorem Routing.schemaOf_record_of_ne (s : Routing) {a b : Alias} (t : Recorded)
    (h : b ≠ a) : (s.record a t).schemaOf b = s.schemaOf b := by
  simp only [Routing.schemaOf, Routing.record, Function.update_of_ne h]

/-- Two routings are alike if they pin one alias and every alias is on one schema. -/
theorem Routing.axes_eq_iff (s s' : Routing) :
    s'.axes = s.axes ↔ s'.currentDb = s.currentDb ∧ ∀ a, s'.schemaOf a = s.schemaOf a := by
  simp only [Routing.axes, Prod.mk.injEq, funext_iff]

/-- The schema a wrapper falls back to is the one its previous tenant names. -/
theorem Routing.schemaOf_restore (s : Routing) (a : Alias) (prev : Option Recorded)
    (token : Option Alias) (b : Alias) :
    (s.restore a prev token).schemaOf b =
      if b = a then (s.schemaOf a).map fun _ => Connection.schemaName ⟨prev⟩
      else s.schemaOf b := by
  cases prev with
  | none =>
    change (s.record a (.fake publicSchemaName)).schemaOf b = _
    by_cases h : b = a
    · subst h
      rw [Routing.schemaOf_record_self, if_pos rfl]
      rfl
    · rw [Routing.schemaOf_record_of_ne s _ h, if_neg h]
  | some t =>
    change (s.record a t).schemaOf b = _
    by_cases h : b = a
    · subst h
      rw [Routing.schemaOf_record_self, if_pos rfl]
      rfl
    · rw [Routing.schemaOf_record_of_ne s _ h, if_neg h]

/-- Restoring pins the alias that was pinned. -/
@[simp] theorem Routing.restore_currentDb (s : Routing) (a : Alias) (prev : Option Recorded)
    (token : Option Alias) : (s.restore a prev token).currentDb = token := by
  cases prev <;> rfl

/-- A state that differs from the entry state at most on the entered connection is
brought back to the axes of the entry state by the clean-up of `_switch`. -/
theorem Routing.restore_axes {s s' : Routing} {a : Alias} {c : Connection}
    (hc : s.connections a = some c) (hsome : (s'.schemaOf a).isSome)
    (hother : ∀ b, b ≠ a → s'.schemaOf b = s.schemaOf b) :
    (s'.restore a c.tenant s.currentDb).axes = s.axes := by
  rw [Routing.axes_eq_iff]
  refine ⟨Routing.restore_currentDb .., fun b => ?_⟩
  rw [Routing.schemaOf_restore]
  by_cases h : b = a
  · subst h
    obtain ⟨n, hn⟩ := Option.isSome_iff_exists.mp hsome
    rw [if_pos rfl, hn, Routing.schemaOf, hc]
    rfl
  · rw [if_neg h, hother b h]

section Managers

variable {ε α : Type} {doesNotExist : Alias → ε}

/-- `use_alias` restores both axes around a body that keeps them. -/
theorem useAlias_keeps (a : Alias) {body : Action Routing ε α}
    (hb : Action.Keeps Routing.axes body) : Action.Keeps Routing.axes (useAlias a body) := by
  intro s
  have h := (Routing.axes_eq_iff _ _).mp (hb { s with currentDb := some a })
  change Routing.axes { (body { s with currentDb := some a }).2 with
    currentDb := s.currentDb } = s.axes
  exact (Routing.axes_eq_iff _ _).mpr ⟨rfl, h.2⟩

/-- The state in which the body of `_switch` starts, or in which its entry failed. -/
theorem applyTo_axes (a : Alias) (t : Recorded) (fault : Option (SetFault ε)) (s : Routing) :
    (applyTo a t fault s).2 = s.record a t ∨ (applyTo a t fault s).2 = s := by
  cases fault with
  | none => exact Or.inl rfl
  | some f =>
    simp only [applyTo]
    cases f.recorded
    · exact Or.inr rfl
    · exact Or.inl rfl

/-- Entering and running the body changes no other connection, and keeps the
entered one known. -/
theorem entered_body_axes (a : Alias) (t : Recorded) (fault : Option (SetFault ε))
    {body : Action Routing ε α} (hb : Action.Keeps Routing.axes body) {s : Routing}
    (hs : (s.schemaOf a).isSome) :
    (((applyTo a t fault >>= fun _ => body) s).2.schemaOf a).isSome ∧
      ∀ b, b ≠ a → ((applyTo a t fault >>= fun _ => body) s).2.schemaOf b = s.schemaOf b := by
  have hentered : ((applyTo a t fault s).2.schemaOf a).isSome ∧
      ∀ b, b ≠ a → (applyTo a t fault s).2.schemaOf b = s.schemaOf b := by
    rcases applyTo_axes a t fault s with h | h
    · rw [h]
      exact ⟨by simpa using hs, fun b hne => Routing.schemaOf_record_of_ne s t hne⟩
    · rw [h]
      exact ⟨hs, fun _ _ => rfl⟩
  rw [Action.bind_apply]
  rcases h : applyTo a t fault s with ⟨r, s'⟩
  rw [h] at hentered
  cases r with
  | error e => exact hentered
  | ok u =>
    have hk := ((Routing.axes_eq_iff _ _).mp (hb s')).2
    exact ⟨by rw [hk a]; exact hentered.1, fun b hne => (hk b).trans (hentered.2 b hne)⟩

/-- `_switch` on an alias outside `settings.DATABASES` raises before touching an axis. -/
theorem switch_unknown {database : Alias} (t : Recorded) (fault : Option (SetFault ε))
    (body : Action Routing ε α) {s : Routing} (h : s.connections database = none) :
    switch doesNotExist database t fault body s = (.error (doesNotExist database), s) := by
  simp only [switch, Action.bind_apply, connectionAt, h]

/-- `_switch` on a known alias: the body runs after the entry, then the clean-up. -/
theorem switch_known {database : Alias} {c : Connection} (t : Recorded)
    (fault : Option (SetFault ε)) (body : Action Routing ε α) {s : Routing}
    (h : s.connections database = some c) :
    switch doesNotExist database t fault body s =
      (((applyTo database t fault >>= fun _ => body) { s with currentDb := some database }).1,
        Routing.restore ((applyTo database t fault >>= fun _ => body)
          { s with currentDb := some database }).2 database c.tenant s.currentDb) := by
  simp only [switch, Action.bind_apply, connectionAt, h, setCurrentDb, Action.tryFinally_modify]

/-- `_switch` restores both axes, whether the alias, the entry or the body fails. -/
theorem switch_keeps (database : Alias) (t : Recorded) (fault : Option (SetFault ε))
    {body : Action Routing ε α} (hb : Action.Keeps Routing.axes body) :
    Action.Keeps Routing.axes (switch doesNotExist database t fault body) := by
  intro s
  cases h : s.connections database with
  | none => rw [switch_unknown t fault body h]
  | some c =>
    rw [switch_known t fault body h]
    have hs : (Routing.schemaOf { s with currentDb := some database } database).isSome := by
      simp only [Routing.schemaOf, h, Option.map_some, Option.isSome_some]
    obtain ⟨hsome, hother⟩ := entered_body_axes database t fault hb hs
    exact Routing.restore_axes h hsome hother

/-- A tenant context leaves the routing as it was, if its body does. -/
theorem tenantContext_keeps (t : TenantSnapshot) (database : Option Alias)
    (fault : Option (SetFault ε)) {body : Action Routing ε α}
    (hb : Action.Keeps Routing.axes body) :
    Action.Keeps Routing.axes (tenantContext doesNotExist t database fault body) :=
  switch_keeps _ _ fault hb

private theorem schemaContext_keeps (schema : SchemaName) (database : Option Alias)
    (lookup : Except ε Alias) (fault : Option (SetFault ε)) {body : Action Routing ε α}
    (hb : Action.Keeps Routing.axes body) :
    Action.Keeps Routing.axes (schemaContext doesNotExist schema database lookup fault body) := by
  unfold schemaContext
  cases resolveDatabase schema database lookup with
  | error e => exact Action.Keeps.raise _ e
  | ok db => exact switch_keeps _ _ fault hb

private theorem taskCall_keeps (header : Option SchemaName) (get : Except ε TenantSnapshot)
    (fault : Option (SetFault ε)) {body : Action Routing ε α}
    (hb : Action.Keeps Routing.axes body) :
    Action.Keeps Routing.axes (taskCall doesNotExist header get fault body) := by
  unfold taskCall
  by_cases hbare : orElse header "" = ""
  · simpa only [hbare, ite_true] using hb
  by_cases hpublic : orElse header "" = publicSchemaName
  · rw [if_neg hbare, if_pos hpublic]
    exact useAlias_keeps _ hb
  simp only [hbare, hpublic, ite_false]
  cases get with
  | error e => exact Action.Keeps.raise _ e
  | ok t => exact tenantContext_keeps t none fault hb

end Managers

variable {ε : Type}

/-- Every program, entered in any routing state, leaves both axes as it found them. -/
theorem Prog.run_keeps (doesNotExist : Alias → ε) (p : Prog ε) :
    Action.Keeps Routing.axes (p.run doesNotExist) := by
  induction p with
  | skip => exact Action.Keeps.pure _ ()
  | raise e => exact Action.Keeps.raise _ e
  | seq p q hp hq => exact hp.bind fun _ => hq
  | useAlias a body ih => exact useAlias_keeps a ih
  | tenantContext t db fault body ih => exact tenantContext_keeps t db fault ih
  | schemaContext s db lookup fault body ih => exact schemaContext_keeps s db lookup fault ih
  | task header get fault body ih => exact taskCall_keeps header get fault ih

/-- The exception raised by entering a connection: an unknown alias, or the setter. -/
def enterRaises (doesNotExist : Alias → ε) (known : Alias → Bool) (a : Alias)
    (fault : Option (SetFault ε)) : Option ε :=
  if known a then fault.map SetFault.raised else some (doesNotExist a)

/-- The first exception raised inside a program, read off its text and the set of
known aliases alone. -/
def Prog.raises (doesNotExist : Alias → ε) (known : Alias → Bool) : Prog ε → Option ε
  | .skip => none
  | .raise e => some e
  | .seq p q => (p.raises doesNotExist known).or (q.raises doesNotExist known)
  | .useAlias _ body => body.raises doesNotExist known
  | .tenantContext t db fault body =>
    (enterRaises doesNotExist known (orElse db t.shard.dbAlias) fault).or
      (body.raises doesNotExist known)
  | .schemaContext s db lookup fault body =>
    match resolveDatabase s db lookup with
    | .error e => some e
    | .ok a => (enterRaises doesNotExist known a fault).or (body.raises doesNotExist known)
  | .task header get fault body =>
    if orElse header "" = "" ∨ orElse header "" = publicSchemaName then
      body.raises doesNotExist known
    else match get with
      | .error e => some e
      | .ok t => (enterRaises doesNotExist known t.shard.dbAlias fault).or
          (body.raises doesNotExist known)

/-- A run that raises `e`, or returns. -/
def outcome : Option ε → Except ε Unit
  | some e => .error e
  | none => .ok ()

/-- The aliases of `settings.DATABASES`. -/
def Routing.known (s : Routing) (a : Alias) : Bool := (s.connections a).isSome

/-- An alias is known if it is on some schema. -/
theorem Routing.known_eq_schemaOf (s : Routing) (a : Alias) :
    s.known a = (s.schemaOf a).isSome := by
  simp only [Routing.known, Routing.schemaOf, Option.isSome_map]

/-- States with the same axes know the same aliases. -/
theorem Routing.known_of_axes {s s' : Routing} (h : s'.axes = s.axes) : s'.known = s.known := by
  funext a
  rw [Routing.known_eq_schemaOf, Routing.known_eq_schemaOf, ((Routing.axes_eq_iff _ _).mp h).2 a]

/-- Recording a tenant makes no alias known. -/
theorem Routing.known_record (s : Routing) (a : Alias) (t : Recorded) :
    (s.record a t).known = s.known := by
  funext b
  rw [Routing.known_eq_schemaOf, Routing.known_eq_schemaOf]
  by_cases h : b = a
  · subst h
    rw [Routing.schemaOf_record_self, Option.isSome_map]
  · rw [Routing.schemaOf_record_of_ne s t h]

/-- What `_switch` raises: an unknown alias, a failed entry, or what its body raises. -/
theorem switch_outcome {doesNotExist : Alias → ε} (database : Alias) (t : Recorded)
    (fault : Option (SetFault ε)) {body : Action Routing ε Unit} {inside : Option ε} {s : Routing}
    (hb : ∀ s' : Routing, s'.known = s.known → (body s').1 = outcome inside) :
    (switch doesNotExist database t fault body s).1 =
      outcome ((enterRaises doesNotExist s.known database fault).or inside) := by
  cases h : s.connections database with
  | none =>
    rw [switch_unknown t fault body h]
    simp only [enterRaises, Routing.known, h, Option.isSome_none, Bool.false_eq_true, ite_false,
      Option.some_or, outcome]
  | some c =>
    rw [switch_known t fault body h, Action.bind_apply]
    cases fault with
    | none =>
      simp only [applyTo, Action.modify_apply, enterRaises, Routing.known, h, Option.isSome_some,
        ite_true, Option.map_none, Option.none_or]
      exact hb _ (Routing.known_record _ _ _)
    | some f =>
      simp only [applyTo, enterRaises, Routing.known, h, Option.isSome_some, ite_true,
        Option.map_some, Option.some_or, outcome]

/-- The exception that leaves a program is the first one raised inside it. -/
theorem Prog.run_outcome (doesNotExist : Alias → ε) (p : Prog ε) (s : Routing) :
    (p.run doesNotExist s).1 = outcome (p.raises doesNotExist s.known) := by
  induction p generalizing s with
  | skip => rfl
  | raise e => rfl
  | seq p q hp hq =>
    have hk := Routing.known_of_axes (Prog.run_keeps doesNotExist p s)
    have h := hp s
    simp only [Prog.run, Prog.raises, Action.bind_apply]
    rcases hr : p.run doesNotExist s with ⟨r, s'⟩
    rw [hr] at h hk
    change r = _ at h
    cases hx : p.raises doesNotExist s.known with
    | some e =>
      rw [hx] at h
      subst h
      rfl
    | none =>
      rw [hx] at h
      subst h
      change (q.run doesNotExist s').1 = _
      rw [hq s', hk, Option.none_or]
  | useAlias a body ih => exact ih { s with currentDb := some a }
  | tenantContext t db fault body ih =>
    exact switch_outcome _ _ fault fun s' hs' => by rw [ih s', hs']
  | schemaContext sc db lookup fault body ih =>
    simp only [Prog.run, Context.schemaContext, Prog.raises]
    cases resolveDatabase sc db lookup with
    | error e => rfl
    | ok a => exact switch_outcome _ _ fault fun s' hs' => by rw [ih s', hs']
  | task header get fault body ih =>
    simp only [Prog.run, taskCall, Prog.raises]
    by_cases hbare : orElse header "" = ""
    · simpa only [hbare, ite_true, true_or] using ih s
    by_cases hpublic : orElse header "" = publicSchemaName
    · simp only [hpublic, or_true, ite_true]
      rw [if_neg (by decide)]
      exact ih { s with currentDb := some defaultAlias }
    simp only [hbare, hpublic, or_self, ite_false]
    cases get with
    | error e => rfl
    | ok t => exact switch_outcome _ _ fault fun s' hs' => by rw [ih s', hs']

/-- The shard connection the middleware enters: that of a tenant outside `default`. -/
def entered (tenant : Option TenantSnapshot) : Option Alias :=
  tenant.bind fun t => if t.shard.dbAlias = defaultAlias then none else some t.shard.dbAlias

/-- What a request enters is the shard of its tenant, and not `default`. -/
theorem entered_eq_some {tenant : Option TenantSnapshot} {b : Alias} (h : entered tenant = some b) :
    ∃ t, tenant = some t ∧ t.shard.dbAlias ≠ defaultAlias ∧ t.shard.dbAlias = b := by
  obtain ⟨t, rfl, ht⟩ := Option.bind_eq_some_iff.mp h
  have hne : t.shard.dbAlias ≠ defaultAlias := by
    intro hdefault
    simp only [hdefault, ite_true, reduceCtorEq] at ht
  exact ⟨t, rfl, hne, by simpa only [hne, ite_false, Option.some.injEq] using ht⟩

/-- The exception raised inside a request: by entering the shard, or by the handler. -/
def middlewareRaises (doesNotExist : Alias → ε) (known : Alias → Bool)
    (tenant : Option TenantSnapshot) (fault : Option (SetFault ε)) (inside : Option ε) :
    Option ε :=
  match entered tenant with
  | none => inside
  | some a => (enterRaises doesNotExist known a fault).or inside

/-- Without a shard to enter, the middleware is `use_alias("default")`. -/
theorem middlewareCall_of_entered_none {doesNotExist : Alias → ε} {tenant : Option TenantSnapshot}
    (fault : Option (SetFault ε)) (handler : Action Routing ε Unit) (h : entered tenant = none) :
    middlewareCall doesNotExist tenant fault handler = useAlias defaultAlias handler := by
  cases tenant with
  | none => rfl
  | some t =>
    simp only [entered, Option.bind_some, ite_eq_left_iff, reduceCtorEq, imp_false,
      Decidable.not_not] at h
    simp only [middlewareCall, h, ite_true]

/-- The middleware resolves the connection first: an unknown alias changes nothing. -/
theorem middlewareCall_of_unknown {doesNotExist : Alias → ε} {t : TenantSnapshot}
    (fault : Option (SetFault ε)) (handler : Action Routing ε Unit) {s : Routing}
    (hne : t.shard.dbAlias ≠ defaultAlias) (h : s.connections t.shard.dbAlias = none) :
    middlewareCall doesNotExist (some t) fault handler s =
      (.error (doesNotExist t.shard.dbAlias), s) := by
  simp only [middlewareCall, hne, ite_false, Action.bind_apply, connectionAt, h]

/-- On a known shard the middleware is `tenant_context`, then public on that connection. -/
theorem middlewareCall_of_known {doesNotExist : Alias → ε} {t : TenantSnapshot} {c : Connection}
    (fault : Option (SetFault ε)) (handler : Action Routing ε Unit) {s : Routing}
    (hne : t.shard.dbAlias ≠ defaultAlias) (h : s.connections t.shard.dbAlias = some c) :
    middlewareCall doesNotExist (some t) fault handler s =
      ((tenantContext doesNotExist t none fault handler s).1,
        Routing.setSchemaToPublic (tenantContext doesNotExist t none fault handler s).2
          t.shard.dbAlias) := by
  simp only [middlewareCall, hne, ite_false, Action.bind_apply, connectionAt, h,
    Action.tryFinally_modify]

/-- The state a request leaves: both axes as on entry, except that the entered shard
connection is on public. -/
theorem middlewareCall_axes (doesNotExist : Alias → ε) (tenant : Option TenantSnapshot)
    (fault : Option (SetFault ε)) {handler : Action Routing ε Unit}
    (hk : Action.Keeps Routing.axes handler) (s : Routing) :
    (middlewareCall doesNotExist tenant fault handler s).2.currentDb = s.currentDb ∧
      ∀ a, (middlewareCall doesNotExist tenant fault handler s).2.schemaOf a =
        if entered tenant = some a then (s.schemaOf a).map fun _ => publicSchemaName
        else s.schemaOf a := by
  cases he : entered tenant with
  | none =>
    rw [middlewareCall_of_entered_none fault handler he]
    simpa only [reduceCtorEq, ite_false] using
      (Routing.axes_eq_iff _ _).mp (useAlias_keeps defaultAlias hk s)
  | some b =>
    obtain ⟨t, rfl, hne, rfl⟩ := entered_eq_some he
    cases hc : s.connections t.shard.dbAlias with
    | none =>
      rw [middlewareCall_of_unknown fault handler hne hc]
      refine ⟨rfl, fun a => ?_⟩
      split
      · rename_i ha
        obtain rfl := Option.some.inj ha
        simp only [Routing.schemaOf, hc, Option.map_none]
      · rfl
    | some c =>
      rw [middlewareCall_of_known fault handler hne hc]
      have haxes : ((tenantContext doesNotExist t none fault handler) s).2.axes = s.axes :=
        tenantContext_keeps t none fault hk s
      obtain ⟨hdb, hsch⟩ := (Routing.axes_eq_iff _ _).mp haxes
      refine ⟨hdb, fun a => ?_⟩
      by_cases ha : t.shard.dbAlias = a
      · subst ha
        rw [if_pos rfl, Routing.setSchemaToPublic, Routing.schemaOf_record_self, hsch]
        rfl
      · rw [if_neg (fun h => ha (Option.some.inj h)), Routing.setSchemaToPublic,
          Routing.schemaOf_record_of_ne _ _ (Ne.symm ha), hsch]

/-- The exception that leaves a request is the first one raised inside it. -/
theorem middlewareCall_outcome (doesNotExist : Alias → ε) (tenant : Option TenantSnapshot)
    (fault : Option (SetFault ε)) (p : Prog ε) (s : Routing) :
    (middlewareCall doesNotExist tenant fault (p.run doesNotExist) s).1 =
      outcome (middlewareRaises doesNotExist s.known tenant fault
        (p.raises doesNotExist s.known)) := by
  cases he : entered tenant with
  | none =>
    rw [middlewareCall_of_entered_none fault _ he]
    simp only [middlewareRaises, he]
    exact Prog.run_outcome doesNotExist p { s with currentDb := some defaultAlias }
  | some b =>
    obtain ⟨t, rfl, hne, rfl⟩ := entered_eq_some he
    simp only [middlewareRaises, he]
    cases hc : s.connections t.shard.dbAlias with
    | none =>
      rw [middlewareCall_of_unknown fault _ hne hc]
      simp only [enterRaises, Routing.known, hc, Option.isSome_none, Bool.false_eq_true, ite_false,
        Option.some_or, outcome]
    | some c =>
      rw [middlewareCall_of_known fault _ hne hc]
      exact Prog.run_outcome doesNotExist (.tenantContext t none fault p) s

/-- A program over the context managers, run on its own, leaves `current_db` and every
schema as it found them; run as the handler of the routing middleware it also leaves
the entered shard connection on public. Either way the exception that leaves is the
first one raised inside. Every level of a program is itself a program run in the
state of its own entry, so this speaks of the exit of every construct. -/
theorem routing_context_restored (doesNotExist : Alias → ε) (p : Prog ε) (s : Routing) :
    ((p.run doesNotExist s).2.currentDb = s.currentDb ∧
      (∀ a, (p.run doesNotExist s).2.schemaOf a = s.schemaOf a) ∧
      (p.run doesNotExist s).1 = outcome (p.raises doesNotExist s.known)) ∧
    ∀ (tenant : Option TenantSnapshot) (fault : Option (SetFault ε)),
      let out := middlewareCall doesNotExist tenant fault (p.run doesNotExist) s
      out.2.currentDb = s.currentDb ∧
      (∀ a, out.2.schemaOf a =
        if entered tenant = some a then (s.schemaOf a).map fun _ => publicSchemaName
        else s.schemaOf a) ∧
      out.1 = outcome (middlewareRaises doesNotExist s.known tenant fault
        (p.raises doesNotExist s.known)) := by
  have hk := Prog.run_keeps doesNotExist p
  obtain ⟨hdb, hsch⟩ := (Routing.axes_eq_iff _ _).mp (hk s)
  refine ⟨⟨hdb, hsch, Prog.run_outcome doesNotExist p s⟩, fun tenant fault => ?_⟩
  obtain ⟨hmdb, hmsch⟩ := middlewareCall_axes doesNotExist tenant fault hk s
  exact ⟨hmdb, hmsch, middlewareCall_outcome doesNotExist tenant fault p s⟩

end MtShards.Context
