import MtShards.Models.Context.Thread

/-!
# Tenant-model queries stay with their tenant

At every point of a thread the bound alias and the schema under it are those of the
innermost entered tenant, and the tokens and tenants its frames saved lead back to the
enclosing one. `default` is not part of that: during a request it stays on the schema
of the served tenant. So a block that pins the router to `default` is covered by the
public guard only as long as that connection is on public.
-/

namespace MtShards.Context

open MtShards.Core

/-- The tenant a block has entered. -/
def Frame.tenant : Frame → Option TenantSnapshot
  | .switched t _ _ => some t
  | .routed t _ _ => some t
  | _ => none

/-- The alias the innermost binding block binds. -/
def bound : List Frame → Option Alias
  | [] => none
  | .request _ :: fs => bound fs
  | .pinned _ :: _ => some defaultAlias
  | .switched t _ _ :: _ => some t.shard.dbAlias
  | .routed t _ _ :: _ => some t.shard.dbAlias
  | .called :: fs => bound fs

/-- The innermost entered tenant; a block pinned to `default` stands for no tenant. -/
def innermost : List Frame → Option TenantSnapshot
  | [] => none
  | .request _ :: fs => innermost fs
  | .pinned _ :: _ => none
  | .switched t _ _ :: _ => some t
  | .routed t _ _ :: _ => some t
  | .called :: fs => innermost fs

/-- The innermost tenant entered on one alias. -/
def lastOn (a : Alias) : List Frame → Option TenantSnapshot
  | [] => none
  | f :: fs => match f.tenant with
    | some t => if t.shard.dbAlias = a then some t else lastOn a fs
    | none => lastOn a fs

/-- What the frames saved leads back to the state around them. -/
def Linked : List Frame → Prop
  | [] => True
  | .request _ :: fs => fs = []
  | .pinned token :: fs => token = bound fs ∧ Linked fs
  | .switched t prev token :: fs =>
    t.shard.dbAlias ≠ defaultAlias ∧ token = bound fs ∧ Linked fs ∧
      ∀ u, lastOn t.shard.dbAlias fs = some u → Connection.schemaName ⟨prev⟩ = u.schemaName
  | .routed t _ token :: fs =>
    t.shard.dbAlias ≠ defaultAlias ∧ token = bound fs ∧ Linked fs ∧
      lastOn t.shard.dbAlias fs = none
  | .called :: fs => Linked fs

/-- The schema a request has put on `default`. -/
def requestSchema (tenant : Option Registered) : SchemaName :=
  (tenant.map fun t => t.1.schemaName).getD publicSchemaName

/-- The routing state agrees with the open blocks. -/
structure Sound (s : Routing) (fs : List Frame) : Prop where
  known : (s.schemaOf defaultAlias).isSome
  bound : s.currentDb = bound fs
  linked : Linked fs
  on : ∀ a t, lastOn a fs = some t → s.schemaOf a = some t.schemaName
  requested : ∀ tenant, .request tenant ∈ fs →
    s.schemaOf defaultAlias = some (requestSchema tenant)

/-- A thread with no context: nothing bound, no block open. The connections are as an
earlier user of the thread left them. -/
structure Thread.NoContext (th : Thread) : Prop where
  unbound : th.routing.currentDb = none
  noFrame : th.frames = []
  known : (th.routing.schemaOf defaultAlias).isSome

/-- A thread without a context is sound. -/
theorem Thread.NoContext.sound {th : Thread} (h : th.NoContext) :
    Sound th.routing th.frames := by
  rw [h.noFrame]
  refine ⟨h.known, h.unbound, trivial, ?_, ?_⟩
  · intro a t ht
    cases ht
  · intro tenant hmem
    cases hmem

section Steps

variable {s s' : Routing} {fs : List Frame}

/-- Only the two axes matter. -/
theorem Sound.of_axes (h : Sound s fs) (haxes : s'.axes = s.axes) : Sound s' fs := by
  obtain ⟨hdb, hschema⟩ := (Routing.axes_eq_iff _ _).mp haxes
  refine ⟨?_, hdb.trans h.bound, h.linked, ?_, ?_⟩
  · rw [hschema]
    exact h.known
  · intro a t ht
    rw [hschema]
    exact h.on a t ht
  · intro tenant hmem
    rw [hschema]
    exact h.requested tenant hmem

/-- An alias with a connection, in terms of its schema. -/
theorem Routing.schemaOf_of_connection {a : Alias} {c : Connection}
    (h : s.connections a = some c) : s.schemaOf a = some c.schemaName := by
  simp only [Routing.schemaOf, h, Option.map_some]

/-- A failed entry leaves the axes as they were. -/
theorem Routing.failedEntry_axes {t : TenantSnapshot} {c : Connection} (recorded : Bool)
    (hc : s.connections t.shard.dbAlias = some c) :
    (s.failedEntry t c.tenant recorded).axes = s.axes := by
  have hs := Routing.schemaOf_of_connection hc
  refine Routing.restore_axes hc ?_ ?_
  · cases recorded with
    | false => exact Option.isSome_iff_exists.mpr ⟨_, hs⟩
    | true =>
      simp only [Routing.entering, if_true, Routing.schemaOf_record_self, Option.isSome_map]
      exact Option.isSome_iff_exists.mpr ⟨_, hs⟩
  · intro b hne
    cases recorded with
    | false => rfl
    | true =>
      simp only [Routing.entering, if_true]
      rw [Routing.schemaOf_record_of_ne _ _ hne]
      rfl

/-- The schemas once a tenant has been entered. -/
theorem Routing.schemaOf_entering {t : TenantSnapshot} {c : Connection} (a : Alias)
    (hc : s.connections t.shard.dbAlias = some c) :
    (s.entering t).schemaOf a =
      if t.shard.dbAlias = a then some t.schemaName else s.schemaOf a := by
  by_cases ha : t.shard.dbAlias = a
  · subst ha
    have hs : Routing.schemaOf { s with currentDb := some t.shard.dbAlias } t.shard.dbAlias =
        some c.schemaName := Routing.schemaOf_of_connection hc
    rw [if_pos rfl, Routing.entering, Routing.schemaOf_record_self, hs]
    rfl
  · rw [if_neg ha, Routing.entering, Routing.schemaOf_record_of_ne _ _ (Ne.symm ha)]
    rfl

/-- Entering a tenant on its shard, with either kind of frame. -/
theorem Sound.entering (h : Sound s fs) {t : TenantSnapshot} {c : Connection} {f : Frame}
    (hc : s.connections t.shard.dbAlias = some c) (hf : f.tenant = some t)
    (hlinked : Linked (f :: fs)) : Sound (s.entering t) (f :: fs) := by
  have hne : t.shard.dbAlias ≠ defaultAlias := by
    cases f <;> simp only [Frame.tenant, reduceCtorEq, Option.some.injEq] at hf
    all_goals
      subst hf
      exact hlinked.1
  have hdefault : (s.entering t).schemaOf defaultAlias = s.schemaOf defaultAlias := by
    rw [Routing.schemaOf_entering _ hc, if_neg hne]
  refine ⟨?_, ?_, hlinked, ?_, ?_⟩
  · rw [hdefault]
    exact h.known
  · cases f <;> simp only [Frame.tenant, reduceCtorEq, Option.some.injEq] at hf
    all_goals
      subst hf
      rfl
  · intro a u hu
    rw [Routing.schemaOf_entering _ hc]
    simp only [lastOn, hf] at hu
    by_cases ha : t.shard.dbAlias = a
    · rw [if_pos ha] at hu ⊢
      rw [Option.some.inj hu]
    · rw [if_neg ha] at hu ⊢
      exact h.on a u hu
  · intro tenant hmem
    rw [hdefault]
    rcases List.mem_cons.mp hmem with heq | hmem
    · subst heq
      cases hf
    · exact h.requested tenant hmem

/-- Pinning the router to `default`. -/
theorem Sound.pin (h : Sound s fs) :
    Sound { s with currentDb := some defaultAlias } (.pinned s.currentDb :: fs) := by
  refine ⟨h.known, rfl, ⟨h.bound, h.linked⟩, h.on, ?_⟩
  intro tenant hmem
  rcases List.mem_cons.mp hmem with heq | hmem
  · cases heq
  · exact h.requested tenant hmem

/-- A tenant entered on an alias means that the alias is known there. -/
theorem Sound.restored {f : Frame} {t : TenantSnapshot} {prev : Option Recorded}
    (h : Sound s (f :: fs)) (hf : f.tenant = some t) (token : Option Alias) (a : Alias) :
    (s.restore t.shard.dbAlias prev token).schemaOf a =
      if a = t.shard.dbAlias then some (Connection.schemaName ⟨prev⟩) else s.schemaOf a := by
  have hon : s.schemaOf t.shard.dbAlias = some t.schemaName := by
    refine h.on _ t ?_
    simp only [lastOn, hf, if_true]
  rw [Routing.schemaOf_restore, hon]
  rfl

/-- No clean-up touches `default`. -/
theorem Linked.cleanUp_default {f : Frame} (h : Linked (f :: fs)) :
    (f.cleanUp s).schemaOf defaultAlias = s.schemaOf defaultAlias := by
  cases f with
  | request tenant => rfl
  | pinned token => rfl
  | called => rfl
  | switched t prev token =>
    rw [Frame.cleanUp, Routing.schemaOf_restore, if_neg (Ne.symm h.1)]
  | routed t prev token =>
    rw [Frame.cleanUp, Routing.setSchemaToPublic, Routing.schemaOf_record_of_ne _ _ (Ne.symm h.1),
      Routing.schemaOf_restore, if_neg (Ne.symm h.1)]

/-- Leaving a tenant gives back the state around it, if the schema on its alias is right again. -/
theorem Sound.leave_tenant {f : Frame} {t : TenantSnapshot} (h : Sound s (f :: fs))
    (hf : f.tenant = some t) (hrest : Linked fs) (hbound : (f.cleanUp s).currentDb = Context.bound fs)
    (hother : ∀ a, a ≠ t.shard.dbAlias → (f.cleanUp s).schemaOf a = s.schemaOf a)
    (hsame : ∀ u, lastOn t.shard.dbAlias fs = some u →
      (f.cleanUp s).schemaOf t.shard.dbAlias = some u.schemaName) : Sound (f.cleanUp s) fs := by
  refine ⟨?_, hbound, hrest, ?_, ?_⟩
  · rw [h.linked.cleanUp_default]
    exact h.known
  · intro a u hu
    by_cases ha : a = t.shard.dbAlias
    · subst ha
      exact hsame u hu
    · rw [hother a ha]
      refine h.on a u ?_
      simp only [lastOn, hf, Ne.symm ha, if_false, hu]
  · intro tenant hmem
    rw [h.linked.cleanUp_default]
    exact h.requested tenant (List.mem_cons_of_mem _ hmem)

/-- Leaving the innermost block gives back the state around it. -/
theorem Sound.leave {f : Frame} (h : Sound s (f :: fs)) : Sound (f.cleanUp s) fs := by
  have hreq : ∀ tenant, .request tenant ∈ fs →
      s.schemaOf defaultAlias = some (requestSchema tenant) :=
    fun tenant hmem => h.requested tenant (List.mem_cons_of_mem _ hmem)
  have hlinked := h.linked
  cases f with
  | request tenant =>
    obtain rfl : fs = [] := hlinked
    refine ⟨h.known, h.bound, trivial, ?_, ?_⟩
    · intro a t ht
      cases ht
    · intro tenant hmem
      cases hmem
  | pinned token => exact ⟨h.known, hlinked.1, hlinked.2, h.on, hreq⟩
  | called => exact ⟨h.known, h.bound, hlinked, h.on, hreq⟩
  | switched t prev token =>
    obtain ⟨-, htoken, hrest, hprev⟩ := hlinked
    refine h.leave_tenant rfl hrest ?_ ?_ ?_
    · rw [← htoken]
      exact Routing.restore_currentDb ..
    · intro a ha
      rw [Frame.cleanUp, h.restored rfl, if_neg ha]
    · intro u hu
      rw [Frame.cleanUp, h.restored rfl, if_pos rfl, hprev u hu]
  | routed t prev token =>
    obtain ⟨-, htoken, hrest, hlast⟩ := hlinked
    refine h.leave_tenant rfl hrest ?_ ?_ ?_
    · rw [← htoken]
      exact Routing.restore_currentDb ..
    · intro a ha
      rw [Frame.cleanUp, Routing.setSchemaToPublic, Routing.schemaOf_record_of_ne _ _ ha,
        h.restored rfl, if_neg ha]
    · -- Nothing else is open there.
      intro u hu
      rw [hlast] at hu
      cases hu

/-- Entering `tenant_context`, whether the alias is known and whether the setter fails. -/
theorem Sound.enter {th : Thread} (h : Sound th.routing th.frames) {t : TenantSnapshot}
    (ht : t.shard.dbAlias ≠ defaultAlias) (fault : Option Bool) :
    Sound (th.enter t fault (.switched t)).routing (th.enter t fault (.switched t)).frames := by
  unfold Thread.enter
  cases hc : th.routing.connections t.shard.dbAlias with
  | none => exact h
  | some c =>
    cases fault with
    | some recorded => exact h.of_axes (Routing.failedEntry_axes recorded hc)
    | none =>
      refine h.entering hc rfl ⟨ht, h.bound, h.linked, ?_⟩
      intro u hu
      have hon := h.on _ u hu
      rw [Routing.schemaOf_of_connection hc] at hon
      exact Option.some.inj hon

/-- A request with no other block open, and its schema on `default`. -/
theorem Sound.request {tenant : Option Registered} (hdb : s.currentDb = none)
    (hdefault : s.schemaOf defaultAlias = some (requestSchema tenant)) :
    Sound s [.request tenant] := by
  refine ⟨?_, hdb, rfl, ?_, ?_⟩
  · rw [hdefault]
    rfl
  · intro a t ht
    cases ht
  · intro tenant' hmem
    obtain rfl : tenant' = tenant := by simpa using hmem
    exact hdefault

/-- The routing middleware, under a request whose tenant is known. -/
theorem Sound.route {th : Thread} {tenant : Option Registered} (fault : Option Bool)
    (h : Sound th.routing [.request tenant]) (hfs : th.frames = [.request tenant]) :
    Sound (th.route tenant fault).routing (th.route tenant fault).frames := by
  have hpin : Sound th.pin.routing th.pin.frames := by
    have hp := h.pin
    rwa [← hfs] at hp
  unfold Thread.route
  cases tenant with
  | none => exact hpin
  | some t =>
    by_cases hdefault : t.1.shard.dbAlias = defaultAlias
    · simp only [hdefault, if_true]
      exact hpin
    simp only [hdefault, if_false, Thread.enter]
    cases hc : th.routing.connections t.1.shard.dbAlias with
    | none =>
      rw [← hfs] at h
      exact h
    | some c =>
      cases fault with
      | none =>
        have hlinked : Linked (.routed t.1 c.tenant th.routing.currentDb :: [.request (some t)]) :=
          ⟨hdefault, h.bound, rfl, rfl⟩
        have hs := h.entering hc rfl hlinked
        rwa [← hfs] at hs
      | some recorded =>
        have hs : Sound (th.routing.failedEntry t.1 c.tenant recorded) [.request (some t)] :=
          h.of_axes (Routing.failedEntry_axes recorded hc)
        have hkeep : ((th.routing.failedEntry t.1 c.tenant recorded).setSchemaToPublic
            t.1.shard.dbAlias).schemaOf defaultAlias =
              (th.routing.failedEntry t.1 c.tenant recorded).schemaOf defaultAlias :=
          Routing.schemaOf_record_of_ne _ _ (Ne.symm hdefault)
        simp only [hfs]
        exact .request hs.bound (hkeep.trans (hs.requested (some t) (by simp)))

/-- Every move keeps the routing state in agreement with the open blocks. -/
theorem Sound.after {th th' : Thread} {act : Act} (h : Sound th.routing th.frames)
    (hstep : th.after act = some th') : Sound th'.routing th'.frames := by
  cases Thread.moved_of_after hstep with
  | requested hfs =>
    have hdefault : (th.routing.setSchemaToPublic defaultAlias).schemaOf defaultAlias =
        some publicSchemaName := by
      obtain ⟨n, hn⟩ := Option.isSome_iff_exists.mp h.known
      rw [Routing.setSchemaToPublic, Routing.schemaOf_record_self, hn]
      rfl
    rw [hfs] at h
    exact .request h.bound hdefault
  | resolved t hfs =>
    rw [hfs] at h
    have hdefault : (th.routing.record defaultAlias (.tenant t.1)).schemaOf defaultAlias =
        some t.1.schemaName := by
      rw [Routing.schemaOf_record_self, h.requested none (by simp)]
      rfl
    exact .request h.bound hdefault
  | routed tenant fault hfs =>
    rw [hfs] at h
    exact h.route fault hfs
  | entered act t fault ht => exact h.enter ht fault
  | called header tenant fault =>
    refine ⟨h.known, h.bound, h.linked, h.on, ?_⟩
    intro tenant hmem
    have hmem : .request tenant ∈ th.frames := by simpa using hmem
    exact h.requested tenant hmem
  | pinned header tenant fault hpublic => exact h.pin
  | refused => exact h
  | left f fs hfs =>
    rw [hfs] at h
    exact h.leave

end Steps

section Known

/-- Restoring makes no alias known. -/
theorem Routing.known_restore (s : Routing) (a : Alias) (prev : Option Recorded)
    (token : Option Alias) : (s.restore a prev token).known = s.known := by
  cases prev with
  | none => exact Routing.known_record s a _
  | some t => exact Routing.known_record s a t

/-- Entering a context makes no alias known. -/
theorem Routing.known_entering (s : Routing) (t : TenantSnapshot) :
    (s.entering t).known = s.known := Routing.known_record _ _ _

/-- Entering a context makes no alias of the thread known. -/
theorem Thread.known_enter (th : Thread) (t : TenantSnapshot) (fault : Option Bool)
    (opened : Option Recorded → Option Alias → Frame) :
    (th.enter t fault opened).routing.known = th.routing.known := by
  unfold Thread.enter
  cases hc : th.routing.connections t.shard.dbAlias with
  | none => rfl
  | some c =>
    cases fault with
    | none => exact Routing.known_entering _ _
    | some recorded =>
      simp only [Routing.failedEntry, Routing.known_restore]
      cases recorded with
      | false => rfl
      | true => exact Routing.known_entering _ _

/-- Routing a task makes no alias of the thread known. -/
theorem Thread.known_route (th : Thread) (tenant : Option Registered) (fault : Option Bool) :
    (th.route tenant fault).routing.known = th.routing.known := by
  unfold Thread.route
  cases tenant with
  | none => rfl
  | some t =>
    simp only
    split
    · rfl
    · split
      · rw [Routing.setSchemaToPublic, Routing.known_record]
        exact th.known_enter _ _ _
      · exact th.known_enter _ _ _

/-- Leaving a context makes no alias known. -/
theorem Frame.known_cleanUp (f : Frame) (s : Routing) : (f.cleanUp s).known = s.known := by
  cases f with
  | request tenant => rfl
  | pinned token => rfl
  | called => rfl
  | switched t prev token => exact Routing.known_restore ..
  | routed t prev token =>
    rw [Frame.cleanUp, Routing.setSchemaToPublic, Routing.known_record, Routing.known_restore]

/-- The aliases of `settings.DATABASES` stay the same. -/
theorem Thread.known_after {th th' : Thread} {act : Act} (hstep : th.after act = some th') :
    th'.routing.known = th.routing.known := by
  cases Thread.moved_of_after hstep with
  | requested => exact Routing.known_record _ _ _
  | resolved t => exact Routing.known_record _ _ _
  | routed tenant fault => exact th.known_route tenant fault
  | entered act t fault => exact th.known_enter t fault _
  | called => rfl
  | pinned => rfl
  | refused => rfl
  | left f fs => exact f.known_cleanUp _

end Known

section Pins

variable {th th' : Thread}

/-- Wherever a block pins the router to `default`, that connection is on public. -/
def PinsPublic (th : Thread) : Prop :=
  ∀ token, .pinned token ∈ th.frames →
    th.routing.schemaOf defaultAlias = some publicSchemaName

/-- A task sent with the public header is run only while `default` is on public. -/
def Act.PublicSafe (th : Thread) : Act → Prop
  | .task header _ _ => orElse header "" = publicSchemaName →
      th.routing.schemaOf defaultAlias = some publicSchemaName
  | _ => True

/-- Entering a tenant outside `default` opens no pin. -/
theorem PinsPublic.enter (h : PinsPublic th) {t : TenantSnapshot}
    (ht : t.shard.dbAlias ≠ defaultAlias) (fault : Option Bool)
    (opened : Option Recorded → Option Alias → Frame)
    (hopen : ∀ prev token, (opened prev token).tenant = some t) :
    PinsPublic (th.enter t fault opened) := by
  unfold Thread.enter
  cases hc : th.routing.connections t.shard.dbAlias with
  | none => exact h
  | some c =>
    cases fault with
    | some recorded =>
      intro token hmem
      have haxes := (Routing.axes_eq_iff _ _).mp (Routing.failedEntry_axes recorded hc)
      exact (haxes.2 _).trans (h token hmem)
    | none =>
      intro token hmem
      rcases List.mem_cons.mp hmem with heq | hmem
      · have hnone := hopen c.tenant th.routing.currentDb
        rw [← heq] at hnone
        cases hnone
      · rw [Routing.schemaOf_entering _ hc, if_neg ht]
        exact h token hmem

/-- Under a request the middleware pins `default` only for the public tenant. -/
theorem PinsPublic.route {tenant : Option Registered} (fault : Option Bool)
    (hs : Sound th.routing [.request tenant]) (hfs : th.frames = [.request tenant]) :
    PinsPublic (th.route tenant fault) := by
  have hnone : PinsPublic th := by
    intro token hmem
    rw [hfs] at hmem
    simp at hmem
  have hdefault := hs.requested tenant (by simp)
  unfold Thread.route
  cases tenant with
  | none => exact fun _ _ => hdefault
  | some t =>
    by_cases hplace : t.1.shard.dbAlias = defaultAlias
    · simp only [hplace, if_true]
      have hpublic : t.1.schemaName = publicSchemaName := t.2.mpr hplace
      intro _ _
      rw [← hpublic]
      exact hdefault
    simp only [hplace, if_false]
    have henter := hnone.enter hplace fault (.routed t.1) fun _ _ => rfl
    cases hc : th.routing.connections t.1.shard.dbAlias with
    | none => exact henter
    | some c =>
      cases fault with
      | none => exact henter
      | some recorded =>
        intro token hmem
        have hmem : .pinned token ∈ th.frames := hmem
        rw [hfs] at hmem
        simp at hmem

/-- A move keeps the pins on public, as long as public tasks are run there. -/
theorem PinsPublic.after {act : Act} (hs : Sound th.routing th.frames) (h : PinsPublic th)
    (hsafe : act.PublicSafe th) (hstep : th.after act = some th') : PinsPublic th' := by
  cases Thread.moved_of_after hstep with
  | requested => exact fun token hmem => by simp at hmem
  | resolved t => exact fun token hmem => by simp at hmem
  | routed tenant fault hfs =>
    rw [hfs] at hs
    exact PinsPublic.route fault hs hfs
  | entered act t fault ht => exact h.enter ht fault _ fun _ _ => rfl
  | called header tenant fault =>
    intro token hmem
    have hmem : .pinned token ∈ th.frames := by simpa using hmem
    exact h token hmem
  | pinned header tenant fault hpublic => exact fun _ _ => hsafe hpublic
  | refused => exact h
  | left f fs hfs =>
    intro token hmem
    have hlinked := hs.linked
    rw [hfs] at hlinked
    have hmem : .pinned token ∈ th.frames := by
      rw [hfs]
      exact List.mem_cons_of_mem f hmem
    exact hlinked.cleanUp_default.trans (h token hmem)

end Pins

section Queries

variable {cfg : RouterSettings} {m : Model} {th : Thread}

/-- The alias is the bound one, not `default`, and the connection under it is on the
schema of the innermost entered tenant, which is not public. -/
def Confined (th : Thread) (a : Alias) : Prop :=
  th.routing.currentDb = some a ∧ a ≠ defaultAlias ∧
    ∃ t, innermost th.frames = some t ∧ t.schemaName ≠ publicSchemaName ∧
      th.routing.schemaOf a = some t.schemaName

/-- Whatever alias the router answers for a model here is confined. -/
def Confines (cfg : RouterSettings) (m : Model) (th : Thread) : Prop :=
  ∀ a, cfg.dbForRead m th.routing = .ok a ∨ cfg.dbForWrite m th.routing = .ok a → Confined th a

/-- A bound alias other than `default` is that of the innermost entered tenant. -/
theorem innermost_of_bound {fs : List Frame} {a : Alias} (h : bound fs = some a)
    (ha : a ≠ defaultAlias) : ∃ t, innermost fs = some t ∧ lastOn a fs = some t := by
  induction fs with
  | nil => cases h
  | cons f fs ih =>
    cases f with
    | request tenant => exact ih h
    | called => exact ih h
    | pinned token => exact absurd (Option.some.inj h).symm ha
    | switched t prev token =>
      have ht : t.shard.dbAlias = a := Option.some.inj h
      exact ⟨t, rfl, by simp only [lastOn, Frame.tenant, ht, if_true]⟩
    | routed t prev token =>
      have ht : t.shard.dbAlias = a := Option.some.inj h
      exact ⟨t, rfl, by simp only [lastOn, Frame.tenant, ht, if_true]⟩

/-- Only a pin binds `default`. -/
theorem pinned_of_bound {fs : List Frame} (hl : Linked fs) (h : bound fs = some defaultAlias) :
    ∃ token, .pinned token ∈ fs := by
  induction fs with
  | nil => cases h
  | cons f fs ih =>
    cases f with
    | request tenant =>
      obtain rfl : fs = [] := hl
      cases h
    | called =>
      obtain ⟨token, hmem⟩ := ih hl h
      exact ⟨token, List.mem_cons_of_mem _ hmem⟩
    | pinned token => exact ⟨token, by simp⟩
    | switched t prev token => exact absurd (Option.some.inj h) hl.1
    | routed t prev token => exact absurd (Option.some.inj h) hl.1

/-- The router confines a policed model at a point of a thread exactly when the point
is not pinned to `default` off the public schema. -/
theorem confines_iff (hm : cfg.Policed m) (hg : cfg.publicModelGuard = .raise)
    (hs : Sound th.routing th.frames) (hempty : th.routing.known "" = false) :
    Confines cfg m th ↔ (bound th.frames = some defaultAlias →
      th.routing.schemaOf defaultAlias = some publicSchemaName) := by
  constructor
  · intro h hbound
    by_contra hoff
    have hread : cfg.dbForRead m th.routing = .ok defaultAlias := by
      rw [RouterSettings.dbForRead_ok_iff hm hg]
      exact ⟨hs.bound.trans hbound, hoff⟩
    exact (h defaultAlias (Or.inl hread)).2.1 rfl
  · intro h a hread
    have hread : cfg.dbForRead m th.routing = .ok a := hread.elim id id
    obtain ⟨hdb, hoff⟩ := (RouterSettings.dbForRead_ok_iff hm hg).mp hread
    have hbound : bound th.frames = some a := hs.bound.symm.trans hdb
    have ha : a ≠ defaultAlias := by
      rintro rfl
      exact hoff (h hbound)
    obtain ⟨t, hinner, hlast⟩ := innermost_of_bound hbound ha
    have hschema := hs.on a t hlast
    have hne : a ≠ "" := by
      rintro rfl
      rw [Routing.known_eq_schemaOf, hschema] at hempty
      cases hempty
    have hpublic : t.schemaName ≠ publicSchemaName := by
      intro hp
      simp only [orElse, hne, if_false] at hoff
      exact hoff (hschema.trans (congrArg some hp))
    exact ⟨hdb, ha, t, hinner, hpublic, hschema⟩

/-- The invariants along a trace. -/
theorem Thread.Trace.sound {th₀ th : Thread} {tr : List (Thread × Act)} (h₀ : th₀.NoContext)
    (htr : Thread.Trace th₀ tr th) :
    Sound th.routing th.frames ∧ th.routing.known = th₀.routing.known := by
  induction htr with
  | start => exact ⟨h₀.sound, rfl⟩
  | move act _ hstep ih =>
    exact ⟨ih.1.after hstep, (Thread.known_after hstep).trans ih.2⟩

/-- The pins along a trace whose public tasks are all run on public. -/
theorem Thread.Trace.pinsPublic {th₀ th : Thread} {tr : List (Thread × Act)}
    (h₀ : th₀.NoContext) (htr : Thread.Trace th₀ tr th)
    (hsafe : ∀ x ∈ tr, x.2.PublicSafe x.1) : PinsPublic th := by
  induction htr with
  | start =>
    intro token hmem
    rw [h₀.noFrame] at hmem
    cases hmem
  | @move tr th th' act hprev hstep ih =>
    have hbefore := ih fun x hx => hsafe x (List.mem_append_left _ hx)
    have hlast := hsafe (th, act) (by simp)
    exact hbefore.after (hprev.sound h₀).1 hlast hstep

/-- In every run of requests, tenant contexts and tasks from a thread with no context,
the router confines a policed model at every point reached if and only if each task
with the public header is run while the `default` connection is on public. -/
theorem tenant_queries_confined (hm : cfg.Policed m) (hg : cfg.publicModelGuard = .raise)
    {th₀ : Thread} {tr : List (Thread × Act)} (h₀ : th₀.NoContext)
    (hempty : th₀.routing.known "" = false) (htr : Thread.Trace th₀ tr th) :
    ((∀ x ∈ tr, Confines cfg m x.1) ∧ Confines cfg m th) ↔ ∀ x ∈ tr, x.2.PublicSafe x.1 := by
  induction htr with
  | start =>
    have hstart : Confines cfg m th₀ := by
      rw [confines_iff hm hg h₀.sound hempty, h₀.noFrame]
      intro h
      cases h
    simp only [List.not_mem_nil, false_implies, implies_true, true_and, iff_true]
    exact hstart
  | @move tr th th' act hprev hstep ih =>
    obtain ⟨hs, hknown⟩ := (hprev.move act hstep).sound h₀
    have hempty' : th'.routing.known "" = false := by
      rw [hknown]
      exact hempty
    have hiff := confines_iff hm hg hs hempty'
    constructor
    · rintro ⟨hall, hlast⟩ x hx
      have hbefore := ih.mp ⟨fun x hx => hall x (List.mem_append_left _ hx),
        hall (th, act) (by simp)⟩
      rcases List.mem_append.mp hx with hx | hx
      · exact hbefore x hx
      · obtain rfl : x = (th, act) := by simpa using hx
        cases act with
        | task header tenant fault =>
          intro hpublic
          -- The move pins `default`; confinement just after it needs public there.
          have hne : ¬ publicSchemaName = "" := by decide
          simp only [Thread.after, hpublic, hne, if_false, if_true] at hstep
          obtain rfl := Option.some.inj hstep
          exact hiff.mp hlast rfl
        | _ => trivial
    · intro hsafe
      have hbefore := ih.mpr fun x hx => hsafe x (List.mem_append_left _ hx)
      refine ⟨?_, ?_⟩
      · intro x hx
        rcases List.mem_append.mp hx with hx | hx
        · exact hbefore.1 x hx
        · obtain rfl : x = (th, act) := by simpa using hx
          exact hbefore.2
      · rw [hiff]
        intro hbound
        obtain ⟨token, hmem⟩ := pinned_of_bound hs.linked hbound
        exact (hprev.move act hstep).pinsPublic h₀ hsafe token hmem

end Queries

section Example

/-- The business apps have tables in public as well; `products` is one of them. -/
def productSettings : RouterSettings where
  sharedApps := ["tenants", "products"]
  tenantApps := ["products"]
  appInList label apps := apps.contains label
  appConfigs := [⟨"tenants", "tenants", "tenants.apps.TenantsConfig"⟩,
    ⟨"products", "products", "products.apps.ProductsConfig"⟩]
  strictRouteApps := ["products"]
  publicModelGuard := .raise
  publicModelAllowlist := ["users.user"]

/-- `products.Product`. -/
def product : Model := ⟨"products", "Product", "product"⟩

/-- The products belong to a strict app. -/
theorem product_policed : productSettings.Policed product :=
  ⟨by decide, ⟨["products"], rfl, by decide⟩, by decide⟩

/-- Two tenants on one shard, and the thread that serves them: a fresh one. -/
def acmeTenant : Registered := ⟨⟨1, "acme", .active, ⟨2, "shard1"⟩⟩, by decide⟩

def globexTenant : Registered := ⟨⟨2, "globex", .active, ⟨2, "shard1"⟩⟩, by decide⟩

def freshThread : Thread where
  routing :=
    { currentDb := none
      connections := fun a => if a = "default" ∨ a = "shard1" then some ⟨none⟩ else none }
  frames := []

/-- A fresh thread has no context. -/
theorem freshThread_noContext : freshThread.NoContext := ⟨rfl, rfl, by decide⟩

/-- The thread after a list of moves. -/
def Thread.afterAll (th : Thread) : List Act → Option Thread
  | [] => some th
  | act :: acts => (th.after act).bind fun th' => th'.afterAll acts

/-- Moves that can all be made form a trace. -/
theorem Thread.Trace.of_afterAll {th th' : Thread} {acts : List Act}
    (h : th.afterAll acts = some th') :
    ∃ tr : List (Thread × Act), tr.map Prod.snd = acts ∧ Thread.Trace th tr th' := by
  induction acts generalizing th with
  | nil =>
    obtain rfl := Option.some.inj h
    exact ⟨[], rfl, .start⟩
  | cons act acts ih =>
    obtain ⟨th₁, hstep, hrest⟩ := Option.bind_eq_some_iff.mp h
    obtain ⟨tr, htr, htrace⟩ := ih hrest
    refine ⟨(th, act) :: tr, by rw [List.map_cons, htr], ?_⟩
    exact (Thread.Trace.single act hstep).append htrace

/-- A request of acme in which a task of globex is run eagerly. -/
def eagerTask : List Act :=
  [.processRequest, .setTenant acmeTenant, .route none, .task (some "globex") globexTenant none]

/-- Inside the task, and again in the request after it, the router confines products. -/
theorem tenant_queries_confined_eager_task :
    ∃ tr th, Thread.Trace freshThread tr th ∧
      productSettings.dbForRead product th.routing = .ok "shard1" ∧
      th.routing.schemaOf "shard1" = some "globex" ∧
      (∀ x ∈ tr, Confines productSettings product x.1) ∧ Confines productSettings product th := by
  obtain ⟨th, hth⟩ : ∃ th, freshThread.afterAll eagerTask = some th := ⟨_, rfl⟩
  obtain ⟨tr, hacts, htr⟩ := Thread.Trace.of_afterAll hth
  have hsafe : ∀ x ∈ tr, x.2.PublicSafe x.1 := by
    intro x hx
    have hact : x.2 ∈ eagerTask := hacts ▸ List.mem_map_of_mem hx
    simp only [eagerTask, List.mem_cons, List.not_mem_nil, or_false] at hact
    rcases hact with h | h | h | h
    all_goals rw [h]
    · trivial
    · trivial
    · trivial
    · intro hpublic
      exact absurd hpublic (by decide)
  have hconfined := (tenant_queries_confined product_policed rfl freshThread_noContext
    (by decide) htr).mpr hsafe
  obtain rfl := Option.some.inj hth
  refine ⟨tr, _, htr, ?_, by decide, hconfined⟩
  rw [RouterSettings.dbForRead_ok_iff product_policed rfl]
  exact ⟨rfl, by decide⟩

/-- A request of acme in which a task with the public header is run eagerly. -/
def eagerPublicTask : List Act :=
  [.processRequest, .setTenant acmeTenant, .route none, .task (some "public") none none]

/-- Inside the public task the router sends products to `default`, whose connection is
still on the schema of the served tenant. -/
theorem public_task_escapes :
    ∃ tr th, Thread.Trace freshThread tr th ∧
      productSettings.dbForRead product th.routing = .ok "default" ∧
      th.routing.schemaOf "default" = some "acme" ∧ ¬ Confines productSettings product th := by
  obtain ⟨th, hth⟩ : ∃ th, freshThread.afterAll eagerPublicTask = some th := ⟨_, rfl⟩
  obtain ⟨tr, -, htr⟩ := Thread.Trace.of_afterAll hth
  obtain rfl := Option.some.inj hth
  refine ⟨tr, _, htr, ?_, by decide, ?_⟩
  · rw [RouterSettings.dbForRead_ok_iff product_policed rfl]
    exact ⟨rfl, by decide⟩
  · intro h
    obtain ⟨-, hne, -⟩ := h "default" (Or.inl
      ((RouterSettings.dbForRead_ok_iff product_policed rfl).mpr ⟨rfl, by decide⟩))
    exact hne rfl

end Example

end MtShards.Context
