import MtShards.Core.Solo
import MtShards.Models.Auth.Binding

/-!
# Credentials stay on their tenant

Whoever acts on a tenant was let in on that tenant. The session store is one for all tenants and
every token bears the same signature, so what the clients present may come from anywhere; that it is
of use on no other tenant is an invariant of runs, carried by the stored sessions, by the tokens
that were sent and by what each process has seen.
-/

namespace MtShards.Auth

open MtShards.Core

variable {lib : Libraries} {s₀ s s' : World} {tr : Trace} {κ : Known}
  {c : Config Pid Req Req.Ans Exn World}

/-- Credentials were accepted for a user of a schema. -/
def Accepted (tr : Trace) (schema : SchemaName) (u : User) : Prop :=
  ∃ e ∈ tr, ∃ p a n pw, e.label = .answer p (.authenticate a schema n pw) (.ok (some u))

/-- A user has logged in on a schema, at an entry that let the user in. -/
def LoggedIn (tr : Trace) (schema : SchemaName) (uid : Uid) (lets : User → Prop) : Prop :=
  ∃ u, Accepted tr schema u ∧ u.id = uid ∧ lets u

/-- The session is that of a login. -/
def Backed (tr : Trace) (d : Session) : Prop :=
  ∀ uid schema, d.userId = some uid → d.schema = some schema →
    LoggedIn tr schema uid fun u => u.isStaff

/-- The token goes back to a login. -/
def Issued (tr : Trace) (c : Claims) : Prop :=
  ∀ schema, c.schema = some schema → LoggedIn tr schema c.userId (MayObtain schema)

/-- What a process has seen goes back to logins. -/
structure Explained (tr : Trace) (κ : Known) : Prop where
  session : ∀ d, κ.session = some d → Backed tr d
  token : ∀ c, κ.token = some c → Issued tr c
  login : ∀ schema u, κ.login = some (schema, u) → Accepted tr schema u

/-- All that is stored, sent or seen goes back to logins. -/
structure Inv (tr : Trace) (s : World) : Prop where
  sessions : ∀ k d, s.sessions k = some d → Backed tr d
  tokens : ∀ c ∈ s.tokens, Issued tr c
  known : ∀ p, Explained tr (phaseAt binding p tr)

/-- No user was bound to a tenant yet. -/
structure Unbound (s : World) : Prop where
  sessions : ∀ k d, s.sessions k = some d → d.userId = none ∨ d.schema = none
  tokens : ∀ c ∈ s.tokens, c.schema = none

/-! ### Later steps -/

section Later

variable {e : Entry Pid Req Req.Ans Exn World} {schema : SchemaName} {uid : Uid} {u : User}
  {d : Session} {cl : Claims} {lets : User → Prop}

/-- A login that was accepted stays so in a longer run. -/
theorem Accepted.later (h : Accepted tr schema u) : Accepted (e :: tr) schema u := by
  obtain ⟨e', he', h⟩ := h
  exact ⟨e', List.mem_cons_of_mem _ he', h⟩

/-- A user that was logged in stays so in a longer run. -/
theorem LoggedIn.later (h : LoggedIn tr schema uid lets) : LoggedIn (e :: tr) schema uid lets := by
  obtain ⟨u, hu, h⟩ := h
  exact ⟨u, hu.later, h⟩

/-- Session data stay backed in a longer run. -/
theorem Backed.later (h : Backed tr d) : Backed (e :: tr) d :=
  fun uid schema huid hschema => (h uid schema huid hschema).later

/-- A token that was issued stays so in a longer run. -/
theorem Issued.later (h : Issued tr cl) : Issued (e :: tr) cl :=
  fun schema hschema => (h schema hschema).later

/-- What a request knows stays explained in a longer run. -/
theorem Explained.later (h : Explained tr κ) : Explained (e :: tr) κ where
  session d hd := (h.session d hd).later
  token cl hcl := (h.token cl hcl).later
  login schema u hu := (h.login schema u hu).later

/-- A request that knows nothing needs no explanation. -/
theorem explained_nothing : Explained tr .nothing where
  session _ hd := by cases hd
  token _ hc := by cases hc
  login _ _ hu := by cases hu

end Later

/-! ### What is stored and sent -/

/-- What a process may store is the session of a login. -/
theorem Explained.mayStore (h : Explained tr κ) {d : Session} (hd : κ.MayStore d) :
    Backed tr d := by
  rcases hd with ⟨d₀, hd₀, huid, hschema⟩ | ⟨schema, u, hu, hstaff, huid, hschema⟩
  · intro uid' schema' huid' hschema'
    exact h.session d₀ hd₀ uid' schema' (huid ▸ huid') (hschema ▸ hschema')
  · intro uid' schema' huid' hschema'
    obtain rfl : schema = schema' := Option.some.inj (hschema.symm.trans hschema')
    have hid : u.id = uid' := Option.some.inj (huid.symm.trans huid')
    exact ⟨u, h.login schema u hu, hid, hstaff⟩

/-- What a process may send goes back to a login. -/
theorem Explained.maySend (h : Explained tr κ) {cl : Claims} (hc : κ.MaySend cl) :
    Issued tr cl := by
  rcases hc with ⟨schema, u, hu, hmay, huid, hschema⟩ | ⟨c₀, hc₀, huid, hschema⟩
  · intro schema' hschema'
    obtain rfl : schema = schema' := Option.some.inj (hschema.symm.trans hschema')
    exact ⟨u, h.login schema u hu, huid.symm, hmay⟩
  · intro schema' hschema'
    rw [huid]
    exact h.token c₀ hc₀ schema' (hschema ▸ hschema')

/-! ### One answer -/

section Answer

variable {p : Pid} {op : Req}

/-- An answer adds to what a process has seen nothing that does not go back to a login. -/
theorem Inv.explained_next (h : Inv tr s) {r : Except Exn op.Ans}
    (hexec : machine.exec p op s r s') :
    Explained (⟨.answer p op r, s, s'⟩ :: tr) ((phaseAt binding p tr).next op r) := by
  have hκ := h.known p
  cases r with
  | error e =>
    rw [Known.next_error]
    exact hκ.later
  | ok a =>
    have hserves : s.Serves op a s' := hexec
    cases hserves with
    | resolve host found =>
      cases found with
      | none => exact hκ.later
      | some t => exact { hκ.later with }
    | rejected => exact hκ.later
    | authenticated a schema n pw u _ _ _ =>
      refine { hκ.later with login := fun schema' u' heq => ?_ }
      obtain ⟨rfl, rfl⟩ := Prod.mk.inj (Option.some.inj heq)
      exact ⟨_, List.mem_cons_self, p, a, n, pw, rfl⟩
    | getUser a schema uid =>
      cases hu : s.users a schema uid with
      | none => exact hκ.later
      | some u => exact { hκ.later with }
    | verify cl =>
      by_cases hcl : cl ∈ s.tokens ∧ s.clock < cl.exp
      · simp only [hcl, and_self, decide_true]
        refine { hκ.later with token := fun cl' heq => ?_ }
        obtain rfl := Option.some.inj heq
        exact (h.tokens cl hcl.1).later
      · simp only [hcl, decide_false]
        exact hκ.later
    | loadSession k =>
      cases hd : s.sessions k with
      | none => exact hκ.later
      | some d =>
        refine { hκ.later with session := fun d' heq => ?_ }
        obtain rfl := Option.some.inj heq
        exact (h.sessions k d hd).later
    | _ => exact hκ.later

/-- A session that is stored in the place of another is that of a login. -/
theorem Inv.putSession (h : Inv tr s) {k : SessionKey} {d : Option Session}
    (hd : ∀ d', d = some d' → Backed tr d') {k' : SessionKey} {d' : Session}
    (hk : (s.putSession k d).sessions k' = some d') : Backed tr d' := by
  by_cases heq : k' = k
  · subst heq
    exact hd d' (by simpa [World.putSession] using hk)
  · exact h.sessions k' d' (by simpa [World.putSession, heq] using hk)

/-- A permitted request leaves only sessions of logins in the store. -/
theorem Inv.sessions_next (h : Inv tr s) {a : op.Ans} (hserves : s.Serves op a s')
    (hperm : binding.permits (phaseAt binding p tr) op) {k : SessionKey} {d : Session}
    (hd : s'.sessions k = some d) : Backed tr d := by
  cases hserves with
  | createSession d' k' _ =>
    refine h.putSession (fun d'' heq => ?_) hd
    obtain rfl := Option.some.inj heq
    exact (h.known p).mayStore hperm
  | saveSession k' d' _ =>
    refine h.putSession (fun d'' heq => ?_) hd
    obtain rfl := Option.some.inj heq
    exact (h.known p).mayStore hperm
  | deleteSession k' => exact h.putSession (by simp) hd
  | _ => exact h.sessions k d hd

/-- A permitted request sends only tokens that go back to a login. -/
theorem Inv.tokens_next (h : Inv tr s) {a : op.Ans} (hserves : s.Serves op a s')
    (hperm : binding.permits (phaseAt binding p tr) op) {cl : Claims} (hcl : cl ∈ s'.tokens) :
    Issued tr cl := by
  cases hserves with
  | send cs =>
    rcases List.mem_append.mp hcl with hnew | hold
    · exact (h.known p).maySend (hperm cl hnew)
    · exact h.tokens cl hold
  | _ => exact h.tokens cl hcl

/-- A permitted request keeps the invariant. -/
theorem Inv.answer (h : Inv tr s) {r : Except Exn op.Ans}
    (hperm : binding.permits (phaseAt binding p tr) op) (hexec : machine.exec p op s r s') :
    Inv (⟨.answer p op r, s, s'⟩ :: tr) s' := by
  have hknown (q : Pid) : Explained (⟨.answer p op r, s, s'⟩ :: tr)
      (phaseAt binding q (⟨.answer p op r, s, s'⟩ :: tr)) := by
    by_cases hq : p = q
    · subst hq
      rw [phaseAt_answer_self]
      exact h.explained_next hexec
    · rw [phaseAt_answer_of_ne hq]
      exact (h.known q).later
  cases r with
  | error e =>
    obtain rfl : s' = s := hexec
    exact ⟨fun k d hd => (h.sessions k d hd).later, fun cl hcl => (h.tokens cl hcl).later, hknown⟩
  | ok a =>
    exact ⟨fun k d hd => (h.sessions_next hexec hperm hd).later,
      fun cl hcl => (h.tokens_next hexec hperm hcl).later, hknown⟩

end Answer

/-! ### Runs -/

/-- A system whose sessions are unbound meets the invariant. -/
theorem Unbound.inv (h : Unbound s) : Inv [] s where
  sessions k d hd uid schema huid hschema := by
    rcases h.sessions k d hd with hnone | hnone <;> simp_all
  tokens cl hcl schema hschema := by simp [h.tokens cl hcl] at hschema
  known _ := explained_nothing

/-- The rows of the world change, and credentials at most disappear. -/
theorem Inv.drifts (h : Inv tr s) (hs : s.Drifts s') : Inv (⟨.env, s, s'⟩ :: tr) s' where
  sessions k d hd := by
    rcases hs.2 k with hnone | hsame
    · simp [hnone] at hd
    · exact (h.sessions k d (hsame ▸ hd)).later
  tokens cl hcl := (h.tokens cl (hs.1 ▸ hcl)).later
  known p := (h.known p).later

/-- A step that touches neither the store nor the tokens, and makes no process know more. -/
theorem Inv.same (h : Inv tr s) {e : Entry Pid Req Req.Ans Exn World}
    (hknown : ∀ p, phaseAt binding p (e :: tr) = phaseAt binding p tr ∨
      phaseAt binding p (e :: tr) = .nothing) : Inv (e :: tr) s where
  sessions k d hd := (h.sessions k d hd).later
  tokens cl hcl := (h.tokens cl hcl).later
  known p := by
    rcases hknown p with hsame | hnothing
    · rw [hsame]
      exact (h.known p).later
    · rw [hnothing]
      exact explained_nothing

/-- Every step of a run keeps the invariant. -/
theorem Inv.move {l : Label Pid Req Req.Ans Exn} (h : Inv tr s)
    (hmove : Move machine binding tr s l s') : Inv (⟨l, s, s'⟩ :: tr) s' := by
  cases hmove with
  | @start q _ =>
    refine h.same fun p => ?_
    by_cases hq : q = p
    · subst hq
      exact .inr phaseAt_start_self
    · exact .inl (phaseAt_start_of_ne hq)
  | inner _ hinner =>
    obtain rfl : s' = s := hinner
    exact h.same fun p => .inl phaseAt_inner
  | answer hperm hexec => exact h.answer hperm hexec
  | env henv => exact h.drifts henv
  | @kill q _ hkill =>
    obtain rfl : s' = s := hkill
    refine h.same fun p => ?_
    by_cases hq : q = p
    · subst hq
      exact .inr phaseAt_kill_self
    · exact .inl (phaseAt_kill_of_ne hq)

/-- Along every run all credentials go back to logins. -/
theorem Inv.run (hlib : lib.Documented) (h₀ : Unbound s₀) (h : SysRun lib s₀ tr c) :
    Inv tr c.shared :=
  Run.invariant (allFollow hlib) Inv h₀.inv (fun _ _ _ _ hinv hmove => hinv.move hmove) h

/-! ### What was seen in a call -/

/-- A process was given this answer in its present call. -/
def Did (tr : Trace) (p : Pid) (op : Req) (a : op.Ans) : Prop :=
  ∃ s s', ⟨op, .ok a, s, s'⟩ ∈ takenBy p tr

/-- What a process knows of the tenant and of the row, it was told in its present call. -/
structure Told (l : List (Taken Req Req.Ans Exn World)) (κ : Known) : Prop where
  tenant : ∀ t, κ.tenant = some t → ∃ host s s', ⟨.resolve host, .ok (some t), s, s'⟩ ∈ l
  row : ∀ x, κ.row = some x →
    ∃ s s', ⟨.getUser x.dbAlias x.schema x.uid, .ok (some x.user), s, s'⟩ ∈ l

private theorem told_nothing : Told [] .nothing where
  tenant _ ht := by cases ht
  row _ hx := by cases hx

/-- What a request was told stays so. -/
theorem Told.later {l : List (Taken Req Req.Ans Exn World)} (h : Told l κ)
    (z : Taken Req Req.Ans Exn World) : Told (z :: l) κ where
  tenant t ht := by
    obtain ⟨host, s, s', hmem⟩ := h.tenant t ht
    exact ⟨host, s, s', List.mem_cons_of_mem _ hmem⟩
  row x hx := by
    obtain ⟨s, s', hmem⟩ := h.row x hx
    exact ⟨s, s', List.mem_cons_of_mem _ hmem⟩

/-- What an answer tells was told. -/
theorem Told.next {l : List (Taken Req Req.Ans Exn World)} (h : Told l κ) (op : Req)
    (r : Except Exn op.Ans) (s s' : World) : Told (⟨op, r, s, s'⟩ :: l) (κ.next op r) := by
  have hlater := h.later ⟨op, r, s, s'⟩
  cases r with
  | error e =>
    rw [Known.next_error]
    exact hlater
  | ok a =>
    cases op with
    | resolve host =>
      cases a with
      | none => exact hlater
      | some t =>
        refine { hlater with tenant := fun t' heq => ?_ }
        obtain rfl := Option.some.inj heq
        exact ⟨host, s, s', List.mem_cons_self⟩
    | getUser b schema uid =>
      cases a with
      | none => exact hlater
      | some u =>
        refine { hlater with row := fun x heq => ?_ }
        obtain rfl := Option.some.inj heq
        exact ⟨s, s', List.mem_cons_self⟩
    | authenticate b schema n pw =>
      cases a with
      | none => exact hlater
      | some u => exact { hlater with }
    | loadSession k =>
      cases a with
      | none => exact hlater
      | some d => exact { hlater with }
    | verify cl =>
      cases a with
      | false => exact hlater
      | true => exact { hlater with }
    | _ => exact hlater

private theorem told_phaseAt (p : Pid) (tr : Trace) : Told (takenBy p tr) (phaseAt binding p tr) := by
  rw [phaseAt_eq_phaseOf]
  induction takenBy p tr with
  | nil => exact told_nothing
  | cons z l ih => exact ih.next z.op z.answer z.pre z.post

/-! ### A company administrator reads the cars -/

/-- The libraries with plain hashes. -/
def plain : Libraries where
  forUser now u := ⟨.refresh, u.id, now + 604800, none, none, none⟩
  accessToken now cl := { cl with tokenType := .access, exp := now + 3600 }
  login d u := (⟨some u.id, some u.password, none⟩, d.any fun d => d.userId = some u.id)
  verifies d u := d.authHash = some u.password

private theorem plain_documented : plain.Documented where
  forUser_userId _ _ := rfl
  accessToken_userId _ _ := rfl
  accessToken_schema _ _ := rfl
  login_userId _ _ := rfl

def acme : TenantSnapshot := ⟨2, "acme", .active, ⟨1, "shard1"⟩⟩

def ada : User := ⟨1, "ada", "secret", .companyAdmin, true, false⟩

/-- One user, and no credentials yet. -/
def oneUser : World where
  clock := 0
  users a schema uid := if a = "shard1" ∧ schema = "acme" ∧ uid = 1 then some ada else none
  users_id a schema uid u h := by
    split_ifs at h with hat
    obtain rfl := Option.some.inj h
    exact hat.2.2.symm
  sessions _ := none
  tokens := []

private theorem oneUser_unbound : Unbound oneUser where
  sessions k d hd := by simp [oneUser] at hd
  tokens cl hcl := by simp [oneUser] at hcl

def logsIn : Request :=
  ⟨"acme.example", "/api/auth/login/", "POST", "", none, none, "ada", "secret", none, .untouched⟩

def adasToken : Claims := ⟨.access, 1, 3600, some .companyAdmin, some "acme", some "ada"⟩

def readsCars : Request :=
  ⟨"acme.example", "/api/cars/", "GET", "", none, some adasToken, "", "", none, .untouched⟩

/-- Credentials stay on their tenant: in every run of any number of processes that serve any
requests, with any session keys and tokens the clients ever saw, whoever acts on a schema had
credentials accepted on that schema before, as a member of staff for the admin site and as one whom
the token endpoint of the schema lets in for the API. The process has resolved the tenant in this
very request, the status gate lets it be served there, and the user is an active row of that tenant
whose role is enough. -/
theorem acts_for_own_user {p : Pid} {a : Alias} {schema : SchemaName} {u : User} {ep : Endpoint}
    {earlier later : Trace} (hlib : lib.Documented) (h₀ : Unbound s₀)
    (h : SysRun lib s₀ (later ++ ⟨.answer p (.act a schema u ep) (.ok ()), s, s'⟩ :: earlier) c) :
    LoggedIn earlier schema u.id (ep.Entry schema) ∧ u.isActive ∧ ep.Lets schema u ∧
      Did earlier p (.getUser a schema u.id) (some u) ∧
      ∃ host t, Did earlier p (.resolve host) (some t) ∧ a = t.shard.dbAlias ∧
        schema = t.schemaName ∧ ep.Open t := by
  obtain ⟨c₁, c₂, hrun, hstep, _, _⟩ := h.split
  have hinv := Inv.run hlib h₀ hrun
  have htold := told_phaseAt p earlier
  obtain ⟨t, uid, hten, ha, hschema, hopen, hrow, hactive, hlets, hvouches⟩ :
      (phaseAt binding p earlier).MayAct a schema u ep := (hrun.move (allFollow hlib) hstep).permits
  obtain ⟨host, q, q', hresolved⟩ := htold.tenant t hten
  obtain ⟨q₁, q₂, hread⟩ := htold.row _ hrow
  -- the row that was read under a key has that key
  have huid : u.id = uid := by
    have hacts := hrun.acts_of_mem (mem_of_mem_takenBy hread)
    have hserves : q₁.Serves (.getUser a schema uid) (some u) q₂ := hacts
    generalize hfound : some u = found at hserves
    cases hserves
    exact q₁.users_id a schema uid u hfound.symm
  subst huid
  refine ⟨?_, hactive, hlets, ⟨q₁, q₂, hread⟩, host, t, ⟨q, q', hresolved⟩, ha, hschema, hopen⟩
  cases ep with
  | admin =>
    obtain ⟨d, hd, hduid, hdschema⟩ := hvouches
    exact (hinv.known p).session d hd u.id schema hduid (hschema ▸ hdschema)
  | api perm method =>
    obtain ⟨cl, hcl, hclid, hclschema⟩ := hvouches
    rw [← hclid]
    exact (hinv.known p).token cl hcl schema (hschema ▸ hclschema)

/-- One process sends the tokens, and another one reads for their user. -/
theorem acts_for_own_user_cars : ∃ earlier s s' c,
    SysRun plain oneUser
      (⟨.answer 1 (.act "shard1" "acme" ada (.api .isCompanyAdmin "GET")) (.ok ()), s, s'⟩ ::
        earlier) c ∧
    LoggedIn earlier "acme" 1 (MayObtain "acme") ∧ ada.isActive ∧
    Endpoint.Lets "acme" ada (.api .isCompanyAdmin "GET") ∧
    Did earlier 1 (.getUser "shard1" "acme" 1) (some ada) ∧
    ∃ host t, Did earlier 1 (.resolve host) (some t) ∧ "shard1" = t.shard.dbAlias ∧
      "acme" = t.schemaName ∧ Endpoint.Open t (.api .isCompanyAdmin "GET") := by
  have r0 : Run machine (Starts plain) (.idle oneUser) [] (.idle oneUser) := .nil
  have r1 := r0.start 0 ⟨logsIn, rfl⟩ rfl
  have r2 := r1.answer 0 (.resolve "acme.example") (.ok (some acme)) (.resolve _ _) rfl
  have r3 := r2.answer 0 (.authenticate "shard1" "acme" "ada" "secret") (.ok (some ada))
    (.authenticated _ _ _ _ _ rfl rfl rfl) rfl
  have r4 := r3.answer 0 .now (.ok 0) .now rfl
  have r5 := r4.answer 0 (.send _) (.ok ()) (.send _) rfl
  have r6 := r5.start 1 ⟨readsCars, rfl⟩ rfl
  have r7 := r6.answer 1 (.resolve "acme.example") (.ok (some acme)) (.resolve _ _) rfl
  have r8 := r7.answer 1 (.verify adasToken) (.ok true) (.verify _) rfl
  have r9 := r8.answer 1 (.getUser "shard1" "acme" 1) (.ok (some ada)) (.getUser _ _ _) rfl
  have r10 : SysRun plain oneUser ([] ++ _ :: _) _ :=
    r9.answer 1 (.act "shard1" "acme" ada (.api .isCompanyAdmin "GET")) (.ok ()) (.act _ _ _ _) rfl
  exact ⟨_, _, _, _, r10, acts_for_own_user plain_documented oneUser_unbound r10⟩

end MtShards.Auth
