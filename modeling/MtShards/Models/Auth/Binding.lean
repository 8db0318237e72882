import MtShards.Models.Auth.Serve

/-!
# What a process knows of its client

A process acts for a user, writes a session or sends a token only on what it has seen itself: the
tenant that was resolved, the session that was loaded, the token that was verified, the row that was
read, the login that was accepted. Which of these it needs for which request is the protocol that
every served request follows.
-/

namespace MtShards.Auth

open MtShards.Core Program

/-- A user row that was read, and where. -/
structure ReadUser where
  dbAlias : Alias
  schema : SchemaName
  uid : Uid
  user : User
  deriving DecidableEq, Repr

/-- What a process has seen in its present call. -/
structure Known where
  tenant : Option TenantSnapshot
  session : Option Session
  token : Option Claims
  row : Option ReadUser
  /-- The login that was accepted, under the schema that it was for. -/
  login : Option (SchemaName × User)
  deriving DecidableEq, Repr

namespace Known

/-- Nothing yet. -/
def nothing : Known := ⟨none, none, none, none, none⟩

/-- What is known after an answer. -/
def next (κ : Known) : (op : Req) → Except Exn op.Ans → Known
  | .resolve _, .ok (some t) => { κ with tenant := some t }
  | .loadSession _, .ok (some d) => { κ with session := some d }
  | .verify c, .ok true => { κ with token := some c }
  | .getUser a schema uid, .ok (some u) => { κ with row := some ⟨a, schema, uid, u⟩ }
  | .authenticate _ schema _ _, .ok (some u) => { κ with login := some (schema, u) }
  | _, _ => κ

/-- A request that fails tells nothing. -/
theorem next_error {κ : Known} {op : Req} {e : Exn} : κ.next op (.error e) = κ := by
  cases op <;> rfl

end Known

/-- Whom the token endpoints of a schema let in. -/
def MayObtain (schema : SchemaName) (u : User) : Prop :=
  schema = publicSchemaName ↔ u.role = .tenantAdmin

/-- The login that an endpoint rests on. -/
def Endpoint.Entry (schema : SchemaName) : Endpoint → User → Prop
  | admin, u => u.isStaff
  | api _ _, u => MayObtain schema u

/-- The row of the user lets the endpoint be used. -/
def Endpoint.Lets (schema : SchemaName) (u : User) : Endpoint → Prop
  | admin => u.isStaff
  | api p method => p.hasPermission method schema u

/-- The status gate lets the tenant be served there. -/
def Endpoint.Open (t : TenantSnapshot) : Endpoint → Prop
  | admin => t.schemaName = publicSchemaName ∨ t.status ∈ [.active, .failed, .maintenance]
  | api _ _ => t.schemaName = publicSchemaName ∨ t.status = .active

namespace Known

/-- The credential of the client is for this user of the tenant. -/
def Vouches (κ : Known) (t : TenantSnapshot) (uid : Uid) : Endpoint → Prop
  | .admin => ∃ d, κ.session = some d ∧ d.userId = some uid ∧ d.schema = some t.schemaName
  | .api _ _ => ∃ c, κ.token = some c ∧ c.userId = uid ∧ c.schema = some t.schemaName

/-- The process may act for a user. -/
def MayAct (κ : Known) (a : Alias) (schema : SchemaName) (u : User) (ep : Endpoint) : Prop :=
  ∃ t uid, κ.tenant = some t ∧ a = t.shard.dbAlias ∧ schema = t.schemaName ∧ ep.Open t ∧
    κ.row = some ⟨a, schema, uid, u⟩ ∧ u.isActive ∧ ep.Lets schema u ∧ κ.Vouches t uid ep

/-- The session is that of a login of staff, or for the same user and schema as the one that was
loaded. -/
def MayStore (κ : Known) (d : Session) : Prop :=
  (∃ d₀, κ.session = some d₀ ∧ d.userId = d₀.userId ∧ d.schema = d₀.schema) ∨
    ∃ schema u, κ.login = some (schema, u) ∧ u.isStaff ∧ d.userId = some u.id ∧
      d.schema = some schema

/-- The token is that of a login, or for the same user and schema as the one that was verified. -/
def MaySend (κ : Known) (c : Claims) : Prop :=
  (∃ schema u, κ.login = some (schema, u) ∧ MayObtain schema u ∧ c.userId = u.id ∧
    c.schema = some schema) ∨
  ∃ c₀, κ.token = some c₀ ∧ c.userId = c₀.userId ∧ c.schema = c₀.schema

end Known

/-- A process does nothing that what it knows does not allow. -/
def binding : Protocol Req Req.Ans Exn Known where
  init := .nothing
  permits κ op :=
    match op with
    | .act a schema u ep => κ.MayAct a schema u ep
    | .createSession d | .saveSession _ d => κ.MayStore d
    | .send cs => ∀ c ∈ cs, κ.MaySend c
    | _ => True
  next := Known.next
  mayStop _ := True
  mayStop_init := trivial

section Conformance

variable {lib : Libraries} {r : Request} {t : TenantSnapshot} {κ κ' : Known} {sess : Loaded}
  {p : Permission} {u : User} {α β : Type}

/-- A program that issues only what is permitted; where it ends does not matter. -/
abbrev Conforms (x : Prog α) (κ : Known) : Prop := x.Follows binding κ fun _ _ => True

/-- A request that is permitted, and what follows each of its answers. -/
theorem follows_call_bind {op : Req} {f : op.Ans → Prog α} {Q : Known → Except Exn α → Prop}
    (h : binding.permits κ op) (herr : ∀ e, Q (κ.next op (.error e)) (.error e))
    (hf : ∀ a, (f a).Follows binding (κ.next op (.ok a)) Q) :
    (call op >>= f).Follows binding κ Q := by
  rw [follows_bind]
  refine ⟨h, fun ans => ?_⟩
  cases ans with
  | ok a => exact hf a
  | error e => exact herr e

/-- A request that is permitted conforms, if the rest does for every answer. -/
theorem conforms_call {op : Req} {f : op.Ans → Prog α} (h : binding.permits κ op)
    (hf : ∀ a, Conforms (f a) (κ.next op (.ok a))) : Conforms (call op >>= f) κ :=
  follows_call_bind h (fun _ => trivial) hf

/-- What follows a program may use where that program ends. -/
theorem conforms_bind {x : Prog α} {f : α → Prog β} {R : Known → Except Exn α → Prop}
    (h : x.Follows binding κ R) (hf : ∀ κ' a, R κ' (.ok a) → Conforms (f a) κ') :
    Conforms (x >>= f) κ := by
  rw [Conforms, follows_bind]
  refine h.mono fun κ' ans hR => ?_
  cases ans with
  | ok a => exact hf κ' a hR
  | error e => trivial

/-- A guard that answers at once. -/
theorem conforms_guard {b : Prop} [Decidable b] {a : α} {x : Prog α}
    (hx : ¬ b → Conforms x κ) : Conforms (if b then Pure.pure a else x) κ := by
  by_cases hb : b
  · simp [hb]
  · rw [if_neg hb]
    exact hx hb

/-! ### The gate -/

/-- What the status gate lets pass. -/
theorem Request.gate_open (h : r.gate t = none) :
    t.schemaName = publicSchemaName ∨ t.status = .active ∨
      (r.isAdmin ∧ t.status ∈ [.failed, .maintenance]) := by
  unfold Request.gate at h
  by_cases hpub : t.schemaName = publicSchemaName
  · exact .inl hpub
  · rw [if_neg hpub] at h
    cases hst : t.status with
    | active => exact .inr (.inl rfl)
    | failed =>
      simp only [hst] at h
      by_cases hadmin : r.isAdmin
      · exact .inr (.inr ⟨hadmin, by simp⟩)
      · simp [hadmin] at h
    | maintenance =>
      simp only [hst] at h
      by_cases hadmin : r.isAdmin
      · exact .inr (.inr ⟨hadmin, by simp⟩)
      · simp [hadmin] at h
    | _ => simp [hst] at h

/-- A prefix of a prefix is one. -/
theorem startsWith_trans {s a b : String} (h : startsWith s a) (hab : startsWith a b) :
    startsWith s b := by
  simp only [startsWith, List.isPrefixOf_iff_prefix] at h hab ⊢
  exact hab.trans h

/-- A path of the admin site is no API path. -/
theorem Request.not_api_of_isAdmin (h : r.isAdmin) : ¬ startsWith r.path "/api/" := by
  intro hapi
  rw [Request.isAdmin, Bool.or_eq_true, decide_eq_true_eq] at h
  rcases h with heq | hadmin
  · rw [heq] at hapi
    exact absurd hapi (by decide)
  · simp only [startsWith, List.isPrefixOf_iff_prefix] at hapi hadmin
    have : "/api/".toList <+: "/admin/".toList :=
      List.prefix_of_prefix_length_le hapi hadmin (by decide)
    exact absurd this (by decide)

private theorem startsWith_of_routed {path base : String} (h : routed path base) : startsWith path base :=
  (Bool.and_eq_true _ _ ▸ h).1

/-- The views of the API are all below `/api/`. -/
theorem tenantRoute_api {method path : String} (h : tenantRoute method path = some (.api p)) :
    startsWith path "/api/" := by
  by_cases hapi : startsWith path "/api/"
  · exact hapi
  · have hnot (a : String) (ha : startsWith a "/api/") : startsWith path a = false := by
      simpa using fun h => hapi (startsWith_trans h ha)
    have hnone (a : String) (ha : startsWith a "/api/") : routed path a = false := by
      simpa using fun h => hapi (startsWith_trans (startsWith_of_routed h) ha)
    have hne (a : String) (ha : startsWith a "/api/") : path ≠ a := fun heq => hapi (heq ▸ ha)
    rw [tenantRoute, hnone "/api/cars" (by decide), hnone "/api/drivers" (by decide),
      hnone "/api/customers" (by decide), hnone "/api/products" (by decide),
      hnone "/api/orders" (by decide), hnone "/api/routes" (by decide)] at h
    simp only [hne "/api/customers/me/" (by decide), hnot "/api/customers/me." (by decide),
      sharedRoute, hne "/api/auth/login/" (by decide), hne "/api/auth/refresh/" (by decide),
      hne "/api/" (by decide), hnot "/api/." (by decide), decide_false, Bool.or_self, if_false,
      Bool.false_eq_true] at h
    split_ifs at h <;> cases h

/-! ### What a request presents -/

/-- The session was loaded, and if it is that of a user, it bears the schema of the tenant. -/
def Presented (κ : Known) (t : TenantSnapshot) (sess : Loaded) : Prop :=
  ∀ k d, sess = some (k, d) →
    κ.session = some d ∧ (d.userId.isSome → d.schema = some t.schemaName)

private theorem presented_none : Presented κ t none := by simp [Presented]

/-! ### Tokens -/

private theorem validatePublic_none {schema : SchemaName} (h : validatePublic schema u = none) :
    schema = publicSchemaName ∧ u.role = .tenantAdmin := by
  unfold validatePublic at h
  split_ifs at h with hschema hrole
  exact ⟨not_not.mp hschema, not_not.mp hrole⟩

private theorem validateTenant_none {schema : SchemaName} (h : validateTenant schema u = none) :
    schema ≠ publicSchemaName ∧ u.role ≠ .tenantAdmin := by
  unfold validateTenant at h
  split_ifs at h with hschema hrole
  exact ⟨hschema, hrole⟩

/-- The serializer of a schema lets in whom it may. -/
theorem validate_none (h : validate t t.schemaName u = none) : MayObtain t.schemaName u := by
  unfold validate at h
  by_cases hpub : t.schemaName = publicSchemaName
  · rw [if_pos hpub] at h
    obtain ⟨hschema, hrole⟩ := validatePublic_none h
    simp [MayObtain, hschema, hrole]
  · rw [if_neg hpub] at h
    obtain ⟨hschema, hrole⟩ := validateTenant_none h
    simp [MayObtain, hschema, hrole]

private theorem obtainTokens_conforms (hlib : lib.Documented) {validate : SchemaName → User → Option String}
    (hval : ∀ u, validate t.schemaName u = none → MayObtain t.schemaName u) :
    Conforms (obtainTokens lib validate r t) κ := by
  refine conforms_call trivial fun found => ?_
  cases found with
  | none => trivial
  | some u =>
    refine conforms_call trivial fun now => ?_
    cases hv : validate t.schemaName u with
    | some detail => trivial
    | none =>
      refine conforms_call (fun c hc => .inl ⟨t.schemaName, u, rfl, hval u hv, ?_⟩) fun _ => trivial
      rcases List.mem_pair.mp hc with rfl | rfl
      · simp [getToken, hlib.forUser_userId]
      · simp [getToken, hlib.accessToken_userId, hlib.accessToken_schema, hlib.forUser_userId]

private theorem refreshToken_conforms (hlib : lib.Documented) : Conforms (refreshToken lib r t) κ := by
  unfold refreshToken
  cases r.refresh with
  | none => trivial
  | some c =>
    refine conforms_call trivial fun valid => ?_
    cases valid with
    | false => trivial
    | true =>
      refine conforms_guard fun _ => conforms_call trivial fun found => ?_
      cases found with
      | none => trivial
      | some u =>
        refine conforms_guard fun _ => conforms_call trivial fun now => ?_
        refine conforms_call (fun c' hc' => .inr ⟨c, rfl, ?_⟩) fun _ => trivial
        obtain rfl := List.mem_singleton.mp hc'
        exact ⟨hlib.accessToken_userId now c, hlib.accessToken_schema now c⟩

/-- A token that passes was verified, and is for the schema. -/
theorem getValidatedToken_follows {schema : SchemaName} {c : Claims} :
    (getValidatedToken schema c).Follows binding κ fun κ' ans => ans = .ok none →
      c.schema = some schema ∧ κ' = { κ with token := some c } := by
  refine follows_call_bind trivial (by simp) fun valid => ?_
  cases valid with
  | false => simp
  | true =>
    by_cases htype : c.tokenType = .access
    · by_cases hschema : c.schema = some schema
      · simp [htype, hschema, Known.next]
      · simp [htype, hschema]
    · simp [htype]

private theorem apiView_conforms (hten : κ.tenant = some t)
    (hopen : t.schemaName = publicSchemaName ∨ t.status = .active) :
    Conforms (apiView r t p) κ := by
  unfold apiView
  cases r.bearer with
  | none => trivial
  | some c =>
    refine conforms_bind getValidatedToken_follows fun κ' refused hκ' => ?_
    cases refused with
    | some detail => trivial
    | none =>
      obtain ⟨hschema, rfl⟩ := hκ' rfl
      refine conforms_call trivial fun found => ?_
      cases found with
      | none => trivial
      | some u =>
        refine conforms_guard fun hguard => conforms_guard fun hperm => ?_
        have hactive : u.isActive := by simpa using hguard
        have hlets : p.hasPermission r.method t.schemaName u := by simpa using hperm
        refine conforms_call ?_ fun _ => trivial
        exact ⟨t, c.userId, hten, rfl, rfl, hopen, rfl, hactive, hlets, c, rfl, rfl, hschema⟩

/-! ### Sessions -/

private theorem login_conforms (hlib : lib.Documented) (hlogin : κ.login = some (t.schemaName, u))
    (hstaff : u.isStaff) : Conforms (login lib t sess u) κ := by
  have hd : Known.MayStore κ
      (stampTenantSchema (some t.schemaName) (lib.login (sess.map Prod.snd) u).1) :=
    .inr ⟨t.schemaName, u, hlogin, hstaff, hlib.login_userId _ u, rfl⟩
  cases sess with
  | none => exact ⟨hd, fun _ => trivial⟩
  | some kd =>
    obtain ⟨k, d⟩ := kd
    unfold login
    by_cases hkeep : (lib.login (Option.map Prod.snd (some (k, d))) u).2
    · simp only [hkeep, if_true]
      exact conforms_call hd fun _ => trivial
    · simp only [hkeep, Bool.false_eq_true, if_false]
      exact conforms_call trivial fun _ => ⟨hd, fun _ => trivial⟩

/-- Logging out conforms. -/
theorem logout_conforms : Conforms (logout sess) κ := by
  cases sess with
  | none => trivial
  | some kd => exact ⟨trivial, fun _ => trivial⟩

private theorem adminLogin_conforms (hlib : lib.Documented) : Conforms (adminLogin lib r t sess) κ := by
  refine conforms_call trivial fun found => ?_
  cases found with
  | none => trivial
  | some u =>
    refine conforms_guard fun hguard => ?_
    have hstaff : u.isStaff := by simpa using hguard
    exact conforms_bind (login_conforms hlib rfl hstaff) fun _ _ _ => trivial

/-- The user of a session is an active row that its own entry names. -/
theorem sessionUser_follows (hs : Presented κ t sess) :
    (sessionUser lib t sess).Follows binding κ fun κ' ans => ∀ u, ans = .ok (some u) →
      u.isActive ∧ ∃ k d uid, sess = some (k, d) ∧ d.userId = some uid ∧
        d.schema = some t.schemaName ∧ κ.session = some d ∧
        κ' = { κ with row := some ⟨t.shard.dbAlias, t.schemaName, uid, u⟩ } := by
  cases sess with
  | none => simp [sessionUser]
  | some kd =>
    obtain ⟨k, d⟩ := kd
    unfold sessionUser
    cases huid : d.userId with
    | none => simp [huid]
    | some uid =>
      simp only [huid]
      obtain ⟨hsession, hschema⟩ := hs k d rfl
      refine follows_call_bind trivial (by simp) fun found => ?_
      cases found with
      | none => simp
      | some u =>
        by_cases hactive : u.isActive
        · by_cases hhash : lib.verifies d u
          · simp only [hactive, hhash, Bool.not_true, Bool.false_eq_true, if_false, if_true,
              follows_pure, Except.ok.injEq, Option.some.injEq]
            rintro _ rfl
            exact ⟨hactive, k, d, uid, rfl, huid, hschema (by simp [huid]), hsession, rfl⟩
          · simp only [hactive, hhash, Bool.not_true, Bool.false_eq_true, if_false]
            exact follows_call_bind trivial (by simp) fun _ => by simp
        · simp [hactive]

private theorem saveIfTouched_conforms (hs : Presented κ t sess) : Conforms (saveIfTouched r sess) κ := by
  cases sess with
  | none => trivial
  | some kd =>
    obtain ⟨k, d⟩ := kd
    unfold saveIfTouched
    have hsession := (hs k d rfl).1
    cases r.sessionUse with
    | untouched => trivial
    | touched => exact ⟨.inl ⟨d, hsession, rfl, rfl⟩, fun _ => trivial⟩
    | rehashed hash =>
      exact conforms_call (.inl ⟨d, hsession, rfl, rfl⟩) fun _ => ⟨trivial, fun _ => trivial⟩

private theorem adminView_conforms (hten : κ.tenant = some t) (hopen : Endpoint.Open t .admin)
    (hs : Presented κ t sess) : Conforms (adminView lib r t sess) κ := by
  refine conforms_bind (sessionUser_follows hs) fun κ' found hκ' => ?_
  cases found with
  | none => trivial
  | some u =>
    obtain ⟨hactive, k, d, uid, rfl, huid, hschema, hsession, rfl⟩ := hκ' u rfl
    refine conforms_guard fun hguard => conforms_call ?_ fun _ => ?_
    · have hstaff : u.isStaff := by simpa using hguard
      exact ⟨t, uid, hten, rfl, rfl, hopen, rfl, hactive, hstaff, d, hsession, huid, hschema⟩
    · refine conforms_bind (saveIfTouched_conforms (t := t) ?_) fun _ _ _ => trivial
      exact hs

private theorem adminLoginForm_conforms (hs : Presented κ t sess) :
    Conforms (adminLoginForm lib t sess) κ := by
  refine conforms_bind (sessionUser_follows hs) fun κ' found _ => ?_
  cases found with
  | none => trivial
  | some u => trivial

private theorem adminLogout_conforms (hs : Presented κ t sess) : Conforms (adminLogout lib r t sess) κ := by
  refine conforms_bind (sessionUser_follows hs) fun κ' found _ => ?_
  cases found with
  | none => trivial
  | some u =>
    refine conforms_guard fun _ => conforms_guard fun _ => ?_
    exact conforms_bind logout_conforms fun _ _ _ => trivial

/-! ### The request as a whole -/

/-- Every view conforms that the gate lets a request through to. -/
theorem dispatch_conforms (hlib : lib.Documented) (hten : κ.tenant = some t)
    (hgate : r.gate t = none) (hs : Presented κ t sess) : Conforms (dispatch lib r t sess) κ := by
  unfold dispatch
  cases hroute : r.route t with
  | none => trivial
  | some route =>
    cases route with
    | login => exact conforms_guard fun _ => obtainTokens_conforms hlib fun u => validate_none
    | refresh => exact conforms_guard fun _ => refreshToken_conforms hlib
    | adminLogin =>
      dsimp only
      split
      · exact adminLoginForm_conforms hs
      · exact conforms_guard fun _ => adminLogin_conforms hlib
    | adminLogout => exact adminLogout_conforms hs
    | admin =>
      refine adminView_conforms hten ?_ hs
      rcases Request.gate_open hgate with hpub | hactive | ⟨_, hstatus⟩
      · exact .inl hpub
      · exact .inr (by simp [hactive])
      · exact .inr (List.mem_cons_of_mem _ hstatus)
    | api p =>
      refine apiView_conforms hten ?_
      by_cases hpub : t.schemaName = publicSchemaName
      · exact .inl hpub
      · rw [Request.route, if_neg hpub] at hroute
        rcases Request.gate_open hgate with hpub' | hactive | ⟨hadmin, _⟩
        · exact absurd hpub' hpub
        · exact .inr hactive
        · exact absurd (tenantRoute_api hroute) (Request.not_api_of_isAdmin hadmin)

private theorem sessionGuard_conforms (hlib : lib.Documented) (hten : κ.tenant = some t)
    (hgate : r.gate t = none) : Conforms (sessionGuard lib r t) κ := by
  have hnone {κ' : Known} (hten' : κ'.tenant = some t) : Conforms (dispatch lib r t none) κ' :=
    dispatch_conforms hlib hten' hgate presented_none
  unfold sessionGuard
  by_cases hapi : r.isApi
  · simp only [hapi, if_true]
    exact hnone hten
  · simp only [hapi, Bool.false_eq_true, if_false]
    cases r.cookie with
    | none => exact hnone hten
    | some k =>
      refine conforms_call trivial fun loaded => ?_
      cases loaded with
      | none => exact hnone hten
      | some d =>
        by_cases hforeign : d.userId.isSome && d.schema ≠ some t.schemaName
        · simp only [hforeign, if_true]
          exact conforms_bind logout_conforms fun _ _ _ => trivial
        · simp only [hforeign, Bool.false_eq_true, if_false]
          refine dispatch_conforms hlib hten hgate fun k' d' heq => ?_
          obtain ⟨rfl, rfl⟩ := Prod.mk.inj (Option.some.inj heq)
          exact ⟨rfl, fun huid => by simpa [huid] using hforeign⟩

/-- A request goes on only with the tenant that was resolved, once the gate lets it pass. -/
theorem processRequest_follows :
    (processRequest r).Follows binding κ fun κ' ans => ∀ t, ans = .ok (.inr t) →
      κ'.tenant = some t ∧ r.gate t = none := by
  unfold processRequest
  by_cases hhealth : r.path = "/api/health/"
  · simp [hhealth]
  · rw [if_neg hhealth]
    refine follows_bind.mpr (follows_attempt.mpr ⟨trivial, fun ans => ?_⟩)
    cases ans with
    | error e => cases e <;> simp
    | ok found =>
      cases found with
      | none => simp
      | some t =>
        simp only [follows_done, onOutcome_ok]
        cases hgate : r.gate t with
        | some e => simp
        | none =>
          intro t' heq
          obtain rfl := Sum.inr.inj (Except.ok.inj heq)
          exact ⟨rfl, hgate⟩

private theorem serve_conforms (hlib : lib.Documented) : Conforms (serve lib r) κ := by
  refine conforms_bind processRequest_follows fun κ' res hκ' => ?_
  cases res with
  | inl resp => trivial
  | inr t =>
    obtain ⟨hten, hgate⟩ := hκ' t rfl
    exact sessionGuard_conforms hlib hten hgate

/-- Whatever is served, no process does more than it may. -/
theorem allFollow (hlib : lib.Documented) : AllFollow binding (Starts lib) := by
  rintro p prog ⟨r, rfl⟩
  exact Follows.void (serve_conforms hlib)

end Conformance

end MtShards.Auth
