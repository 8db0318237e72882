import MtShards.Models.Auth.World

/-!
# How a request is served

`ShardAwareTenantMiddleware.process_request` with its status gate, the session guard, the two URL
configurations, the login views and the permission classes. `connection.schema_name` is the schema
of the tenant that the middleware has put on the connection, and the router sends user queries to
its shard, so both are taken from that tenant.
-/

namespace MtShards.Auth

open MtShards.Core

/-- What a page of an admin site does to the session of its request. -/
inductive SessionUse
  | untouched
  /-- It stores something in the session. -/
  | touched
  /-- It has changed a password: the auth hash is new if that was the user's own. -/
  | rehashed (hash : Option String)
  deriving DecidableEq, Repr

/-- A request of a client; the cookie and the tokens are whatever it chooses to send. -/
structure Request where
  host : String
  path : String
  method : String
  /-- The `Accept` header. -/
  accept : String
  cookie : Option SessionKey
  /-- The token of the `Authorization` header. -/
  bearer : Option Claims
  username : String
  password : String
  /-- The refresh token in the body. -/
  refresh : Option Claims
  sessionUse : SessionUse

/-- `str.startswith`. -/
def startsWith (s start : String) : Bool := start.toList.isPrefixOf s.toList

/-- `part in s`. -/
def isIn (part s : String) : Bool := s.toList.tails.any part.toList.isPrefixOf

/-- `API_PATH_PREFIXES`. -/
def apiPathPrefixes : List String := ["/api/v1/", "/open_api/api/v1/"]

def Request.isApi (r : Request) : Bool := apiPathPrefixes.any (startsWith r.path)

/-! ### Responses -/

/-- What `error_response` renders: JSON, or a page. -/
structure ErrorResponse where
  status : Nat
  code : String
  detail : String
  retryAfter : Option Nat
  /-- `extra={"status": …}`. -/
  tenantStatus : Option Status
  json : Bool
  deriving DecidableEq, Repr

/-- `wants_json`. -/
def Request.wantsJson (r : Request) : Bool :=
  r.isApi || isIn "application/json" r.accept

/-- `error_response`. -/
def Request.errorResponse (r : Request) (status : Nat) (code detail : String)
    (retryAfter : Option Nat) (tenantStatus : Option Status) : ErrorResponse :=
  ⟨status, code, detail, retryAfter, tenantStatus, r.wantsJson⟩

inductive Response
  | healthy
  | error (e : ErrorResponse)
  /-- The host header is not allowed. -/
  | disallowedHost
  /-- No URL matches. -/
  | noRoute
  /-- `redirect("admin:login")`. -/
  | toLogin
  | toIndex
  /-- The login form, again. -/
  | loginForm
  | loggedIn (k : SessionKey)
  | loggedOut
  | notAllowed
  /-- An exception of DRF. -/
  | refused (status : Nat) (detail : String)
  | tokens (refresh access : Claims) (role : Role) (schema : SchemaName)
  | accessToken (c : Claims)
  /-- What a view returns. -/
  | page
  deriving DecidableEq, Repr

/-! ### The tenant of a request -/

/-- `/admin` itself counts, although the slash is missing. -/
def Request.isAdmin (r : Request) : Bool := r.path = "/admin" || startsWith r.path "/admin/"

/-- The status gate of `process_request`: what keeps a tenant from being served. -/
def Request.gate (r : Request) (t : TenantSnapshot) : Option ErrorResponse :=
  if t.schemaName = publicSchemaName then none
  else match t.status with
    | .deactivated => some (r.errorResponse 403 "tenant_deactivated" "This tenant is deactivated."
        none none)
    | .active => none
    | .maintenance =>
      if r.isAdmin then none
      else some (r.errorResponse 503 "tenant_maintenance" "This workspace is under maintenance."
        (some 600) none)
    | .failed =>
      if r.isAdmin then none
      else some (r.errorResponse 503 "tenant_not_ready" "This tenant is not ready." (some 300)
        (some .failed))
    | st => some (r.errorResponse 503 "tenant_not_ready" "This tenant is not ready." (some 300)
        (some st))

/-- `ShardAwareTenantMiddleware.process_request`: a response, or the tenant to serve. -/
def processRequest (r : Request) : Prog (Response ⊕ TenantSnapshot) := do
  if r.path = "/api/health/" then pure (.inl .healthy)
  else
    match ← (call (.resolve r.host)).attempt with
    | .error .http404 => pure (.inl (.error (r.errorResponse 404 "tenant_not_found"
        "No workspace found for this address." none none)))
    | .error .resolveDeferred => pure (.inl (.error (r.errorResponse 503 "tenant_resolve_deferred"
        "Temporarily unable to resolve this workspace. Please retry." (some 5) none)))
    | .error .database => pure (.inl (.error (r.errorResponse 500 "database_error"
        "A temporary error occurred. Please try again." none none)))
    | .error e => Program.raise e
    | .ok none => pure (.inl .disallowedHost)
    | .ok (some t) =>
      match r.gate t with
      | some e => pure (.inl (.error e))
      | none => pure (.inr t)

/-! ### Permissions -/

/-- `_on_tenant` under multi-tenancy. -/
def onTenant (schema : SchemaName) : Bool := schema ≠ publicSchemaName

/-- The classes that ask for one of some roles, inside of a tenant. -/
def roleOnTenant (roles : List Role) (schema : SchemaName) (u : User) : Bool :=
  onTenant schema && roles.contains u.role

/-- `IsCompanyAdmin.has_permission`, of a user that is authenticated. -/
def isCompanyAdmin : SchemaName → User → Bool := roleOnTenant [.companyAdmin]

/-- `IsCompanyAdminOrCustomer.has_permission`. -/
def isCompanyAdminOrCustomer : SchemaName → User → Bool := roleOnTenant [.companyAdmin, .customer]

def safeMethods : List String := ["GET", "HEAD", "OPTIONS"]

/-- `IsCompanyAdminOrReadOnly.has_permission`: everybody on the tenant may read. -/
def isCompanyAdminOrReadOnly (method : String) (schema : SchemaName) (u : User) : Bool :=
  onTenant schema && (safeMethods.contains method || u.role = .companyAdmin)

/-- `IsTenantAdminOnPublic.has_permission`. -/
def isTenantAdminOnPublic (schema : SchemaName) (u : User) : Bool :=
  schema = publicSchemaName && u.role = .tenantAdmin

/-- `has_permission`; every class refuses an anonymous user first. -/
def Permission.hasPermission (method : String) : Permission → SchemaName → User → Bool
  | isAuthenticated => fun _ _ => true
  | isTenantAdminOnPublic => Auth.isTenantAdminOnPublic
  | isCompanyAdmin => Auth.isCompanyAdmin
  | isCompanyAdminOrReadOnly => Auth.isCompanyAdminOrReadOnly method
  | isCompanyAdminOrCustomer => Auth.isCompanyAdminOrCustomer

/-- The text of a refusal. -/
def Permission.message : Permission → String
  | isTenantAdminOnPublic => "Only tenant administrators on the management host may access this."
  | _ => "You do not have permission to perform this action."

/-! ### Routes -/

inductive Route
  | login
  | refresh
  | adminLogin
  | adminLogout
  | admin
  | api (p : Permission)
  deriving DecidableEq, Repr

/-- A path that the router has below `base`: a slash follows it, or a format suffix such as
`.json`. -/
def routed (path base : String) : Bool :=
  startsWith path base &&
    (path.toList.drop base.toList.length).head?.any fun c => c = '/' || c = '.'

/-- The paths that both URL configurations have. -/
def sharedRoute (path : String) : Option Route :=
  if path = "/api/auth/login/" then some .login
  else if path = "/api/auth/refresh/" then some .refresh
  else if path = "/admin/login/" then some .adminLogin
  else if path = "/admin/logout/" then some .adminLogout
  else if startsWith path "/admin/" then some .admin
  else if path = "/api/" || startsWith path "/api/." then some (.api .isAuthenticated)
  else none

/-- `urls_public.py`. -/
def publicRoute (path : String) : Option Route :=
  if path = "/api/base-domains/" || routed path "/api/tenants" || routed path "/api/shards" ||
    routed path "/api/reserved-hosts"
  then some (.api .isTenantAdminOnPublic)
  else sharedRoute path

/-- `urls_tenant.py`, with the permissions that the viewsets ask for. -/
def tenantRoute (method path : String) : Option Route :=
  if routed path "/api/cars" || routed path "/api/drivers" then some (.api .isCompanyAdmin)
  else if path = "/api/customers/me/" || startsWith path "/api/customers/me." then
    some (.api .isCompanyAdminOrCustomer)
  else if routed path "/api/customers" then some (.api .isCompanyAdmin)
  else if routed path "/api/products" then some (.api .isCompanyAdminOrReadOnly)
  else if routed path "/api/orders" then some (.api .isCompanyAdminOrCustomer)
  else if routed path "/api/routes" then
    some (.api (if safeMethods.contains method then .isAuthenticated else .isCompanyAdmin))
  else sharedRoute path

/-! ### Tokens -/

/-- `_BaseTokenObtainPairSerializer.get_token`. -/
def getToken (lib : Libraries) (schema : SchemaName) (now : Time) (u : User) : Claims :=
  { lib.forUser now u with
    role := some u.role, schema := some schema, username := some u.username }

/-- `PublicTokenObtainPairSerializer.validate`, after its base: what it raises. -/
def validatePublic (schema : SchemaName) (u : User) : Option String :=
  if schema ≠ "public" then some "Tenant administrators must log in on the management host."
  else if u.role ≠ .tenantAdmin then some "This endpoint accepts tenant administrators only."
  else none

/-- `TenantTokenObtainPairSerializer.validate`, after its base. -/
def validateTenant (schema : SchemaName) (u : User) : Option String :=
  if schema = "public" then some "This endpoint is only available on tenant subdomains."
  else if u.role = .tenantAdmin then
    some "Tenant administrators must log in on the management host."
  else none

/-- `POST /api/auth/login/` with one of the two serializers. -/
def obtainTokens (lib : Libraries) (validate : SchemaName → User → Option String) (r : Request)
    (t : TenantSnapshot) : Prog Response := do
  match ← call (.authenticate t.shard.dbAlias t.schemaName r.username r.password) with
  | none => pure (.refused 401 "No active account found with the given credentials")
  | some u => do
    let now ← call .now
    let refresh := getToken lib t.schemaName now u
    match validate t.schemaName u with
    | some detail => pure (.refused 400 detail)
    | none => do
      call (.send [refresh, lib.accessToken now refresh])
      pure (.tokens refresh (lib.accessToken now refresh) u.role t.schemaName)

/-- `POST /api/auth/refresh/`: the view of SimpleJWT, which both URL configurations mount. -/
def refreshToken (lib : Libraries) (r : Request) (t : TenantSnapshot) : Prog Response := do
  match r.refresh with
  | none => pure (.refused 400 "This field is required.")
  | some c => do
    if !(← call (.verify c)) || c.tokenType ≠ .refresh then
      pure (.refused 401 "Token is invalid")
    else
      match ← call (.getUser t.shard.dbAlias t.schemaName c.userId) with
      | none => pure (.refused 401 "No active account found for the given token.")
      | some u =>
        if !u.isActive then pure (.refused 401 "No active account found for the given token.")
        else do
          let now ← call .now
          call (.send [lib.accessToken now c])
          pure (.accessToken (lib.accessToken now c))

/-- `SchemaBoundJWTAuthentication.get_validated_token`: what it raises. -/
def getValidatedToken (schema : SchemaName) (c : Claims) : Prog (Option String) := do
  if !(← call (.verify c)) || c.tokenType ≠ .access then
    pure (some "Given token not valid for any token type")
  else if c.schema ≠ some schema then pure (some "Token is not valid for this tenant.")
  else pure none

/-- An API view: authentication, permission, and then the view itself. -/
def apiView (r : Request) (t : TenantSnapshot) (p : Permission) : Prog Response := do
  match r.bearer with
  | none => pure (.refused 401 "Authentication credentials were not provided.")
  | some c => do
    match ← getValidatedToken t.schemaName c with
    | some detail => pure (.refused 401 detail)
    | none => do
      match ← call (.getUser t.shard.dbAlias t.schemaName c.userId) with
      | none => pure (.refused 401 "User not found")
      | some u =>
        if !u.isActive then pure (.refused 401 "User is inactive")
        else if !p.hasPermission r.method t.schemaName u then pure (.refused 403 p.message)
        else do
          call (.act t.shard.dbAlias t.schemaName u (.api p r.method))
          pure .page

/-! ### Sessions -/

/-- The session of a request once it was loaded, with its key. -/
abbrev Loaded := Option (SessionKey × Session)

/-- `stamp_tenant_schema`; a connection has no schema in standalone mode. -/
def stampTenantSchema (schema : Option SchemaName) (d : Session) : Session :=
  match schema with
  | some n => { d with schema := some n }
  | none => d

/-- `auth.login`, whose signal `stamp_tenant_schema` receives before the session is saved. -/
def login (lib : Libraries) (t : TenantSnapshot) (sess : Loaded) (u : User) : Prog SessionKey := do
  let d := stampTenantSchema (some t.schemaName) (lib.login (sess.map Prod.snd) u).1
  match sess with
  | none => call (.createSession d)
  | some (k, _) =>
    if (lib.login (sess.map Prod.snd) u).2 then do
      call (.saveSession k d)
      pure k
    else do
      call (.deleteSession k)
      call (.createSession d)

/-- `logout`: the session is flushed. -/
def logout (sess : Loaded) : Prog Unit :=
  match sess with
  | none => pure ()
  | some (k, _) => call (.deleteSession k)

/-- `POST /admin/login/` of either admin site. -/
def adminLogin (lib : Libraries) (r : Request) (t : TenantSnapshot) (sess : Loaded) :
    Prog Response := do
  match ← call (.authenticate t.shard.dbAlias t.schemaName r.username r.password) with
  | none => pure .loginForm
  | some u =>
    if !u.isStaff then pure .loginForm
    else do
      let k ← login lib t sess u
      pure (.loggedIn k)

/-- `request.user` of a session: a row of the tenant's own user table, if the hash is right. -/
def sessionUser (lib : Libraries) (t : TenantSnapshot) (sess : Loaded) : Prog (Option User) := do
  match sess with
  | none => pure none
  | some (k, d) =>
    match d.userId with
    | none => pure none
    | some uid => do
      match ← call (.getUser t.shard.dbAlias t.schemaName uid) with
      | none => pure none
      | some u =>
        if !u.isActive then pure none
        else if lib.verifies d u then pure (some u)
        else do
          call (.deleteSession k)
          pure none

/-- The session is saved after a view that has stored something in it; after a change of
password it goes to a new key, as `update_session_auth_hash` cycles it. -/
def saveIfTouched (r : Request) (sess : Loaded) : Prog Unit :=
  match sess with
  | none => pure ()
  | some (k, d) =>
    match r.sessionUse with
    | .untouched => pure ()
    | .touched => call (.saveSession k d)
    | .rehashed hash => do
      let _ ← call (.createSession { d with authHash := hash.or d.authHash })
      call (.deleteSession k)

/-- A page of an admin site: `AdminSite.has_permission`, and then the view. -/
def adminView (lib : Libraries) (r : Request) (t : TenantSnapshot) (sess : Loaded) :
    Prog Response := do
  match ← sessionUser lib t sess with
  | none => pure .toLogin
  | some u =>
    if !u.isStaff then pure .toLogin
    else do
      call (.act t.shard.dbAlias t.schemaName u .admin)
      saveIfTouched r sess
      pure .page

/-- `GET /admin/login/`: whoever may use the site already is sent to its index. -/
def adminLoginForm (lib : Libraries) (t : TenantSnapshot) (sess : Loaded) : Prog Response := do
  match ← sessionUser lib t sess with
  | none => pure .loginForm
  | some u => pure (if u.isStaff then .toIndex else .loginForm)

/-- `/admin/logout/`, which is a page of the site too. -/
def adminLogout (lib : Libraries) (r : Request) (t : TenantSnapshot) (sess : Loaded) :
    Prog Response := do
  match ← sessionUser lib t sess with
  | none => pure .toIndex
  | some u =>
    if !u.isStaff then pure .toIndex
    else if r.method ≠ "POST" then pure .notAllowed
    else do
      logout sess
      pure .loggedOut

/-! ### The request as a whole -/

/-- The text of a `MethodNotAllowed`. -/
def methodNotAllowed (method : String) : String := "Method \"" ++ method ++ "\" not allowed."

/-- The URL configuration of the tenant: `PUBLIC_SCHEMA_URLCONF` or `ROOT_URLCONF`. -/
def Request.route (r : Request) (t : TenantSnapshot) : Option Route :=
  if t.schemaName = publicSchemaName then publicRoute r.path else tenantRoute r.method r.path

/-- The `validate` of the serializer that the login view of the tenant has. -/
def validate (t : TenantSnapshot) : SchemaName → User → Option String :=
  if t.schemaName = publicSchemaName then validatePublic else validateTenant

/-- The view for the path. -/
def dispatch (lib : Libraries) (r : Request) (t : TenantSnapshot) (sess : Loaded) :
    Prog Response :=
  match r.route t with
  | none => pure .noRoute
  | some .login =>
    if r.method ≠ "POST" then pure (.refused 405 (methodNotAllowed r.method))
    else obtainTokens lib (validate t) r t
  | some .refresh =>
    if r.method ≠ "POST" then pure (.refused 405 (methodNotAllowed r.method))
    else refreshToken lib r t
  | some .adminLogin =>
    if r.method = "GET" then adminLoginForm lib t sess
    else if r.method ≠ "POST" then pure .loginForm
    else adminLogin lib r t sess
  | some .adminLogout => adminLogout lib r t sess
  | some .admin => adminView lib r t sess
  | some (.api p) => apiView r t p

/-- `SchemaBoundSessionMiddleware.__call__`. The session of another tenant is flushed. -/
def sessionGuard (lib : Libraries) (r : Request) (t : TenantSnapshot) : Prog Response := do
  if r.isApi then dispatch lib r t none
  else
    match r.cookie with
    | none => dispatch lib r t none
    | some k => do
      match ← call (.loadSession k) with
      | none => dispatch lib r t none
      | some d =>
        if d.userId.isSome && d.schema ≠ some t.schemaName then do
          logout (some (k, d))
          pure .toLogin
        else dispatch lib r t (some (k, d))

/-- What a worker does with a request. -/
def serve (lib : Libraries) (r : Request) : Prog Response := do
  match ← processRequest r with
  | .inl resp => pure resp
  | .inr t => sessionGuard lib r t

/-- A process may start to serve any request. -/
def Starts (lib : Libraries) (_ : Pid) (prog : Prog Unit) : Prop :=
  ∃ r, prog = (serve lib r).void

/-- The steps of a run. -/
abbrev Trace := List (Entry Pid Req Req.Ans Exn World)

/-- Any number of processes serve any requests. -/
abbrev SysRun (lib : Libraries) (s₀ : World) (t : Trace) (c : Config Pid Req Req.Ans Exn World) :
    Prop :=
  Run machine (Starts lib) (.idle s₀) t c

end MtShards.Auth
