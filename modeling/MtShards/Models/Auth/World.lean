import MtShards.Core.Interleaving
import MtShards.Models.Tenant.Snapshot

/-!
# Users, sessions and tokens

What the login paths share: the user tables of the tenant schemas, the one session store, and the
tokens that have left in responses. A client may present any session key and any token it ever
saw, on any host; a token passes verification if it was sent out and has not expired. User rows
change as they like, and sessions may disappear.
-/

namespace MtShards.Auth

open MtShards.Core

/-- The primary key of a user row; every schema counts from 1. -/
abbrev Uid := Nat

abbrev Time := Nat

/-- The value of the session cookie. -/
abbrev SessionKey := Nat

abbrev Pid := Nat

/-- `User.Role`. -/
inductive Role
  | tenantAdmin
  | companyAdmin
  | customer
  | driver
  deriving DecidableEq, Repr

/-- A row of `users.User`. -/
structure User where
  id : Uid
  username : String
  password : String
  role : Role
  isActive : Bool
  isStaff : Bool
  deriving DecidableEq, Repr

/-- The entries of a session that the login paths read. -/
structure Session where
  /-- `SESSION_KEY`. -/
  userId : Option Uid
  /-- `HASH_SESSION_KEY`. -/
  authHash : Option String
  /-- The stamp of `stamp_tenant_schema`. -/
  schema : Option SchemaName
  deriving DecidableEq, Repr

inductive TokenType
  | access
  | refresh
  deriving DecidableEq, Repr

/-- The payload of a token. -/
structure Claims where
  tokenType : TokenType
  userId : Uid
  exp : Time
  role : Option Role
  schema : Option SchemaName
  username : Option String
  deriving DecidableEq, Repr

/-- What Django's `auth` and SimpleJWT compute. -/
structure Libraries where
  /-- `RefreshToken.for_user`. -/
  forUser : Time → User → Claims
  /-- `RefreshToken.access_token`. -/
  accessToken : Time → Claims → Claims
  /-- The session data that `auth.login` writes before it sends its signal, and whether the
  session keeps its key. -/
  login : Option Session → User → Session × Bool
  /-- The auth hash of a session is that of the user. -/
  verifies : Session → User → Bool

/-- Tokens and sessions are about the user they were made for, and an access token copies the claims
of its refresh token. -/
structure Libraries.Documented (lib : Libraries) : Prop where
  forUser_userId : ∀ now u, (lib.forUser now u).userId = u.id
  accessToken_userId : ∀ now c, (lib.accessToken now c).userId = c.userId
  accessToken_schema : ∀ now c, (lib.accessToken now c).schema = c.schema
  login_userId : ∀ d u, (lib.login d u).1.userId = some u.id

/-- The permission classes that guard a view. -/
inductive Permission
  | isAuthenticated
  | isTenantAdminOnPublic
  | isCompanyAdmin
  | isCompanyAdminOrReadOnly
  | isCompanyAdminOrCustomer
  deriving DecidableEq, Repr

/-- Where code runs on behalf of a user. -/
inductive Endpoint
  | admin
  | api (p : Permission) (method : String)
  deriving DecidableEq, Repr

inductive Exn
  | http404
  | resolveDeferred
  | database
  /-- A session that is saved has been deleted. -/
  | sessionInterrupted
  deriving DecidableEq, Repr

/-- A request for what is outside of the process. -/
inductive Req
  /-- The tenant of a host; `none` when the host header is not allowed. -/
  | resolve (host : String)
  /-- `authenticate` on the user table of a schema. -/
  | authenticate (a : Alias) (schema : SchemaName) (username password : String)
  | getUser (a : Alias) (schema : SchemaName) (uid : Uid)
  | now
  | verify (c : Claims)
  /-- A response that carries tokens leaves. -/
  | send (cs : List Claims)
  | loadSession (k : SessionKey)
  | createSession (d : Session)
  | saveSession (k : SessionKey) (d : Session)
  | deleteSession (k : SessionKey)
  /-- A view runs for a user. -/
  | act (a : Alias) (schema : SchemaName) (u : User) (at_ : Endpoint)
  deriving DecidableEq, Repr

/-- What a request answers. -/
@[reducible] def Req.Ans : Req → Type
  | resolve _ => Option TenantSnapshot
  | authenticate _ _ _ _ | getUser _ _ _ => Option User
  | now => Time
  | verify _ => Bool
  | loadSession _ => Option Session
  | createSession _ => SessionKey
  | send _ | saveSession _ _ | deleteSession _ | act _ _ _ _ => Unit

/-- The databases, the session store and the clients. -/
structure World where
  clock : Time
  users : Alias → SchemaName → Uid → Option User
  users_id : ∀ a schema uid u, users a schema uid = some u → u.id = uid
  sessions : SessionKey → Option Session
  /-- The tokens that were sent out. -/
  tokens : List Claims

namespace World

def putSession (s : World) (k : SessionKey) (d : Option Session) : World :=
  { s with sessions := Function.update s.sessions k d }

/-- The answer of a request that succeeds, and the state after it. -/
inductive Serves (s : World) : (op : Req) → op.Ans → World → Prop
  /-- Caches may be stale: the registry may answer with any tenant. -/
  | resolve (host r) : Serves s (.resolve host) r s
  | rejected (a schema n pw) : Serves s (.authenticate a schema n pw) none s
  | authenticated (a schema n pw u) : s.users a schema u.id = some u → u.username = n →
      u.isActive → Serves s (.authenticate a schema n pw) (some u) s
  | getUser (a schema uid) : Serves s (.getUser a schema uid) (s.users a schema uid) s
  | now : Serves s .now s.clock s
  | verify (c) : Serves s (.verify c) (decide (c ∈ s.tokens ∧ s.clock < c.exp)) s
  | send (cs) : Serves s (.send cs) () { s with tokens := cs ++ s.tokens }
  | loadSession (k) : Serves s (.loadSession k) (s.sessions k) s
  | createSession (d k) : s.sessions k = none →
      Serves s (.createSession d) k (s.putSession k (some d))
  | saveSession (k d) : s.sessions k ≠ none →
      Serves s (.saveSession k d) () (s.putSession k (some d))
  | deleteSession (k) : Serves s (.deleteSession k) () (s.putSession k none)
  | act (a schema u ep) : Serves s (.act a schema u ep) () s

/-- Rows change, time passes, and sessions are cleared. -/
def Drifts (s s' : World) : Prop :=
  s'.tokens = s.tokens ∧ ∀ k, s'.sessions k = none ∨ s'.sessions k = s.sessions k

end World

/-- A request that fails changes nothing. -/
def machine : Machine Pid Req Req.Ans Exn World where
  exec _ op s r s' :=
    match r with
    | .ok a => s.Serves op a s'
    | .error _ => s' = s
  inner _ _ s s' := s' = s
  env := World.Drifts
  kill _ s s' := s' = s

/-- A program over these requests. -/
abbrev Prog := Program Req Req.Ans Exn

/-- Issue a request. -/
def call (op : Req) : Prog op.Ans := Program.request op

end MtShards.Auth
