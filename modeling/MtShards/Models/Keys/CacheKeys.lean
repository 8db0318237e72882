import Mathlib
import MtShards.Core.Fields
import MtShards.Core.Text
import MtShards.Models.Context.Routing

/-!
# Tenant-scoped keys in Redis

`commons.platform.cache_keys` under `USE_MULTITENANT`: the Django cache's key function with
its inverse, and the keys that are built by hand for redis-py. Both are an unescaped join of
fields, so what keeps tenants apart is which characters `validate_schema_name` lets through.
-/

namespace MtShards.Keys

open MtShards.Core MtShards.Context

/-! ### Schema names -/

/-- `SCHEMA_NAME_MAX`. -/
def schemaNameMax : Nat := 63

/-- `[a-z0-9_]`. -/
def isNameChar (c : Char) : Bool := c.isLower || c.isDigit || c == '_'

/-- `SCHEMA_NAME_RE.fullmatch`, for `^(?!pg_)[a-z0-9][a-z0-9_]{0,62}$`. -/
def schemaNameRe : List Char → Bool
  | [] => false
  | c :: cs =>
      !("pg_".toList.isPrefixOf (c :: cs)) && (c.isLower || c.isDigit) &&
        cs.all isNameChar && decide (cs.length ≤ 62)

section Validation

/- `str.strip` and `str.lower`, whatever they do: the pattern is tried on the result. -/
variable (strip lower : String → String)

/-- `normalize_schema_name`. -/
def normalizeSchemaName (value : String) : String :=
  String.ofList ((lower (strip value)).toList.map (fun c => if c = '-' then '_' else c))

/-- `validate_schema_name`; the error is the text of the `ValidationError`. -/
def validateSchemaName (value : String) : Except String SchemaName :=
  let name := normalizeSchemaName strip lower value
  let len := name.toList.length
  if name = "" then .error "Schema name is required."
  else if schemaNameMax < len then
    .error (s!"Schema name is too long ({len} > {schemaNameMax} characters). " ++
      "PostgreSQL truncates past that, which would silently alias two tenants.")
  else if schemaNameRe name.toList = false then
    .error (s!"'{name}' is not a usable schema name. Use ASCII: letters, digits and " ++
      "underscores, starting with a letter or a digit, and not starting with 'pg_'. " ++
      "Upper case and hyphens are folded automatically (Foo-Bar -> foo_bar); " ++
      "quotes, spaces, dots and non-ASCII are not accepted.")
  else .ok name

/-- A schema name that `validate_schema_name` returns, or that of the public schema. -/
def IsSchema (schema : SchemaName) : Prop :=
  schema = publicSchemaName ∨ ∃ value, validateSchemaName strip lower value = .ok schema

variable {strip lower}

/-- A schema name that is accepted matches the expression. -/
theorem validateSchemaName_ok {value : String} {schema : SchemaName}
    (h : validateSchemaName strip lower value = .ok schema) : schemaNameRe schema.toList = true := by
  unfold validateSchemaName at h
  dsimp only at h
  split at h
  · cases h
  · split at h
    · cases h
    · split at h
      · cases h
      · cases h
        simpa using ‹¬ _ = false›

/-- The expression for a schema name matches only characters of a name. -/
theorem isNameChar_of_schemaNameRe {name : List Char} (h : schemaNameRe name = true) {c : Char}
    (hc : c ∈ name) : isNameChar c = true := by
  cases name with
  | nil => cases hc
  | cons d ds =>
    simp only [schemaNameRe, Bool.and_eq_true, List.all_eq_true] at h
    obtain ⟨⟨⟨-, hd⟩, hds⟩, -⟩ := h
    rcases List.mem_cons.mp hc with rfl | hc
    · rw [isNameChar, hd, Bool.true_or]
    · exact hds c hc

/-- The expression for a schema name bounds its length. -/
theorem length_le_of_schemaNameRe {name : List Char} (h : schemaNameRe name = true) :
    name.length ≤ schemaNameMax := by
  cases name with
  | nil => exact Nat.zero_le _
  | cons c cs =>
    simp only [schemaNameRe, Bool.and_eq_true, decide_eq_true_eq] at h
    rw [List.length_cons, schemaNameMax]
    omega

/-- A schema has only characters of a name. -/
theorem IsSchema.isNameChar {schema : SchemaName} (h : IsSchema strip lower schema) {c : Char}
    (hc : c ∈ schema.toList) : isNameChar c = true := by
  have hre : schemaNameRe schema.toList = true := by
    rcases h with rfl | ⟨value, hvalue⟩
    · decide
    · exact validateSchemaName_ok hvalue
  exact isNameChar_of_schemaNameRe hre hc

/-- No character of the pattern language in a schema name. -/
theorem IsSchema.plain {schema : SchemaName} (h : IsSchema strip lower schema) :
    ∀ c ∈ schema.toList, c ∉ ['*', '?', '[', '\\'] := by
  intro c hc hspecial
  have hname := h.isNameChar hc
  simp only [List.mem_cons, List.not_mem_nil, or_false] at hspecial
  rcases hspecial with rfl | rfl | rfl | rfl
  · exact absurd hname (by decide)
  · exact absurd hname (by decide)
  · exact absurd hname (by decide)
  · exact absurd hname (by decide)

end Validation

/-! ### Keys -/

/-- What building a key can raise. -/
inductive KeyError
  | connectionDoesNotExist (a : Alias)
  | improperlyConfigured (message : String)
  deriving DecidableEq, Repr

/-- `TENANT_NAMESPACE`. -/
def tenantNamespace : String := "tenant"

/-- `current_schema_name()`. -/
def currentSchema (s : Routing) : Except KeyError SchemaName :=
  s.currentSchemaName .connectionDoesNotExist

/-- The message of `tenant_token` off tenant. -/
def offTenant : String :=
  "tenant_key() called outside a tenant context (schema is public). Either " ++
  "build the key inside schema_context()/tenant_context(), or — if the data " ++
  "genuinely has no tenant — use the Django cache API (which namespaces it " ++
  "under tenant:public:) or give it its OWN cache alias, the way " ++
  "tenant_resolve and beat_lock do (see deploy/redis_keys_design.md)."

/-- `tenant_token`. -/
def tenantToken (s : Routing) : Except KeyError SchemaName := do
  let schema ← currentSchema s
  if schema = publicSchemaName then throw (.improperlyConfigured offTenant)
  pure schema

/-- `make_key`. -/
def makeKey (s : Routing) (key keyPrefix : String) (version : Int) : Except KeyError String := do
  let schema ← currentSchema s
  pure (tenantNamespace ++ ":" ++ schema ++ ":" ++ keyPrefix ++ ":" ++ version.repr ++ ":" ++ key)

/-- `tenant_key`. -/
def tenantKey (s : Routing) (parts : List String) : Except KeyError String := do
  let token ← tenantToken s
  pure (":".intercalate (tenantNamespace :: token :: parts))

/-- A call that builds a key. -/
inductive KeyCall
  | makeKey (key keyPrefix : String) (version : Int)
  | tenantKey (parts : List String)
  deriving DecidableEq, Repr

/-- The key that a call builds. -/
def KeyCall.run (s : Routing) : KeyCall → Except KeyError String
  | .makeKey key keyPrefix version => Keys.makeKey s key keyPrefix version
  | .tenantKey parts => Keys.tenantKey s parts

/-- The key that a call builds while the current schema is `schema`. -/
def Built (schema : SchemaName) (c : KeyCall) (key : String) : Prop :=
  ∃ s, currentSchema s = .ok schema ∧ c.run s = .ok key

/-- What follows the schema in a key. -/
def KeyCall.rest : KeyCall → List Char
  | .makeKey key keyPrefix version =>
      ':' :: (keyPrefix.toList ++ ':' :: (version.repr.toList ++ ':' :: key.toList))
  | .tenantKey parts => parts.flatMap (fun part => ':' :: part.toList)

private theorem intercalate_colon (first : List Char) (parts : List (List Char)) :
    [':'].intercalate (first :: parts) = first ++ parts.flatMap (fun part => ':' :: part) := by
  induction parts generalizing first with
  | nil => simp
  | cons part parts ih =>
    rw [List.intercalate_cons_cons, ih part, List.flatMap_cons]
    simp

private theorem tenantToken_of_currentSchema {s : Routing} {schema : SchemaName}
    (hs : currentSchema s = .ok schema) :
    tenantToken s = if schema = publicSchemaName then .error (.improperlyConfigured offTenant)
      else .ok schema := by
  rw [tenantToken, hs]
  by_cases hpublic : schema = publicSchemaName
  · rw [if_pos hpublic]
    exact if_pos hpublic
  · rw [if_neg hpublic]
    exact if_neg hpublic

/-- A key is the namespace, the schema and the rest. -/
theorem Built.toList {schema : SchemaName} {c : KeyCall} {key : String} (h : Built schema c key) :
    key.toList = tenantNamespace.toList ++ ':' :: (schema.toList ++ c.rest) := by
  obtain ⟨s, hs, hrun⟩ := h
  cases c with
  | makeKey logical keyPrefix version =>
    simp only [KeyCall.run, makeKey, hs] at hrun
    cases hrun
    simp [KeyCall.rest]
  | tenantKey parts =>
    simp only [KeyCall.run, tenantKey, tenantToken_of_currentSchema hs] at hrun
    by_cases hpublic : schema = publicSchemaName
    · rw [if_pos hpublic] at hrun
      cases hrun
    rw [if_neg hpublic] at hrun
    cases hrun
    rw [String.toList_intercalate, List.map_cons, List.map_cons]
    have hcolon : ":".toList = [':'] := rfl
    rw [hcolon, intercalate_colon, List.flatMap_cons, KeyCall.rest, List.flatMap_map]
    simp

/-- What follows the schema starts with a separator, unless there is nothing. -/
theorem KeyCall.rest_cases (c : KeyCall) :
    (c = .tenantKey [] ∧ c.rest = []) ∨ (c ≠ .tenantKey [] ∧ ∃ tail, c.rest = ':' :: tail) := by
  cases c with
  | makeKey key keyPrefix version => exact .inr ⟨nofun, _, rfl⟩
  | tenantKey parts =>
    cases parts with
    | nil => exact .inl ⟨rfl, rfl⟩
    | cons part parts => exact .inr ⟨nofun, _, rfl⟩

/-- With a separator after it, the schema is a field of its own. -/
theorem Built.fields {schema : SchemaName} {c : KeyCall} {key : String} (h : Built schema c key) :
    ∃ tail, key.toList ++ [':'] = tenantNamespace.toList ++ ':' :: (schema.toList ++ ':' :: tail) := by
  rw [h.toList]
  rcases c.rest_cases with ⟨-, hrest⟩ | ⟨-, tail, hrest⟩
  · exact ⟨[], by simp [hrest]⟩
  · exact ⟨tail ++ [':'], by simp [hrest]⟩

section Isolation

variable {strip lower : String → String}

end Isolation

end MtShards.Keys
