import Mathlib.Data.Char
import Mathlib.Data.List.Lex
import MtShards.Core.Like
import MtShards.Models.Tenant.Hosts
import MtShards.Models.Tenant.Snapshot

/-!
# Reserved hosts

`ReservedHostRule` matches twice: `matches` decides in Python, on normalized texts; `candidate_q`
narrows in SQL what it is asked about, on the column as it stands. The action `conflicts` streams
what SQL lets through past `matches`.
-/

namespace MtShards.Hosts

open MtShards.Core MtShards.Core.Text

/-- `ReservedHostRule`, as far as matching reads it. -/
structure ReservedHostRule where
  /-- The text of `match_type`, which need not be one of the choices. -/
  matchType : String
  value : Text
  baseDomain : Text
  isActive : Bool
  deriving DecidableEq, Repr

namespace MatchType

/-- `MatchType.EXACT`. -/
def exact : String := "exact"

/-- `MatchType.SUFFIX`. -/
def suffix : String := "suffix"

/-- `MatchType.LABEL`. -/
def label : String := "label"

end MatchType

/-- A condition of a query on the column `domain`. -/
inductive Q
  | domain (value : Text)
  | domainEndswith (value : Text)
  | domainStartswith (value : Text)
  | or (p q : Q)
  /-- `pk__in=[]`. -/
  | none
  deriving DecidableEq, Repr

/-- What a condition selects; the lookups by an end are `LIKE` with the value escaped. -/
def Q.selects : Q → Text → Bool
  | domain value, d => d == value
  | domainEndswith value, d => like ('%' :: likeEscape value) d
  | domainStartswith value, d => like (likeEscape value ++ ['%']) d
  | or p q, d => p.selects d || q.selects d
  | none, _ => false

/-- `str.endswith`. -/
def endswith (s tail : Text) : Bool := tail.isSuffixOf s

namespace ReservedHostRule

variable (U : UnicodeData)

/-- `ReservedHostRule.matches`. -/
def «matches» (rule : ReservedHostRule) (host : Text) : Bool :=
  let host := normalizeHost U host
  let val := normalizeHost U rule.value
  if rule.matchType = MatchType.exact then host == val
  else if rule.matchType = MatchType.suffix then host == val || endswith host ('.' :: val)
  else if rule.matchType = MatchType.label then
    -- `host.split(".", 1)[0]`
    if host.takeWhile (!isDot ·) ≠ val then false
    else
      let base := normalizeHost U rule.baseDomain
      base.isEmpty || host == base || endswith host ('.' :: base)
  else false

/-- `ReservedHostRule.candidate_q`. -/
def candidateQ (rule : ReservedHostRule) : Q :=
  let val := normalizeHost U rule.value
  if rule.matchType = MatchType.exact then .domain val
  else if rule.matchType = MatchType.suffix then .or (.domain val) (.domainEndswith ('.' :: val))
  else if rule.matchType = MatchType.label then .or (.domain val) (.domainStartswith (val ++ ['.']))
  else .none

end ReservedHostRule

/-! ### The action `conflicts` -/

/-- A row of `Domain`, with the schema of its tenant. -/
structure DomainRow where
  domain : Text
  tenantSchema : SchemaName
  deriving DecidableEq, Repr

/-- The table of `Domain`: hostnames are unique, and canonical. -/
structure DomainTable (U : UnicodeData) where
  rows : List DomainRow
  unique : (rows.map DomainRow.domain).Nodup
  canonical : ∀ row ∈ rows, normalizeHost U row.domain = row.domain

/-- The order in which the database sorts hostnames. -/
structure HostnameOrder where
  le : Text → Text → Bool
  trans : ∀ a b c, le a b = true → le b c = true → le a c = true
  total : ∀ a b, (le a b || le b a) = true
  antisymm : ∀ a b, le a b = true → le b a = true → a = b

/-- `order_by("domain")`. -/
def HostnameOrder.sort (order : HostnameOrder) (rows : List DomainRow) : List DomainRow :=
  rows.mergeSort fun a b => order.le a.domain b.domain

/-- `CONFLICTS_SAMPLE`. -/
def conflictsSample : Nat := 200

/-- The body of the response; a domain goes with the schema of its tenant. -/
structure Conflicts where
  count : Nat
  domains : List (Text × SchemaName)
  sample : Bool
  deriving DecidableEq, Repr

section Conflicts

variable (U : UnicodeData) (order : HostnameOrder) (rule : ReservedHostRule)

/-- The tenant is not the public one. -/
def DomainRow.isBusiness (row : DomainRow) : Bool := row.tenantSchema != publicSchemaName

/-- What the query of `conflicts` answers. -/
def conflictsQuery (table : DomainTable U) : List DomainRow :=
  order.sort ((table.rows.filter DomainRow.isBusiness).filter fun row =>
    (rule.candidateQ U).selects row.domain)

/-- The body of the loop over the rows. -/
def conflictsStep (acc : Nat × List (Text × SchemaName)) (row : DomainRow) :
    Nat × List (Text × SchemaName) :=
  if rule.matches U row.domain then
    (acc.1 + 1,
      if acc.2.length < conflictsSample then acc.2 ++ [(row.domain, row.tenantSchema)] else acc.2)
  else acc

/-- `ReservedHostRuleViewSet.conflicts`, of an answer that is fetched in these chunks. -/
def conflicts (chunks : List (List DomainRow)) : Conflicts :=
  let acc := chunks.foldl (fun acc chunk => chunk.foldl (conflictsStep U rule) acc) (0, [])
  ⟨acc.1, acc.2, decide (acc.2.length < acc.1)⟩

end Conflicts

/-! ### SQL loses no match -/

variable {U : UnicodeData} {rule : ReservedHostRule} {domain : Text}

private theorem endswith_iff {s tail : Text} : endswith s tail = true ↔ tail <:+ s :=
  List.isSuffixOf_iff_suffix

/-- A host is its leading label, or the label stands before a dot. -/
theorem prefix_of_takeWhile {host val : Text} (h : host.takeWhile (!isDot ·) = val) :
    host = val ∨ val ++ ['.'] <+: host := by
  have hsplit := List.takeWhile_append_dropWhile (p := (!isDot ·)) (l := host)
  rw [h] at hsplit
  cases hrest : host.dropWhile (!isDot ·) with
  | nil =>
    rw [hrest, List.append_nil] at hsplit
    exact .inl hsplit.symm
  | cons c cs =>
    have hdot : c = '.' := by
      have hclear := startsClear_dropWhile (p := (!isDot ·)) host c (by rw [hrest]; rfl)
      simpa [isDot] using hclear
    rw [hrest, hdot] at hsplit
    exact .inr ⟨cs, by rw [← hsplit, List.append_assoc]; rfl⟩

/-- What a rule matches satisfies its condition, as long as the hostname is canonical. -/
theorem selects_of_matches (hcanonical : normalizeHost U domain = domain)
    (h : rule.matches U domain = true) : (rule.candidateQ U).selects domain = true := by
  unfold ReservedHostRule.matches at h
  unfold ReservedHostRule.candidateQ
  rw [hcanonical] at h
  dsimp only at h ⊢
  split at h
  · rename_i hexact
    rw [if_pos hexact]
    exact h
  · rename_i hexact
    rw [if_neg hexact]
    split at h
    · rename_i hsuffix
      rw [if_pos hsuffix, Q.selects, Q.selects, Q.selects]
      rw [Bool.or_eq_true] at h ⊢
      exact h.imp_right fun hend => like_endswith.mpr (endswith_iff.mp hend)
    · rename_i hsuffix
      rw [if_neg hsuffix]
      split at h
      · rename_i hlabel
        rw [if_pos hlabel, Q.selects, Q.selects, Q.selects, Bool.or_eq_true, beq_iff_eq,
          like_startswith]
        split at h
        · cases h
        · rename_i hval
          exact prefix_of_takeWhile (Decidable.of_not_not hval)
      · cases h

/-! ### What `conflicts` reports -/

variable {order : HostnameOrder} {p : DomainRow → Bool}

/-- A row as the response shows it. -/
def DomainRow.entry (row : DomainRow) : Text × SchemaName := (row.domain, row.tenantSchema)

theorem sort_perm (order : HostnameOrder) (rows : List DomainRow) : (order.sort rows).Perm rows :=
  List.mergeSort_perm _ _

theorem pairwise_sort (order : HostnameOrder) (rows : List DomainRow) :
    (order.sort rows).Pairwise fun a b => order.le a.domain b.domain = true :=
  List.pairwise_mergeSort (fun a b c => order.trans a.domain b.domain c.domain)
    (fun a b => order.total a.domain b.domain) rows

theorem DomainTable.row_ext (table : DomainTable U) {a b : DomainRow} (ha : a ∈ table.rows)
    (hb : b ∈ table.rows) (h : a.domain = b.domain) : a = b :=
  List.inj_on_of_nodup_map table.unique ha hb h

/-- Sorting and filtering commute on the rows of a table, where no hostname stands twice. -/
theorem filter_sort (table : DomainTable U) {rows : List DomainRow} (hrows : rows ⊆ table.rows) :
    (order.sort rows).filter p = order.sort (rows.filter p) := by
  have hperm : ((order.sort rows).filter p).Perm (order.sort (rows.filter p)) :=
    ((sort_perm order rows).filter p).trans (sort_perm order _).symm
  refine hperm.eq_of_pairwise ?_ ((pairwise_sort order rows).filter p) (pairwise_sort order _)
  intro a b ha hb hab hba
  have ha' := hrows ((sort_perm order rows).subset (List.mem_of_mem_filter ha))
  have hb' := hrows (List.mem_of_mem_filter ((sort_perm order _).subset hb))
  exact table.row_ext ha' hb' (order.antisymm _ _ hab hba)

private theorem conflictsStep_append (kept : List DomainRow) (row : DomainRow) :
    conflictsStep U rule (kept.length, (kept.take conflictsSample).map DomainRow.entry) row =
      ((kept ++ [row].filter (rule.matches U ·.domain)).length,
        ((kept ++ [row].filter (rule.matches U ·.domain)).take conflictsSample).map
          DomainRow.entry) := by
  unfold conflictsStep
  cases hmatches : rule.matches U row.domain with
  | false => simp [hmatches]
  | true =>
    have hone : [row].filter (rule.matches U ·.domain) = [row] := by simp [hmatches]
    rw [if_pos rfl, hone, List.length_append]
    dsimp only
    rw [List.length_map, List.length_take]
    by_cases hroom : kept.length < conflictsSample
    · have hnext : (kept ++ [row]).length ≤ conflictsSample := by
        rw [List.length_append]
        exact hroom
      rw [if_pos (by omega), List.take_of_length_le (Nat.le_of_lt hroom),
        List.take_of_length_le hnext, List.map_append]
      rfl
    · rw [if_neg (by omega), List.take_append_of_le_length (Nat.le_of_not_lt hroom)]
      rfl

private theorem foldl_conflictsStep (kept rows : List DomainRow) :
    rows.foldl (conflictsStep U rule)
        (kept.length, (kept.take conflictsSample).map DomainRow.entry) =
      ((kept ++ rows.filter (rule.matches U ·.domain)).length,
        ((kept ++ rows.filter (rule.matches U ·.domain)).take conflictsSample).map
          DomainRow.entry) := by
  induction rows generalizing kept with
  | nil => simp
  | cons row rows ih =>
    rw [List.foldl_cons, conflictsStep_append, ih, List.append_assoc, ← List.filter_append,
      List.singleton_append]

/-- The rows that a rule reserves: those of business tenants that it matches. -/
def reserved (table : DomainTable U) (rule : ReservedHostRule) : List DomainRow :=
  table.rows.filter fun row => row.isBusiness && rule.matches U row.domain

private theorem filter_conflictsQuery (table : DomainTable U) :
    (conflictsQuery U order rule table).filter (rule.matches U ·.domain) =
      order.sort (reserved table rule) := by
  have hrows : (table.rows.filter DomainRow.isBusiness).filter
      (fun row => (rule.candidateQ U).selects row.domain) ⊆ table.rows :=
    fun row hrow => List.mem_of_mem_filter (List.mem_of_mem_filter hrow)
  rw [conflictsQuery, filter_sort table hrows, reserved, List.filter_filter, List.filter_filter]
  refine congrArg order.sort (List.filter_congr fun row hrow => ?_)
  cases hmatches : rule.matches U row.domain with
  | false => simp
  | true => simp [selects_of_matches (table.canonical row hrow) hmatches]

/-- SQL loses no match, and `conflicts` reports what the rule reserves, however the answer is
fetched: all of it counted, and the first of it in the order of the hostnames. -/
theorem prefilter_loses_no_conflict (U : UnicodeData) (rule : ReservedHostRule) :
    (∀ domain, normalizeHost U domain = domain → rule.matches U domain = true →
      (rule.candidateQ U).selects domain = true) ∧
    ∀ (order : HostnameOrder) (table : DomainTable U) (chunks : List (List DomainRow)),
      chunks.flatten = conflictsQuery U order rule table →
      let body := conflicts U rule chunks
      body.count = (reserved table rule).length ∧
        body.domains = ((order.sort (reserved table rule)).take conflictsSample).map
          DomainRow.entry ∧
        (body.sample = true ↔ body.domains.length < (reserved table rule).length) := by
  refine ⟨fun domain => selects_of_matches, fun order table chunks hchunks => ?_⟩
  have hfold : chunks.foldl (fun acc chunk => chunk.foldl (conflictsStep U rule) acc) (0, []) =
      ((order.sort (reserved table rule)).length,
        ((order.sort (reserved table rule)).take conflictsSample).map DomainRow.entry) := by
    rw [← List.foldl_flatten, hchunks]
    refine (foldl_conflictsStep [] (conflictsQuery U order rule table)).trans ?_
    rw [List.nil_append, filter_conflictsQuery]
  have hcount : (order.sort (reserved table rule)).length = (reserved table rule).length :=
    (sort_perm order _).length_eq
  rw [hcount] at hfold
  simp only [conflicts, hfold, decide_eq_true_eq]
  exact ⟨trivial, trivial, trivial⟩

/-- The order by code points, as a collation `C` has it. -/
def codePointOrder : HostnameOrder where
  le a b := decide (a ≤ b)
  trans a b c hab hbc := by
    simpa using le_trans (of_decide_eq_true hab) (of_decide_eq_true hbc)
  total a b := by simpa using le_total a b
  antisymm a b hab hba := le_antisymm (of_decide_eq_true hab) (of_decide_eq_true hba)

/-- The hostnames of two tenants, and one of the platform. -/
def hostTable : DomainTable UnicodeData.ascii where
  rows := [⟨"www.acme.com".toList, "acme"⟩, ⟨"www.beta.org".toList, "beta"⟩,
    ⟨"shop.acme.com".toList, "acme"⟩, ⟨"www.us.acme.com".toList, "public"⟩]
  unique := by decide
  canonical := by decide

/-- The label `www` under `acme.com`, written in upper case. -/
def wwwUnderAcme : ReservedHostRule := ⟨MatchType.label, "WWW".toList, "acme.com".toList, true⟩

/-- SQL lets a hostname of another base domain through; `conflicts` does not report it. -/
theorem prefilter_loses_no_conflict_label :
    (∀ domain, normalizeHost .ascii domain = domain → wwwUnderAcme.matches .ascii domain = true →
      (wwwUnderAcme.candidateQ .ascii).selects domain = true) ∧
    (wwwUnderAcme.candidateQ .ascii).selects "www.beta.org".toList = true ∧
    let body := conflicts .ascii wwwUnderAcme
      [conflictsQuery .ascii codePointOrder wwwUnderAcme hostTable]
    body.count = 1 ∧ body.domains = [("www.acme.com".toList, "acme")] ∧ body.sample = false := by
  obtain ⟨hloses, hreports⟩ := prefilter_loses_no_conflict .ascii wwwUnderAcme
  obtain ⟨hcount, hdomains, hsample⟩ := hreports codePointOrder hostTable
    [conflictsQuery .ascii codePointOrder wwwUnderAcme hostTable] (by simp)
  have hreserved : reserved hostTable wwwUnderAcme = [⟨"www.acme.com".toList, "acme"⟩] := by
    decide
  rw [hreserved] at hcount hdomains hsample
  rw [HostnameOrder.sort, List.mergeSort_singleton] at hdomains
  refine ⟨hloses, by decide, hcount, hdomains, ?_⟩
  rw [← Bool.not_eq_true, hsample, hdomains]
  decide

end MtShards.Hosts
