import MtShards.Models.Keys.CacheKeys
import MtShards.Models.Tenant.ReservedHosts

/-!
# Schema names that are reserved

A global label rule reserves its word for hosts and for schemas. The word is compared with a schema
name by `validate_tenant_schema_name`, as `normalize_host` makes it, while the name is what
`normalize_schema_name` makes, which folds the hyphens that a label may have.
-/

namespace MtShards.Hosts

open MtShards.Core MtShards.Core.Text MtShards.Keys

/-- `str.strip` of a string. -/
def strStrip (s : String) : String := .ofList (strip s.toList)

section Names

variable (U : UnicodeData)

/-- `str.lower` of a string. -/
def strLower (s : String) : String := .ofList (U.lower s.toList)

/-- `normalize_schema_name`, with the methods of `str`. -/
abbrev normalizeName (value : String) : String := normalizeSchemaName strStrip (strLower U) value

/-- `validate_schema_name`, with the methods of `str`. -/
abbrev validateName (value : String) : Except String SchemaName :=
  validateSchemaName strStrip (strLower U) value

/-- The rule is one of those that `reserved_schema_labels` asks for. -/
def ReservedHostRule.IsGlobalLabel (rule : ReservedHostRule) : Prop :=
  rule.isActive = true ∧ rule.matchType = MatchType.label ∧ rule.baseDomain = []

instance (rule : ReservedHostRule) : Decidable rule.IsGlobalLabel :=
  inferInstanceAs (Decidable (_ ∧ _))

/-- `reserved_schema_labels`. -/
def reservedSchemaLabels (rules : List ReservedHostRule) : List Text :=
  (rules.filter fun rule => rule.IsGlobalLabel).map fun rule => normalizeHost U rule.value

/-- `validate_tenant_schema_name`. -/
def validateTenantSchemaName (rules : List ReservedHostRule) (value : String) :
    Except String String :=
  let name := strLower U (strStrip value)
  if name.toList ∈ reservedSchemaLabels U rules then .error s!"Schema name '{name}' is reserved."
  else .ok name

/-- `TenantSerializer.validate_schema_name`, with whether a tenant of a name is there. -/
def serializerValidateSchemaName (rules : List ReservedHostRule) (taken : SchemaName → Bool)
    (value : String) : Except String SchemaName := do
  let value ← validateName U value
  if value = publicSchemaName then .error "Schema name 'public' is reserved."
  else
    let _ ← validateTenantSchemaName U rules value
    if taken value then .error s!"Tenant with schema '{value}' already exists."
    else .ok value

/-- A `ValidationError`: a message, or one for a field. -/
inductive ValidationError
  | message (text : String)
  | field (name text : String)
  deriving DecidableEq, Repr

/-- The columns of `Shard` that `Tenant.clean` reads. -/
structure ShardChoice where
  isDefault : Bool
  isActive : Bool
  deriving DecidableEq, Repr

/-- `Tenant.clean`; the answer is what `schema_name` is afterwards. -/
def tenantClean (rules : List ReservedHostRule) (pk : Option Nat) (shard : ShardChoice)
    (schemaName : String) : Except ValidationError String :=
  if schemaName = publicSchemaName then
    if shard.isDefault then .ok schemaName
    else .error (.field "shard" "Public schema must be on the default shard.")
  else if shard.isDefault then
    .error (.field "shard" "Business tenants cannot live on the default shard.")
  else if shard.isActive = false then .error (.field "shard" "Selected shard is not active.")
  else
    match pk with
    | some _ => .ok schemaName
    | none =>
      match validateName U schemaName with
      | .error text => .error (.message text)
      | .ok name =>
        match validateTenantSchemaName U rules name with
        | .error text => .error (.message text)
        | .ok _ => .ok name

end Names

/-- A check that raises. -/
def Rejects {ε α : Type} (check : Except ε α) : Prop := ∃ e, check = .error e

/-! ### Names of labels -/

variable {U : UnicodeData} {rules : List ReservedHostRule} {rule : ReservedHostRule}
  {label : Text} {c : Char} {name : String}

/-- The hyphen folded. -/
def foldHyphen (c : Char) : Char := if c = '-' then '_' else c

/-- A name is normalized by stripping, lowering and folding its hyphens. -/
theorem toList_normalizeName (value : String) :
    (normalizeName U value).toList = (U.lower (strip value.toList)).map foldHyphen := by
  simp only [normalizeName, normalizeSchemaName, strLower, strStrip, String.toList_ofList]
  rfl

/-- A label that is accepted is one, stripped and in lower case. -/
theorem validateLabel_ok (h : validateLabel U rule.value = .ok label) :
    label = U.lower (strip rule.value) ∧ IsLabel label := by
  unfold validateLabel at h
  dsimp only at h
  split at h
  · cases h
  · rename_i hre
    cases h
    exact ⟨rfl, labelRe_iff.mp ((Bool.not_eq_false _).mp hre)⟩

/-- A label has no dots to cut off. -/
theorem normalizeHost_of_label (h : validateLabel U rule.value = .ok label) :
    normalizeHost U rule.value = label := by
  obtain ⟨heq, hlabel⟩ := validateLabel_ok h
  rw [normalizeHost, ← heq]
  refine rdropWhile_eq_self_iff.mpr (endsClear_of_forall fun c hc => ?_)
  rw [isDot, beq_eq_false_iff_ne]
  rintro rfl
  exact hlabel.dot_not_mem hc

/-- A folded character of a label is one of a name. -/
theorem isNameChar_foldHyphen (h : isLabelChar c = true) : isNameChar (foldHyphen c) = true := by
  unfold foldHyphen
  split
  · decide
  · rename_i hhyphen
    rw [isLabelChar, Bool.or_eq_true, beq_iff_eq] at h
    have hword := h.resolve_right hhyphen
    rw [isNameChar, hword, Bool.true_or]

/-- A folded label has only characters of a name. -/
theorem isNameChar_of_fold (hlabel : IsLabel label) (hname : name.toList = label.map foldHyphen) :
    ∀ c ∈ name.toList, isNameChar c = true := by
  rw [hname]
  intro c hc
  obtain ⟨d, hd, rfl⟩ := List.mem_map.mp hc
  exact isNameChar_foldHyphen (hlabel.chars d hd)

/-- A label with its hyphens folded is a schema name, unless it starts with `pg_`. -/
theorem schemaNameRe_fold (hlabel : IsLabel label) :
    schemaNameRe (label.map foldHyphen) = !"pg_".toList.isPrefixOf (label.map foldHyphen) := by
  cases label with
  | nil => exact absurd hlabel.one_le (by decide)
  | cons c cs =>
    have hfirst : c ≠ '-' := fun h => hlabel.first (by rw [h]; rfl)
    have hc := hlabel.chars c List.mem_cons_self
    rw [isLabelChar, Bool.or_eq_true, beq_iff_eq] at hc
    have hword := hc.resolve_right hfirst
    have hrest : (cs.map foldHyphen).all isNameChar = true := by
      refine List.all_eq_true.mpr fun d hd => ?_
      obtain ⟨e, he, rfl⟩ := List.mem_map.mp hd
      exact isNameChar_foldHyphen (hlabel.chars e (List.mem_cons_of_mem c he))
    have hlen : (cs.map foldHyphen).length ≤ 62 := by
      have hle := hlabel.le
      rw [List.length_cons] at hle
      rw [List.length_map]
      omega
    have hsame : foldHyphen c = c := if_neg hfirst
    rw [List.map_cons, hsame, schemaNameRe, hword, hrest, decide_eq_true hlen]
    simp

/-- The characters of a name are plain. -/
theorem isPlain_of_isNameChar (h : isNameChar c = true) : IsPlain c := by
  rw [isNameChar, Bool.or_eq_true] at h
  obtain hword | hunder := h
  · exact isPlain_of_word hword
  · rw [eq_of_beq hunder]
    exact ⟨by decide, by decide, by decide⟩

/-- What has the characters of a schema name is trimmed and lower case. -/
theorem lower_strip_of_name (h : ∀ c ∈ name.toList, isNameChar c = true) :
    strLower U (strStrip name) = name := by
  have hplain : ∀ c ∈ name.toList, IsPlain c := fun c hc => isPlain_of_isNameChar (h c hc)
  rw [strLower, strStrip, String.toList_ofList, strip_of_plain hplain,
    UnicodeData.lower_of_plain hplain, String.ofList_toList]

private theorem isNameChar_ne_hyphen (h : isNameChar c = true) : c ≠ '-' := by
  rintro rfl
  exact absurd h (by decide)

/-- A name in the pattern of schema names is one as it stands. -/
theorem validateName_of_schemaNameRe (h : schemaNameRe name.toList = true) :
    validateName U name = .ok name := by
  have hchars : ∀ c ∈ name.toList, isNameChar c = true := fun c => isNameChar_of_schemaNameRe h
  have hsame : normalizeSchemaName strStrip (strLower U) name = name := by
    rw [normalizeSchemaName, lower_strip_of_name hchars]
    refine String.toList_inj.mp (String.toList_ofList.trans ?_)
    refine (List.map_congr_left fun c hc => if_neg ?_).trans (List.map_id _)
    exact isNameChar_ne_hyphen (hchars c hc)
  have hne : name ≠ "" := by
    rintro rfl
    cases h
  have hlen : ¬schemaNameMax < name.toList.length := not_lt.mpr (length_le_of_schemaNameRe h)
  rw [validateName, validateSchemaName, hsame, if_neg hne, if_neg hlen, if_neg (by simp [h])]

/-! ### Reserved words -/

/-- A global label rule has the name for its word. -/
def Reserved (U : UnicodeData) (rules : List ReservedHostRule) (name : SchemaName) : Prop :=
  ∃ rule ∈ rules, rule.IsGlobalLabel ∧ normalizeHost U rule.value = name.toList

/-- A name is among the reserved labels exactly if it is reserved. -/
theorem mem_reservedSchemaLabels :
    name.toList ∈ reservedSchemaLabels U rules ↔ Reserved U rules name := by
  simp only [reservedSchemaLabels, List.mem_map, List.mem_filter, decide_eq_true_eq, and_assoc]
  exact Iff.rfl

section Rejects

variable {ε α β : Type}

/-- An exception rejects. -/
@[simp] theorem rejects_error (e : ε) : Rejects (.error e : Except ε α) := ⟨e, rfl⟩

/-- A value does not reject. -/
@[simp] theorem rejects_ok (a : α) : ¬Rejects (.ok a : Except ε α) := by
  rintro ⟨e, he⟩
  cases he

/-- After a value it is the rest that rejects. -/
theorem rejects_ok_bind (a : α) (f : α → Except ε β) :
    Rejects ((.ok a : Except ε α) >>= f) ↔ Rejects (f a) :=
  Iff.rfl

/-- A check that stands before the rest. -/
theorem rejects_ite {p : Prop} [Decidable p] (e : ε) (check : Except ε α) :
    Rejects (if p then .error e else check) ↔ p ∨ Rejects check := by
  by_cases hp : p
  · simp [hp]
  · simp [hp]

end Rejects

/-- A text of name characters is refused exactly if it is reserved. -/
theorem validateTenantSchemaName_eq (h : ∀ c ∈ name.toList, isNameChar c = true) :
    validateTenantSchemaName U rules name =
      if name.toList ∈ reservedSchemaLabels U rules then .error s!"Schema name '{name}' is reserved."
      else .ok name := by
  rw [validateTenantSchemaName, lower_strip_of_name h]

section Words

variable {v : String}

/-- What is reserved of a name that a label folds to. -/
theorem reserved_of_label (hrule : rule ∈ rules) (hglobal : rule.IsGlobalLabel)
    (hlabel : validateLabel U rule.value = .ok label)
    (hname : name.toList = label.map foldHyphen) (hhyphen : '-' ∉ label) :
    Reserved U rules name := by
  refine ⟨rule, hrule, hglobal, ?_⟩
  rw [normalizeHost_of_label hlabel, hname]
  refine ((List.map_congr_left fun c hc => if_neg ?_).trans (List.map_id label)).symm
  rintro rfl
  exact hhyphen hc

/-- What `validate_schema_name` makes of a name that a label folds to. -/
theorem validateName_of_fold (hlabel : IsLabel label)
    (hname : (normalizeName U v).toList = label.map foldHyphen) :
    ("pg_".toList <+: (normalizeName U v).toList ∧ Rejects (validateName U v)) ∨
      (¬"pg_".toList <+: (normalizeName U v).toList ∧
        validateName U v = .ok (normalizeName U v)) := by
  have hlen : (normalizeName U v).toList.length = label.length := by
    rw [hname, List.length_map]
  have hne : normalizeName U v ≠ "" := by
    intro h
    have hpos := hlabel.one_le
    rw [← hlen, h] at hpos
    exact absurd hpos (by decide)
  have hle : ¬schemaNameMax < (normalizeName U v).toList.length := by
    rw [hlen]
    exact Nat.not_lt.mpr hlabel.le
  have hre : schemaNameRe (normalizeName U v).toList =
      !"pg_".toList.isPrefixOf (normalizeName U v).toList := by
    rw [hname]
    exact schemaNameRe_fold hlabel
  rw [← List.isPrefixOf_iff_prefix]
  cases hpg : "pg_".toList.isPrefixOf (normalizeName U v).toList with
  | true =>
    rw [hpg, Bool.not_true] at hre
    refine .inl ⟨rfl, ?_⟩
    simp only [validateName, validateSchemaName, if_neg hne, if_neg hle, if_pos hre]
    exact ⟨_, rfl⟩
  | false =>
    rw [hpg, Bool.not_false] at hre
    refine .inr ⟨Bool.false_ne_true, ?_⟩
    have hyes : ¬schemaNameRe (normalizeName U v).toList = false := by simp [hre]
    simp only [validateName, validateSchemaName, if_neg hne, if_neg hle, if_neg hyes]

/-- A name that starts with `pg_` is no schema name; any other one that a label folds to is
rejected if and only if a label rule has it for its word. -/
theorem rejects_serializer_iff (hlabel : IsLabel label)
    (hname : (normalizeName U v).toList = label.map foldHyphen) (taken : SchemaName → Bool) :
    Rejects (serializerValidateSchemaName U rules taken v) ↔
      "pg_".toList <+: (normalizeName U v).toList ∨ normalizeName U v = publicSchemaName ∨
        Reserved U rules (normalizeName U v) ∨ taken (normalizeName U v) = true := by
  have hchars := isNameChar_of_fold hlabel hname
  rw [← mem_reservedSchemaLabels]
  obtain ⟨hpg, e, he⟩ | ⟨hpg, hok⟩ := validateName_of_fold hlabel hname
  · refine iff_of_true ?_ (.inl hpg)
    rw [serializerValidateSchemaName, he]
    exact ⟨e, rfl⟩
  · rw [or_iff_right hpg, serializerValidateSchemaName, hok, rejects_ok_bind, rejects_ite,
      validateTenantSchemaName_eq hchars]
    refine or_congr_right ?_
    by_cases hreserved : (normalizeName U v).toList ∈ reservedSchemaLabels U rules
    · rw [if_pos hreserved]
      exact iff_of_true ⟨_, rfl⟩ (.inl hreserved)
    · rw [if_neg hreserved, or_iff_right hreserved, rejects_ok_bind, rejects_ite]
      exact or_iff_left (rejects_ok _)

/-- When the form rejects a name that is a folded label. -/
theorem rejects_clean_iff (hlabel : IsLabel label)
    (hname : (normalizeName U v).toList = label.map foldHyphen) (shard : ShardChoice) :
    Rejects (tenantClean U rules none shard v) ↔
      if v = publicSchemaName then shard.isDefault = false
      else shard.isDefault = true ∨ shard.isActive = false ∨
        "pg_".toList <+: (normalizeName U v).toList ∨ Reserved U rules (normalizeName U v) := by
  have hchars := isNameChar_of_fold hlabel hname
  rw [tenantClean]
  split
  · split
    · rename_i hdefault
      exact iff_of_false (rejects_ok _) (by simp [hdefault])
    · rename_i hdefault
      exact iff_of_true (rejects_error _) (Bool.eq_false_iff.mpr hdefault)
  · rw [rejects_ite, rejects_ite, ← mem_reservedSchemaLabels]
    refine or_congr_right (or_congr_right ?_)
    obtain ⟨hpg, e, he⟩ | ⟨hpg, hok⟩ := validateName_of_fold hlabel hname
    · rw [he]
      exact iff_of_true (rejects_error _) (.inl hpg)
    · rw [hok, or_iff_right hpg]
      dsimp only
      rw [validateTenantSchemaName_eq hchars]
      by_cases hreserved : (normalizeName U v).toList ∈ reservedSchemaLabels U rules
      · rw [if_pos hreserved]
        exact iff_of_true (rejects_error _) hreserved
      · rw [if_neg hreserved]
        exact iff_of_false (rejects_ok _) hreserved

end Words

/-- A global label rule reserves the schema name that its word folds to if and only if the word has
no hyphen, but for what else rejects the name: `pg_`, the public schema, another rule, a tenant
that has it, and the choice of the shard. -/
theorem reserved_words_cover_names {v : String} (hrule : rule ∈ rules)
    (hglobal : rule.IsGlobalLabel) (hlabel : validateLabel U rule.value = .ok label)
    (hsame : normalizeName U v = normalizeName U (.ofList rule.value)) (taken : SchemaName → Bool)
    (shard : ShardChoice) :
    (Rejects (serializerValidateSchemaName U rules taken v) ↔
      '-' ∉ label ∨ "pg_".toList <+: (normalizeName U v).toList ∨
        normalizeName U v = publicSchemaName ∨ Reserved U rules (normalizeName U v) ∨
          taken (normalizeName U v) = true) ∧
    (Rejects (tenantClean U rules none shard v) ↔
      if v = publicSchemaName then shard.isDefault = false
      else '-' ∉ label ∨ shard.isDefault = true ∨ shard.isActive = false ∨
        "pg_".toList <+: (normalizeName U v).toList ∨ Reserved U rules (normalizeName U v)) := by
  obtain ⟨heq, hlbl⟩ := validateLabel_ok hlabel
  have hname : (normalizeName U v).toList = label.map foldHyphen := by
    rw [hsame, toList_normalizeName, String.toList_ofList, ← heq]
  have hown : '-' ∉ label → Reserved U rules (normalizeName U v) :=
    reserved_of_label hrule hglobal hlabel hname
  rw [rejects_serializer_iff hlbl hname, rejects_clean_iff hlbl hname]
  refine ⟨?_, ?_⟩
  · exact (or_iff_right_of_imp fun h => .inr (.inr (.inl (hown h)))).symm
  · split
    · exact Iff.rfl
    · exact (or_iff_right_of_imp fun h => .inr (.inr (.inr (hown h)))).symm

/-- A global label rule. -/
def globalLabel (word : Text) : ReservedHostRule := ⟨MatchType.label, word, [], true⟩

/-- A word without a hyphen is reserved in every spelling. -/
theorem reserved_words_cover_names_www :
    Rejects (serializerValidateSchemaName UnicodeData.ascii [globalLabel "www".toList]
        (fun _ => false) " WWW") ∧
      Rejects (tenantClean UnicodeData.ascii [globalLabel "www".toList] none ⟨false, true⟩
        " WWW") := by
  have hlabel : validateLabel UnicodeData.ascii (globalLabel "www".toList).value =
      .ok "www".toList := by decide
  have hsame : normalizeName UnicodeData.ascii " WWW" =
      normalizeName UnicodeData.ascii (.ofList (globalLabel "www".toList).value) := by
    refine String.toList_inj.mp ?_
    rw [toList_normalizeName, toList_normalizeName, String.toList_ofList]
    decide
  have hwww := reserved_words_cover_names (List.mem_singleton_self _) ⟨rfl, rfl, rfl⟩ hlabel hsame
    (fun _ => false) ⟨false, true⟩
  rw [if_neg (by decide)] at hwww
  exact ⟨hwww.1.mpr (.inl (by decide)), hwww.2.mpr (.inl (by decide))⟩

/-- The word `free-trial` is reserved, and the schema that it folds to is not. -/
theorem reserved_words_cover_names_fails :
    validateLabel UnicodeData.ascii "free-trial".toList = .ok "free-trial".toList ∧
      normalizeName UnicodeData.ascii "free_trial" =
        normalizeName UnicodeData.ascii (.ofList "free-trial".toList) ∧
      ¬Rejects (serializerValidateSchemaName UnicodeData.ascii [globalLabel "free-trial".toList]
        (fun _ => false) "free_trial") ∧
      ¬Rejects (tenantClean UnicodeData.ascii [globalLabel "free-trial".toList] none ⟨false, true⟩
        "free_trial") := by
  have hlabel : validateLabel UnicodeData.ascii (globalLabel "free-trial".toList).value =
      .ok "free-trial".toList := by decide
  have hword := (validateLabel_ok hlabel).2
  have hname : (normalizeName UnicodeData.ascii "free_trial").toList = "free_trial".toList := by
    rw [toList_normalizeName]
    decide
  have hfold : (normalizeName UnicodeData.ascii "free_trial").toList =
      "free-trial".toList.map foldHyphen := by
    rw [hname]
    decide
  have hfree : ¬Reserved UnicodeData.ascii [globalLabel "free-trial".toList]
      (normalizeName UnicodeData.ascii "free_trial") := by
    rw [← mem_reservedSchemaLabels, hname]
    decide
  have hpublic : normalizeName UnicodeData.ascii "free_trial" ≠ publicSchemaName := by
    intro h
    rw [h] at hname
    exact absurd hname (by decide)
  refine ⟨hlabel, ?_, ?_, ?_⟩
  · refine String.toList_inj.mp ?_
    rw [hname, toList_normalizeName, String.toList_ofList]
    decide
  · rw [rejects_serializer_iff hword hfold, hname]
    rintro (hpg | h | h | h)
    · exact absurd hpg (by decide)
    · exact hpublic h
    · exact hfree h
    · cases h
  · rw [rejects_clean_iff hword hfold, hname, if_neg (by decide)]
    rintro (h | h | hpg | h)
    · cases h
    · cases h
    · exact absurd hpg (by decide)
    · exact hfree h

end MtShards.Hosts
