import MtShards.Core.Paths
import MtShards.Models.Tenant.QuoteSchema

/-!
# Log files of a run

All the targets of a run write into one folder. A tenant's file goes by its schema name where that
name is in the pattern of new names, and by its primary key otherwise; the files of the run itself
start with an underscore, as no name in the pattern does.
-/

namespace MtShards.Migrator

open MtShards.Core MtShards.Core.Text MtShards.Keys
open MtShards.Hosts (validateName isSafeSchemaIdentifier quoteSchema isUnsafeChar
  isPlain_of_isNameChar validateName_of_schemaNameRe)

/-- `SHARED_LOG`. -/
def sharedLog : String := "_shared.log"

/-- `SUMMARY_LOG`. -/
def summaryLog : String := "_summary.log"

/-- `tenant_log_name`. -/
def tenantLogName (schema : SchemaName) (pk : Int) : String :=
  if schemaNameRe schema.toList then schema ++ ".log" else "_tenant_" ++ pk.repr ++ ".log"

/-! ### Names that the validators take -/

/-- What stands for something in a path, a host, a key, a statement or a pattern. -/
def specialChars : List Char :=
  ['/', '\\', '.', ':', '"', '\'', '*', '?', '[', ']', '{', '}', '!', '^']

/-- A name that is in the pattern of new names is safe wherever it goes. -/
structure IsSoundName (U : UnicodeData) (name : SchemaName) : Prop where
  /-- It is its own normal form. -/
  valid : validateName U name = .ok name
  safe : isSafeSchemaIdentifier name.toList = true
  quoted : quoteSchema name.toList = .ok ('"' :: name.toList ++ ['"'])
  plain : ∀ c ∈ name.toList, c ∉ specialChars

section Names

variable {U : UnicodeData} {name schema schema' : SchemaName} {pk pk' : Int} {c : Char}

theorem not_special_of_isNameChar (h : isNameChar c = true) : c ∉ specialChars := by
  intro hc
  have hnone : specialChars.all (fun d => !isNameChar d) = true := by decide
  have hnot := List.all_eq_true.mp hnone c hc
  rw [h] at hnot
  cases hnot

private theorem not_unsafe_of_isNameChar (h : isNameChar c = true) : isUnsafeChar c = false := by
  have hvisible := (isPlain_of_isNameChar h).visible
  have hspecial := not_special_of_isNameChar h
  have hdouble : c ≠ '"' := fun heq => hspecial (heq ▸ by decide)
  have hsingle : c ≠ '\'' := fun heq => hspecial (heq ▸ by decide)
  rw [isUnsafeChar, decide_eq_false (by omega), beq_false_of_ne hdouble, beq_false_of_ne hsingle]
  rfl

private theorem isSoundName_of_schemaNameRe (h : schemaNameRe name.toList = true) : IsSoundName U name := by
  have hchars : ∀ c ∈ name.toList, isNameChar c = true := fun c => isNameChar_of_schemaNameRe h
  have hsafe : isSafeSchemaIdentifier name.toList = true := by
    have hne : name.toList.isEmpty = false := by
      cases hname : name.toList with
      | nil =>
        rw [hname] at h
        cases h
      | cons c cs => rfl
    have hany : name.toList.any isUnsafeChar = false := by
      refine List.any_eq_false.mpr fun c hc => ?_
      rw [not_unsafe_of_isNameChar (hchars c hc)]
      exact Bool.false_ne_true
    rw [isSafeSchemaIdentifier, hne, hany, decide_eq_true (length_le_of_schemaNameRe h)]
    rfl
  exact ⟨validateName_of_schemaNameRe h, hsafe, if_pos hsafe,
    fun c hc => not_special_of_isNameChar (hchars c hc)⟩

/-! ### Names of files -/

theorem tenantLogName_of_re (h : schemaNameRe schema.toList = true) (pk : Int) :
    (tenantLogName schema pk).toList = schema.toList ++ ".log".toList := by
  rw [tenantLogName, if_pos h, String.toList_append]

theorem tenantLogName_of_not_re (h : ¬schemaNameRe schema.toList = true) (pk : Int) :
    (tenantLogName schema pk).toList = "_tenant_".toList ++ (pk.repr.toList ++ ".log".toList) := by
  rw [tenantLogName, if_neg h, String.toList_append, String.toList_append, List.append_assoc]

/-- A name in the pattern does not start with an underscore. -/
theorem head_ne_underscore (h : schemaNameRe name.toList = true) (rest : List Char) :
    (name.toList ++ rest).head? ≠ some '_' := by
  cases hname : name.toList with
  | nil =>
    rw [hname] at h
    cases h
  | cons c cs =>
    rw [hname] at h
    simp only [schemaNameRe, Bool.and_eq_true] at h
    rw [List.cons_append, List.head?_cons]
    rintro heq
    rw [Option.some.inj heq] at h
    exact absurd h.1.1.2 (by decide)

/-- A file is one tenant's: another tenant has another file, unless it has the same schema name or
the same primary key. -/
theorem eq_or_eq_of_tenantLogName (h : tenantLogName schema pk = tenantLogName schema' pk') :
    schema = schema' ∨ pk = pk' := by
  have hchars := congrArg String.toList h
  by_cases hre : schemaNameRe schema.toList = true
  · by_cases hre' : schemaNameRe schema'.toList = true
    · rw [tenantLogName_of_re hre, tenantLogName_of_re hre'] at hchars
      exact .inl (String.toList_inj.mp (List.append_cancel_right hchars))
    · rw [tenantLogName_of_re hre, tenantLogName_of_not_re hre'] at hchars
      exact absurd (congrArg List.head? hchars) (head_ne_underscore hre _)
  · by_cases hre' : schemaNameRe schema'.toList = true
    · rw [tenantLogName_of_not_re hre, tenantLogName_of_re hre'] at hchars
      exact absurd (congrArg List.head? hchars.symm) (head_ne_underscore hre' _)
    · rw [tenantLogName_of_not_re hre, tenantLogName_of_not_re hre'] at hchars
      have hrepr := List.append_cancel_right (List.append_cancel_left hchars)
      exact .inr (Int.repr_inj.mp (String.toList_inj.mp hrepr))

/-- A file of the run starts like a tenant's own only up to the underscore. -/
theorem tenantLogName_ne_of_run (run : String) (hrun : run.toList.head? = some '_')
    (hsecond : run.toList[1]? ≠ some 't') : tenantLogName schema pk ≠ run := by
  rintro rfl
  by_cases hre : schemaNameRe schema.toList = true
  · rw [tenantLogName_of_re hre] at hrun
    exact head_ne_underscore hre _ hrun
  · rw [tenantLogName_of_not_re hre] at hsecond
    exact hsecond rfl

/-- What the name of a tenant's file is made of. -/
def isLogChar (c : Char) : Bool := isNameChar c || c == '.' || c == '-'

theorem isLogChar_of_mem (hc : c ∈ (tenantLogName schema pk).toList) : isLogChar c = true := by
  have hlog : ".log".toList.all isLogChar = true := by decide
  have htenant : "_tenant_".toList.all isLogChar = true := by decide
  by_cases hre : schemaNameRe schema.toList = true
  · rw [tenantLogName_of_re hre] at hc
    rcases List.mem_append.mp hc with hc | hc
    · rw [isLogChar, isNameChar_of_schemaNameRe hre hc, Bool.true_or, Bool.true_or]
    · exact List.all_eq_true.mp hlog c hc
  · rw [tenantLogName_of_not_re hre] at hc
    rcases List.mem_append.mp hc with hc | hc
    · exact List.all_eq_true.mp htenant c hc
    · rcases List.mem_append.mp hc with hc | hc
      · rcases isDigit_or_minus_of_mem_repr hc with hdigit | rfl
        · simp [isLogChar, isNameChar, hdigit]
        · decide
      · exact List.all_eq_true.mp hlog c hc

/-- The name ends with `.log`, so that it is no folder's. -/
theorem log_suffix (schema : SchemaName) (pk : Int) :
    ".log".toList <:+ (tenantLogName schema pk).toList := by
  by_cases hre : schemaNameRe schema.toList = true
  · rw [tenantLogName_of_re hre]
    exact List.suffix_append _ _
  · rw [tenantLogName_of_not_re hre, ← List.append_assoc]
    exact List.suffix_append _ _

private theorem isFileName_tenantLogName (schema : SchemaName) (pk : Int) :
    Path.IsFileName (tenantLogName schema pk).toList := by
  have hlen : 4 ≤ (tenantLogName schema pk).toList.length := (log_suffix schema pk).length_le
  refine Path.isFileName_of_length (by omega) fun hslash => ?_
  exact absurd (isLogChar_of_mem hslash) (by decide)

end Names

/-- What the log of a tenant depends on: its schema name and its primary key. -/
structure LogTarget where
  schema : SchemaName
  pk : Int
  deriving DecidableEq, Repr

/-- `tenant_log_name` of a tenant. -/
def LogTarget.log (t : LogTarget) : String := tenantLogName t.schema t.pk

/-- Names stay apart. `validate_schema_name` returns names that it returns again, that
`quote_schema` takes, and that mean nothing in a path, a host, a key, a statement or a pattern. And
of tenants with different schema names and different primary keys, whatever their names are, each
has its own log in the run's folder, none of which is a file of the run. -/
theorem log_names_apart (U : UnicodeData) :
    (∀ value name, validateName U value = .ok name → IsSoundName U name) ∧
    ∀ tenants : Set LogTarget, tenants.InjOn LogTarget.schema → tenants.InjOn LogTarget.pk →
      tenants.InjOn LogTarget.log ∧ ∀ t ∈ tenants,
        t.log ≠ sharedLog ∧ t.log ≠ summaryLog ∧ '/' ∉ t.log.toList ∧ '\\' ∉ t.log.toList ∧
          ∀ folder root, Path.resolve folder (Path.join root t.log.toList) =
            Path.resolve folder root ++ [t.log.toList] := by
  refine ⟨fun value name h => isSoundName_of_schemaNameRe (validateSchemaName_ok h), ?_⟩
  intro tenants hschema hpk
  refine ⟨fun t ht t' ht' hlog => ?_, fun t ht => ⟨?_, ?_, ?_, ?_, fun folder root => ?_⟩⟩
  · rcases eq_or_eq_of_tenantLogName hlog with heq | heq
    · exact hschema ht ht' heq
    · exact hpk ht ht' heq
  · exact tenantLogName_ne_of_run sharedLog rfl (by decide)
  · exact tenantLogName_ne_of_run summaryLog rfl (by decide)
  · exact fun hslash => absurd (isLogChar_of_mem hslash) (by decide)
  · exact fun hslash => absurd (isLogChar_of_mem hslash) (by decide)
  · rw [Path.resolve_join]
    exact (isFileName_tenantLogName t.schema t.pk).resolve

/-- A tenant of today, and two whose names go back to before the validators. -/
def legacyTargets : List LogTarget := [⟨"acme", 1⟩, ⟨"../evil", 2⟩, ⟨"_summary", 3⟩]

theorem log_names_apart_legacy :
    IsSoundName UnicodeData.ascii "acme" ∧ Set.InjOn LogTarget.log {t | t ∈ legacyTargets} ∧
      legacyTargets.map LogTarget.log = ["acme.log", "_tenant_2.log", "_tenant_3.log"] ∧
      LogTarget.log ⟨"_summary", 3⟩ ≠ summaryLog ∧
      ∀ folder root, Path.resolve folder (Path.join root (LogTarget.log ⟨"../evil", 2⟩).toList) =
        Path.resolve folder root ++ [(LogTarget.log ⟨"../evil", 2⟩).toList] := by
  obtain ⟨hsound, hlogs⟩ := log_names_apart UnicodeData.ascii
  have hschema : (legacyTargets.map LogTarget.schema).Nodup := by decide
  have hpk : (legacyTargets.map LogTarget.pk).Nodup := by decide
  obtain ⟨hinj, hfile⟩ := hlogs {t | t ∈ legacyTargets}
    (fun _ ht _ ht' => List.inj_on_of_nodup_map hschema ht ht')
    (fun _ ht _ ht' => List.inj_on_of_nodup_map hpk ht ht')
  refine ⟨hsound "acme" "acme" (validateName_of_schemaNameRe (by decide)), hinj, by decide, ?_, ?_⟩
  · exact (hfile ⟨"_summary", 3⟩ (by simp [legacyTargets])).2.1
  · exact (hfile ⟨"../evil", 2⟩ (by simp [legacyTargets])).2.2.2.2

end MtShards.Migrator
