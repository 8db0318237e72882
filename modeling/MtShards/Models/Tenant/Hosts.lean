import MtShards.Core.Text

/-!
# The canonical form of a hostname

It is written three times: `normalize_host`, that `Domain.save` runs on every value; the constraint
`tenants_domain_canonical`, in SQL; and `validate_hostname`, that checks a value before it takes
it. The three trim and cut in different orders, and SQL knows no white space but the space.
-/

namespace MtShards.Hosts

open MtShards.Core MtShards.Core.Text

/-! ### The validators -/

/-- `HOSTNAME_MAX`. -/
def hostnameMax : Nat := 253

/-- The dot, `"."`. -/
def isDot (c : Char) : Bool := c == '.'

/-- `[a-z0-9-]`. -/
def isLabelChar (c : Char) : Bool := c.isLower || c.isDigit || c == '-'

/-- `_LABEL_RE.fullmatch`, for `^(?!-)[a-z0-9-]{1,63}(?<!-)$`. -/
def labelRe (label : Text) : Bool :=
  label.head? != some '-' && label.all isLabelChar && decide (1 ≤ label.length) &&
    decide (label.length ≤ 63) && label.getLast? != some '-'

section Validators

variable (U : UnicodeData)

/-- `normalize_host`. -/
def normalizeHost (value : Text) : Text := (U.lower (strip value)).rdropWhile isDot

/-- `str.isdigit`. -/
def isdigit (s : Text) : Bool := !s.isEmpty && s.all U.isDigit

/-- What `validate_hostname` looks at: the value stripped and lower-cased, without one trailing
dot. -/
def withoutRoot (value : Text) : Text :=
  let host := U.lower (strip value)
  if host.getLast? = some '.' then host.dropLast else host

/-- `validate_hostname`; the error is the text of the `ValidationError`. -/
def validateHostname (value : Text) : Except String Text :=
  let host := withoutRoot U value
  let labels := host.splitOn '.'
  if host = [] then .error "Hostname is required."
  else if hostnameMax < host.length then
    .error s!"Hostname too long (max {hostnameMax} characters)."
  else if labels.all labelRe = false then
    .error ("Not a valid hostname (ASCII letters, digits and hyphens; dot-separated " ++
      "labels of 1-63 chars, no leading/trailing hyphen).")
  else if isdigit U (labels.getLastD []) then
    .error "Top-level label cannot be all-numeric (looks like an IP address)."
  else .ok host

/-- `validate_label`. -/
def validateLabel (value : Text) : Except String Text :=
  let label := U.lower (strip value)
  if labelRe label = false then
    .error ("Must be a single DNS label (no dots): ASCII letters, digits and " ++
      "hyphens, 1-63 chars, no leading/trailing hyphen.")
  else .ok label

end Validators

/-! ### The column -/

/-- The space, the one white space that `TRIM` knows. -/
def isBlank (c : Char) : Bool := c == ' '

/-- `LOWER` of the database, as far as the results rest on it. -/
structure Collation (U : UnicodeData) where
  lower : Text → Text
  lower_ascii : ∀ s, IsAscii s → lower s = s.map Char.toLower
  /-- What is lower case does not get longer. -/
  length_lower_le : ∀ s, U.Lowered s → (lower s).length ≤ s.length

/-- What the column `varchar(253)` holds of a value, or none where it raises: no NUL, and nothing
but spaces past its width. -/
def fits (value : Text) : Option Text :=
  if '\x00' ∈ value then none
  else if value.length ≤ 253 then some value
  else if (value.drop 253).all isBlank then some (value.take 253)
  else none

/-- How a save ends. -/
inductive Saved
  | stored (domain : Text)
  /-- The column does not take the value. -/
  | refused
  /-- The constraint does not hold. -/
  | rejected
  deriving DecidableEq, Repr

section Column

variable (U : UnicodeData) (C : Collation U)

/-- `tenants_domain_canonical`: `domain = RTRIM(LOWER(TRIM(domain)), '.')`. -/
def isCanonical (domain : Text) : Bool :=
  domain == (C.lower (trim isBlank domain)).rdropWhile isDot

/-- `Domain.save`, as far as the column goes. -/
def domainSave (value : Text) : Saved :=
  match fits (normalizeHost U value) with
  | none => .refused
  | some domain => if isCanonical U C domain then .stored domain else .rejected

end Column

/-! ### The constraint and the fixed points -/

/-- White space that `TRIM` does not know. -/
def isOtherSpace (c : Char) : Bool := isSpace c && !isBlank c

variable {U : UnicodeData} {C : Collation U} {s t : Text} {c : Char}

private theorem isSpace_of_isBlank (h : isBlank c = true) : isSpace c = true := by
  rw [eq_of_beq h]
  decide

/-- What is no white space is neither blank for the database nor other white space. -/
theorem isSpace_eq_false_iff : isSpace c = false ↔ isBlank c = false ∧ isOtherSpace c = false := by
  cases hblank : isBlank c with
  | true => simp [isSpace_of_isBlank hblank]
  | false => simp [isOtherSpace, hblank]

private theorem isOtherSpace_spec (h : isOtherSpace c = true) : isBlank c = false ∧ isDot c = false := by
  refine ⟨?_, ?_⟩
  · rw [isOtherSpace, Bool.and_eq_true, Bool.not_eq_true'] at h
    exact h.2
  · rw [isDot, beq_eq_false_iff_ne]
    rintro rfl
    exact absurd h (by decide)

/-- A text starts clear of white space if it does of both kinds. -/
theorem startsClear_isSpace_iff :
    StartsClear isSpace s ↔ StartsClear isBlank s ∧ StartsClear isOtherSpace s := by
  simp only [StartsClear, isSpace_eq_false_iff]
  exact ⟨fun h => ⟨fun c hc => (h c hc).1, fun c hc => (h c hc).2⟩,
    fun h c hc => ⟨h.1 c hc, h.2 c hc⟩⟩

/-- A text ends clear of white space if it does of both kinds. -/
theorem endsClear_isSpace_iff :
    EndsClear isSpace s ↔ EndsClear isBlank s ∧ EndsClear isOtherSpace s := by
  simp only [EndsClear, isSpace_eq_false_iff]
  exact ⟨fun h => ⟨fun c hc => (h c hc).1, fun c hc => (h c hc).2⟩,
    fun h c hc => ⟨h.1 c hc, h.2 c hc⟩⟩

/-- The constraint accepts what has no blank at its ends, is in lower case for the database and ends
in no dot. -/
theorem isCanonical_iff
    (hlen : (C.lower (trim isBlank s)).length ≤ (trim isBlank s).length) :
    isCanonical U C s = true ↔
      (StartsClear isBlank s ∧ EndsClear isBlank s) ∧ C.lower s = s ∧ EndsClear isDot s := by
  rw [isCanonical, beq_iff_eq, eq_comm]
  exact rdropWhile_map_trim_eq_self_iff hlen

/-- Normalizing leaves alone what has no white space at its ends, is in lower case and ends in no
dot. -/
theorem normalizeHost_eq_self_iff
    (hlen : (U.lower (strip s)).length ≤ (strip s).length) :
    normalizeHost U s = s ↔
      (StartsClear isSpace s ∧ EndsClear isSpace s) ∧ U.lower s = s ∧ EndsClear isDot s :=
  rdropWhile_map_trim_eq_self_iff hlen

/-- What `normalize_host` makes is lower case and starts with no white space. -/
theorem normalizeHost_spec (v : Text) :
    U.Lowered (normalizeHost U v) ∧ StartsClear isSpace (normalizeHost U v) :=
  ⟨(UnicodeData.lowered_lower _).of_part (List.rdropWhile_prefix isDot _).isInfix,
    (UnicodeData.startsClear_lower (startsClear_trim v)).of_head (List.rdropWhile_prefix isDot _)⟩

private theorem fits_prefix (h : fits t = some s) : s <+: t := by
  unfold fits at h
  split at h
  · cases h
  · split at h
    · cases h
      exact List.prefix_rfl
    · split at h
      · cases h
        exact List.take_prefix _ _
      · cases h

/-- A hostname is stored if its normal form fits and the constraint accepts it. -/
theorem domainSave_eq_stored_iff {v : Text} : domainSave U C v = .stored s ↔
    fits (normalizeHost U v) = some s ∧ isCanonical U C s = true := by
  unfold domainSave
  cases fits (normalizeHost U v) with
  | none => simp
  | some t =>
    dsimp only
    by_cases hcan : isCanonical U C t = true
    · rw [Option.some.injEq, if_pos hcan, Saved.stored.injEq]
      exact ⟨fun h => ⟨h, h ▸ hcan⟩, And.left⟩
    · rw [Option.some.injEq, if_neg hcan]
      exact ⟨fun h => (by cases h), fun h => absurd (h.1 ▸ h.2) hcan⟩

/-- The constraint stands for a fixed point on what is lower case and starts with no white space,
as long as it does not end with white space that `TRIM` does not know. -/
theorem canonical_imp_fixed_iff (hlow : U.Lowered s) (hstart : StartsClear isSpace s) :
    (isCanonical U C s = true → normalizeHost U s = s) ↔
      (C.lower s = s → EndsClear isOtherSpace s) := by
  have htrim : U.Lowered (trim isBlank s) := hlow.of_part (trim_isInfix s)
  have hstrip : U.lower (strip s) = strip s :=
    UnicodeData.lower_of_lowered (hlow.of_part (trim_isInfix s))
  rw [isCanonical_iff (C.length_lower_le _ htrim),
    normalizeHost_eq_self_iff (Nat.le_of_eq (congrArg List.length hstrip)), endsClear_isSpace_iff]
  constructor
  · intro h hlower c hc
    cases hother : isOtherSpace c with
    | false => rfl
    | true =>
      have hnot := isOtherSpace_spec hother
      have hfixed := h ⟨⟨(startsClear_isSpace_iff.mp hstart).1,
        (endsClear_iff_of_mem hc).mpr hnot.1⟩, hlower, (endsClear_iff_of_mem hc).mpr hnot.2⟩
      exact absurd (hfixed.1.2.2 c hc) (by simp [hother])
  · rintro h ⟨⟨-, hblank⟩, hlower, hdot⟩
    exact ⟨⟨hstart, hblank, h hlower⟩, UnicodeData.lower_of_lowered hlow, hdot⟩

/-! ### Stored hostnames -/

/-- The constraint accepts an ASCII text without blanks at its ends, upper case letters and a final
dot. -/
theorem isCanonical_iff_of_ascii (hs : IsAscii s) : isCanonical U C s = true ↔
    (StartsClear isBlank s ∧ EndsClear isBlank s) ∧ (∀ c ∈ s, c.isUpper = false) ∧
      EndsClear isDot s := by
  have hlower (t : Text) (ht : t <:+: s) : C.lower t = t.map Char.toLower :=
    C.lower_ascii t (hs.of_part ht)
  have hlen : (C.lower (trim isBlank s)).length ≤ (trim isBlank s).length := by
    rw [hlower _ (trim_isInfix s), List.length_map]
  rw [isCanonical_iff hlen, hlower s List.infix_rfl, UnicodeData.map_toLower_eq_self_iff]

private theorem normalizeHost_eq_self_iff_of_ascii (hs : IsAscii s) : normalizeHost U s = s ↔
    (StartsClear isSpace s ∧ EndsClear isSpace s) ∧ (∀ c ∈ s, c.isUpper = false) ∧
      EndsClear isDot s := by
  have hlen : (U.lower (strip s)).length ≤ (strip s).length := by
    rw [UnicodeData.lower_of_ascii (hs.of_part (show strip s <:+: s from trim_isInfix s)),
      List.length_map]
  rw [normalizeHost_eq_self_iff hlen, UnicodeData.lower_of_ascii hs,
    UnicodeData.map_toLower_eq_self_iff]

/-- `Domain.save` stores no other text than a fixed point of `normalize_host` if and only if the
column's text does not end with white space that `TRIM` does not know, or `LOWER` changes it; and
on ASCII the constraint stands for the fixed points if and only if a text that spaces, case and
dots leave admissible neither starts nor ends with such white space. -/
theorem stored_hosts_canonical (U : UnicodeData) (C : Collation U) :
    (∀ v, (∀ s, domainSave U C v = .stored s → normalizeHost U s = s) ↔
      ∀ s, fits (normalizeHost U v) = some s → C.lower s = s → EndsClear isOtherSpace s) ∧
    ∀ s, IsAscii s → ((isCanonical U C s = true ↔ normalizeHost U s = s) ↔
      (StartsClear isBlank s → EndsClear isBlank s → EndsClear isDot s →
        (∀ c ∈ s, c.isUpper = false) → StartsClear isOtherSpace s ∧ EndsClear isOtherSpace s)) := by
  refine ⟨fun v => ?_, fun s hs => ?_⟩
  · obtain ⟨hlow, hstart⟩ := normalizeHost_spec (U := U) v
    refine forall_congr' fun s => ?_
    rw [domainSave_eq_stored_iff, and_imp]
    refine forall_congr' fun hfits => ?_
    have hpre := fits_prefix hfits
    exact canonical_imp_fixed_iff (hlow.of_part hpre.isInfix) (hstart.of_head hpre)
  · rw [isCanonical_iff_of_ascii hs, normalizeHost_eq_self_iff_of_ascii hs,
      startsClear_isSpace_iff, endsClear_isSpace_iff]
    constructor
    · intro h hstart hend hdot hlow
      have hfixed := h.mp ⟨⟨hstart, hend⟩, hlow, hdot⟩
      exact ⟨hfixed.1.1.2, hfixed.1.2.2⟩
    · intro h
      constructor
      · rintro ⟨⟨hstart, hend⟩, hlow, hdot⟩
        have hother := h hstart hend hdot hlow
        exact ⟨⟨⟨hstart, hother.1⟩, hend, hother.2⟩, hlow, hdot⟩
      · rintro ⟨⟨hstart, hend⟩, hlow, hdot⟩
        exact ⟨⟨hstart.1, hend.1⟩, hlow, hdot⟩

/-- A database that is right on ASCII and leaves all else. -/
def asciiCollation : Collation UnicodeData.ascii where
  lower s := s.map Char.toLower
  lower_ascii _ _ := rfl
  length_lower_le _ _ := (List.length_map _).le

/-- The tab stays where the dot behind it is cut off, and neither `TRIM` nor `LOWER` sees it. -/
theorem stored_hosts_canonical_fails :
    (domainSave UnicodeData.ascii asciiCollation "acme.com\t.".toList =
        .stored "acme.com\t".toList ∧
      normalizeHost UnicodeData.ascii "acme.com\t".toList ≠ "acme.com\t".toList) ∧
    isCanonical UnicodeData.ascii asciiCollation "\ta".toList = true ∧
      normalizeHost UnicodeData.ascii "\ta".toList ≠ "\ta".toList := by
  decide

/-! ### The grammar -/

/-- A label of the grammar. -/
structure IsLabel (label : Text) : Prop where
  one_le : 1 ≤ label.length
  le : label.length ≤ 63
  chars : ∀ c ∈ label, isLabelChar c = true
  first : label.head? ≠ some '-'
  last : label.getLast? ≠ some '-'

/-- A hostname of the grammar, with its labels. -/
structure IsHostnameOf (h : Text) (labels : List Text) : Prop where
  ne_nil : labels ≠ []
  eq : h = ['.'].intercalate labels
  label : ∀ l ∈ labels, IsLabel l
  le : h.length ≤ hostnameMax
  top : ∀ hne : labels ≠ [], ¬∀ c ∈ labels.getLast hne, c.isDigit = true

/-- The grammar. -/
def IsHostname (h : Text) : Prop := ∃ labels, IsHostnameOf h labels

/-- The expression for a label matches the labels of the grammar. -/
theorem labelRe_iff {label : Text} : labelRe label = true ↔ IsLabel label := by
  simp only [labelRe, Bool.and_eq_true, decide_eq_true_eq, List.all_eq_true, bne_iff_ne, ne_eq]
  constructor
  · rintro ⟨⟨⟨⟨hfirst, hchars⟩, hone⟩, hle⟩, hlast⟩
    exact ⟨hone, hle, hchars, hfirst, hlast⟩
  · exact fun h => ⟨⟨⟨⟨h.first, h.chars⟩, h.one_le⟩, h.le⟩, h.last⟩

/-- A label has no dot. -/
theorem IsLabel.dot_not_mem {label : Text} (h : IsLabel label) : '.' ∉ label :=
  fun hmem => absurd (h.chars '.' hmem) (by decide)

/-- The characters of a label are plain. -/
theorem isPlain_of_isLabelChar (h : isLabelChar c = true) : IsPlain c := by
  rw [isLabelChar, Bool.or_eq_true] at h
  obtain hword | hhyphen := h
  · exact isPlain_of_word hword
  · rw [eq_of_beq hhyphen]
    exact ⟨by decide, by decide, by decide⟩

/-- A hostname splits at its dots into its labels. -/
theorem IsHostnameOf.splitOn {h : Text} {labels : List Text} (hh : IsHostnameOf h labels) :
    h.splitOn '.' = labels := by
  rw [hh.eq]
  exact List.splitOn_intercalate '.' (fun l hl => (hh.label l hl).dot_not_mem) hh.ne_nil

/-- The labels of a hostname are those that it splits into. -/
theorem IsHostname.of_splitOn {h : Text} (hh : IsHostname h) : IsHostnameOf h (h.splitOn '.') := by
  obtain ⟨labels, hlabels⟩ := hh
  rwa [hlabels.splitOn]

/-- The characters of a hostname are plain. -/
theorem IsHostname.isPlain {h : Text} (hh : IsHostname h) : ∀ c ∈ h, IsPlain c := by
  intro c hc
  obtain ⟨labels, hlabels⟩ := hh
  rw [hlabels.eq] at hc
  obtain rfl | ⟨l, hl, hcl⟩ := mem_intercalate hc
  · exact ⟨by decide, by decide, by decide⟩
  · exact isPlain_of_isLabelChar ((hlabels.label l hl).chars c hcl)

/-- Behind a last dot, the last label would be empty. -/
theorem IsHostname.endsClear {h : Text} (hh : IsHostname h) : EndsClear isDot h := by
  intro c hc
  refine Bool.eq_false_iff.mpr fun hdot => ?_
  rw [isDot, beq_iff_eq] at hdot
  subst hdot
  obtain ⟨init, rfl⟩ := List.getLast?_eq_some_iff.mp hc
  have hempty : [] ∈ (init ++ ['.']).splitOn '.' := by
    rw [List.splitOn_append_cons_self]
    simp
  exact absurd (hh.of_splitOn.label [] hempty).one_le (by decide)

/-- A hostname is not empty. -/
theorem IsHostname.ne_nil {h : Text} (hh : IsHostname h) : h ≠ [] := by
  rintro rfl
  have hempty : [] ∈ ([] : Text).splitOn '.' := by simp
  exact absurd (hh.of_splitOn.label [] hempty).one_le (by decide)

private theorem isdigit_iff {s : Text} (hs : IsAscii s) (hne : s ≠ []) :
    isdigit U s = true ↔ ∀ c ∈ s, c.isDigit = true := by
  have hnot : s.isEmpty = false := List.isEmpty_eq_false_iff.mpr hne
  rw [isdigit, hnot, Bool.not_false, Bool.true_and, List.all_eq_true]
  exact forall₂_congr fun c hc => by rw [U.isDigit_ascii c (hs c hc)]

/-- The grammar of hostnames as the source tests it. -/
theorem isHostname_iff {h : Text} : IsHostname h ↔
    h ≠ [] ∧ h.length ≤ hostnameMax ∧ (h.splitOn '.').all labelRe = true ∧
      isdigit U ((h.splitOn '.').getLastD []) = false := by
  have hne : h.splitOn '.' ≠ [] := List.splitOn_ne_nil '.' h
  have hlastD : (h.splitOn '.').getLastD [] = (h.splitOn '.').getLast hne := by
    rw [List.getLastD_eq_getLast?, List.getLast?_eq_getLast_of_ne_nil hne]
    rfl
  have htop (hall : ∀ l ∈ h.splitOn '.', IsLabel l) :
      isdigit U ((h.splitOn '.').getLast hne) = true ↔
        ∀ c ∈ (h.splitOn '.').getLast hne, c.isDigit = true := by
    have hlabel := hall _ (List.getLast_mem hne)
    refine isdigit_iff (fun c hc => (isPlain_of_isLabelChar (hlabel.chars c hc)).ascii) ?_
    exact List.ne_nil_of_length_pos hlabel.one_le
  constructor
  · intro hh
    have hof := hh.of_splitOn
    refine ⟨hh.ne_nil, hof.le, ?_, ?_⟩
    · exact List.all_eq_true.mpr fun l hl => labelRe_iff.mpr (hof.label l hl)
    · rw [hlastD]
      exact Bool.eq_false_iff.mpr fun hdigit => hof.top hne ((htop hof.label).mp hdigit)
  · rintro ⟨-, hle, hlabels, hdigit⟩
    have hall : ∀ l ∈ h.splitOn '.', IsLabel l :=
      fun l hl => labelRe_iff.mp (List.all_eq_true.mp hlabels l hl)
    refine ⟨h.splitOn '.', hne, (List.intercalate_splitOn '.').symm, hall, hle, fun _ hdigits => ?_⟩
    rw [hlastD, (htop hall).mpr hdigits] at hdigit
    cases hdigit

/-- What is a hostname without its root dot is accepted, and returned so. -/
theorem validateHostname_of_grammar {v : Text} (h : IsHostname (withoutRoot U v)) :
    validateHostname U v = .ok (withoutRoot U v) := by
  obtain ⟨hne, hle, hlabels, hdigit⟩ := (isHostname_iff (U := U)).mp h
  simp only [validateHostname, if_neg hne, if_neg (Nat.not_lt.mpr hle), hlabels, hdigit]
  rfl

/-- What is no hostname without its root dot is refused. -/
theorem validateHostname_of_not_grammar {v : Text} (h : ¬IsHostname (withoutRoot U v)) :
    ∃ message, validateHostname U v = .error message := by
  unfold validateHostname
  dsimp only
  split
  · exact ⟨_, rfl⟩
  · rename_i hne
    split
    · exact ⟨_, rfl⟩
    · rename_i hle
      split
      · exact ⟨_, rfl⟩
      · rename_i hlabels
        split
        · exact ⟨_, rfl⟩
        · rename_i hdigit
          exact absurd (isHostname_iff.mpr ⟨hne, Nat.le_of_not_lt hle,
            (Bool.not_eq_false _).mp hlabels, Bool.eq_false_iff.mpr hdigit⟩) h

/-- One dot is all that `normalize_host` cuts off a value that is accepted. -/
theorem normalizeHost_eq_withoutRoot {v : Text} (h : EndsClear isDot (withoutRoot U v)) :
    normalizeHost U v = withoutRoot U v := by
  unfold normalizeHost
  unfold withoutRoot at h ⊢
  dsimp only at h ⊢
  split at h
  · rename_i hdot
    obtain ⟨init, hinit⟩ := List.getLast?_eq_some_iff.mp hdot
    rw [hinit, List.dropLast_concat] at h ⊢
    rw [List.rdropWhile_concat_pos _ _ _ (by decide), rdropWhile_eq_self_iff.mpr h]
    simp
  · rename_i hdot
    rw [if_neg hdot]
    exact rdropWhile_eq_self_iff.mpr h

/-- A hostname has no root dot. -/
theorem IsHostname.withoutRoot {h : Text} (hh : IsHostname h) : withoutRoot U h = h := by
  have hdot : h.getLast? ≠ some '.' := fun hlast => absurd (hh.endsClear '.' hlast) (by decide)
  simp only [Hosts.withoutRoot, strip_of_plain hh.isPlain, UnicodeData.lower_of_plain hh.isPlain,
    if_neg hdot]

/-- A hostname is accepted by the constraint. -/
theorem IsHostname.isCanonical {h : Text} (hh : IsHostname h) : isCanonical U C h = true := by
  have hblank : ∀ c ∈ h, isBlank c = false :=
    fun c hc => (isSpace_eq_false_iff.mp (hh.isPlain c hc).not_space).1
  exact (isCanonical_iff_of_ascii fun c hc => (hh.isPlain c hc).ascii).mpr
    ⟨⟨startsClear_of_forall hblank, endsClear_of_forall hblank⟩,
      fun c hc => (hh.isPlain c hc).not_upper, hh.endsClear⟩

/-- A hostname is stored as it is. -/
theorem IsHostname.domainSave {h : Text} (hh : IsHostname h) : domainSave U C h = .stored h := by
  have hdot : EndsClear isDot (Hosts.withoutRoot U h) := hh.withoutRoot.symm ▸ hh.endsClear
  have hnul : '\x00' ∉ h := fun hmem => absurd (hh.isPlain _ hmem).visible (by decide)
  refine domainSave_eq_stored_iff.mpr ⟨?_, hh.isCanonical⟩
  rw [normalizeHost_eq_withoutRoot hdot, hh.withoutRoot]
  obtain ⟨labels, hlabels⟩ := hh
  exact (if_neg hnul).trans (if_pos hlabels.le)

/-- `validate_hostname` accepts its grammar and nothing else, and what it returns is canonical in
each of the three senses. -/
theorem validate_hostname_grammar (U : UnicodeData) (C : Collation U) (v : Text) :
    (validateHostname U v = .ok (withoutRoot U v) ↔ IsHostname (withoutRoot U v)) ∧
      (¬IsHostname (withoutRoot U v) → ∃ message, validateHostname U v = .error message) ∧
      ∀ r, validateHostname U v = .ok r →
        r = withoutRoot U v ∧ normalizeHost U v = r ∧ validateHostname U r = .ok r ∧
          isCanonical U C r = true ∧ domainSave U C r = .stored r := by
  have hgrammar {r : Text} (h : validateHostname U v = .ok r) : IsHostname (withoutRoot U v) := by
    by_contra hnot
    obtain ⟨message, hmessage⟩ := validateHostname_of_not_grammar hnot
    rw [h] at hmessage
    cases hmessage
  refine ⟨⟨hgrammar, validateHostname_of_grammar⟩, validateHostname_of_not_grammar, ?_⟩
  intro r hr
  have hh := hgrammar hr
  have heq : withoutRoot U v = r := by
    rw [validateHostname_of_grammar hh] at hr
    cases hr
    rfl
  subst heq
  refine ⟨rfl, normalizeHost_eq_withoutRoot hh.endsClear, ?_, hh.isCanonical, hh.domainSave⟩
  have hagain := validateHostname_of_grammar (U := U) (v := withoutRoot U v)
    (hh.withoutRoot.symm ▸ hh)
  rwa [hh.withoutRoot] at hagain

end MtShards.Hosts
