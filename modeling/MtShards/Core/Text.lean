import Mathlib

/-!
# Texts

The methods of `str` over lists of characters: white space at the ends, and `lower` with its
context rule for the final sigma. What they read of the Unicode database is a parameter that
carries the facts the results rest on.
-/

namespace MtShards.Core

/-- A text, character by character. -/
abbrev Text := List Char

instance : LawfulBEq Text := inferInstanceAs (LawfulBEq (List Char))

namespace Text

variable {p q : Char → Bool} {s t : Text}

/-! ### The ends of a text -/

/-- The text does not start with such a character. -/
def StartsClear (p : Char → Bool) (s : Text) : Prop := ∀ c ∈ s.head?, p c = false

/-- The text does not end with such a character. -/
def EndsClear (p : Char → Bool) (s : Text) : Prop := ∀ c ∈ s.getLast?, p c = false

instance (p : Char → Bool) (s : Text) : Decidable (StartsClear p s) :=
  match h : s.head? with
  | none => isTrue fun c hc => by simp [h] at hc
  | some c =>
    decidable_of_iff (p c = false) ⟨fun hp d hd => by
      rw [h, Option.mem_some_iff] at hd
      exact hd ▸ hp, fun hs => hs c h⟩

instance (p : Char → Bool) (s : Text) : Decidable (EndsClear p s) :=
  match h : s.getLast? with
  | none => isTrue fun c hc => by simp [h] at hc
  | some c =>
    decidable_of_iff (p c = false) ⟨fun hp d hd => by
      rw [h, Option.mem_some_iff] at hd
      exact hd ▸ hp, fun hs => hs c h⟩

/-- Such characters taken off both ends. -/
def trim (p : Char → Bool) (s : Text) : Text := (s.dropWhile p).rdropWhile p

/-- A text starts clear if a longer text that it begins does. -/
theorem StartsClear.of_head (h : StartsClear p s) (ht : t <+: s) : StartsClear p t := by
  obtain ⟨u, rfl⟩ := ht
  intro c hc
  cases t with
  | nil => cases hc
  | cons d ds => exact h c hc

/-- What is left after dropping starts clear. -/
theorem startsClear_dropWhile (s : Text) : StartsClear p (s.dropWhile p) := by
  intro c hc
  induction s with
  | nil => cases hc
  | cons d ds ih =>
    rw [List.dropWhile_cons] at hc
    split at hc
    · exact ih hc
    · rename_i hd
      cases hc
      exact Bool.eq_false_iff.mpr hd

/-- Dropping leaves a text alone exactly if it starts clear. -/
theorem dropWhile_eq_self_iff : s.dropWhile p = s ↔ StartsClear p s := by
  constructor
  · intro h
    rw [← h]
    exact startsClear_dropWhile s
  · intro h
    cases s with
    | nil => rfl
    | cons c cs => exact List.dropWhile_cons_of_neg (by simp [h c rfl])

/-- Dropping at the end leaves a text alone exactly if it ends clear. -/
theorem rdropWhile_eq_self_iff : s.rdropWhile p = s ↔ EndsClear p s := by
  rw [List.rdropWhile, List.reverse_eq_iff, dropWhile_eq_self_iff, StartsClear, List.head?_reverse]
  rfl

private theorem endsClear_rdropWhile (s : Text) : EndsClear p (s.rdropWhile p) :=
  rdropWhile_eq_self_iff.mp (List.rdropWhile_idempotent p s)

/-- A trimmed text is a part of the text. -/
theorem trim_isInfix (s : Text) : trim p s <:+: s :=
  (List.rdropWhile_prefix p _).isInfix.trans (List.dropWhile_suffix p).isInfix

/-- A trimmed text starts clear. -/
theorem startsClear_trim (s : Text) : StartsClear p (trim p s) :=
  (startsClear_dropWhile s).of_head (List.rdropWhile_prefix p _)

/-- A trimmed text ends clear. -/
theorem endsClear_trim (s : Text) : EndsClear p (trim p s) := endsClear_rdropWhile _

/-- A text that starts and ends clear is left alone by trimming. -/
theorem trim_of_clear (hs : StartsClear p s) (he : EndsClear p s) : trim p s = s := by
  rw [trim, dropWhile_eq_self_iff.mpr hs, rdropWhile_eq_self_iff.mpr he]

private theorem trim_eq_self_iff : trim p s = s ↔ StartsClear p s ∧ EndsClear p s := by
  constructor
  · intro h
    rw [← h]
    exact ⟨startsClear_trim s, endsClear_trim s⟩
  · exact fun h => trim_of_clear h.1 h.2

/-- Whether a text ends clear is decided by its last character. -/
theorem endsClear_iff_of_mem {c : Char} (hc : c ∈ s.getLast?) : EndsClear p s ↔ p c = false := by
  refine ⟨fun h => h c hc, fun h d hd => ?_⟩
  rwa [Option.mem_unique hd hc]

/-- A text that is clear throughout starts clear. -/
theorem startsClear_of_forall (h : ∀ c ∈ s, p c = false) : StartsClear p s :=
  fun c hc => h c (List.mem_of_mem_head? hc)

/-- A text that is clear throughout ends clear. -/
theorem endsClear_of_forall (h : ∀ c ∈ s, p c = false) : EndsClear p s :=
  fun c hc => h c (List.mem_of_mem_getLast? hc)

/-- A text is trimmed, mapped and cut at its end into itself if and only if each of the three
leaves it alone, as long as the map does not lengthen what has been trimmed. -/
theorem rdropWhile_map_trim_eq_self_iff {f : Text → Text}
    (hlen : (f (trim p s)).length ≤ (trim p s).length) :
    (f (trim p s)).rdropWhile q = s ↔
      (StartsClear p s ∧ EndsClear p s) ∧ f s = s ∧ EndsClear q s := by
  constructor
  · intro h
    have hcut : ((f (trim p s)).rdropWhile q).length ≤ (f (trim p s)).length :=
      (List.rdropWhile_prefix q _).length_le
    have htrim : trim p s = s := by
      refine (trim_isInfix s).eq_of_length (Nat.le_antisymm (trim_isInfix s).length_le ?_)
      rw [h] at hcut
      exact hcut.trans hlen
    rw [htrim] at h hlen hcut
    have hmap : f s = s := by
      have hpre := List.rdropWhile_prefix q (f s)
      rw [h] at hpre
      exact (hpre.eq_of_length (Nat.le_antisymm hpre.length_le hlen)).symm
    rw [hmap] at h
    exact ⟨trim_eq_self_iff.mp htrim, hmap, rdropWhile_eq_self_iff.mp h⟩
  · rintro ⟨⟨hs, he⟩, hmap, hcut⟩
    rw [trim_of_clear hs he, hmap, rdropWhile_eq_self_iff.mpr hcut]

/-- A character of joined texts is the separator or a character of one of them. -/
theorem mem_intercalate {x c : Char} {ls : List Text} (h : c ∈ [x].intercalate ls) :
    c = x ∨ ∃ l ∈ ls, c ∈ l := by
  induction ls with
  | nil => cases h
  | cons l ls ih =>
    cases ls with
    | nil =>
      rw [List.intercalate_singleton] at h
      exact .inr ⟨l, List.mem_cons_self, h⟩
    | cons l' ls =>
      rw [List.intercalate_cons_cons, List.append_assoc] at h
      rcases List.mem_append.mp h with h | h
      · exact .inr ⟨l, List.mem_cons_self, h⟩
      · rcases List.mem_append.mp h with h | h
        · exact .inl (List.mem_singleton.mp h)
        · obtain h | ⟨l'', hl'', h⟩ := ih h
          · exact .inl h
          · exact .inr ⟨l'', List.mem_cons_of_mem l hl'', h⟩

/-- An integer is written with digits and a sign. -/
theorem isDigit_or_minus_of_mem_repr {n : Int} {c : Char} (hc : c ∈ n.repr.toList) :
    c.isDigit = true ∨ c = '-' := by
  have hdigits (m : Nat) (hm : c ∈ m.repr.toList) : c.isDigit = true := by
    rw [Nat.toList_repr] at hm
    exact Nat.isDigit_of_mem_toDigits (by decide) (by decide) hm
  rw [Int.repr_eq_if] at hc
  split at hc
  · exact .inl (hdigits _ hc)
  · rw [String.toList_append] at hc
    obtain hminus | hc := List.mem_append.mp hc
    · exact .inr (by simpa using hminus)
    · exact .inl (hdigits _ hc)

/-! ### White space -/

/-- `str.isspace` of a character. -/
def isSpace (c : Char) : Bool :=
  let n := c.toNat
  decide (9 ≤ n ∧ n ≤ 13) || decide (28 ≤ n ∧ n ≤ 32) || n == 0x85 || n == 0xA0 || n == 0x1680 ||
    decide (0x2000 ≤ n ∧ n ≤ 0x200A) || n == 0x2028 || n == 0x2029 || n == 0x202F || n == 0x205F ||
    n == 0x3000

/-- `str.strip`. -/
def strip (s : Text) : Text := trim isSpace s

/-- Every character is one of ASCII. -/
def IsAscii (s : Text) : Prop := ∀ c ∈ s, c.toNat < 128

instance (s : Text) : Decidable (IsAscii s) := inferInstanceAs (Decidable (∀ c ∈ s, c.toNat < 128))

/-- A part of an ASCII text is ASCII. -/
theorem IsAscii.of_part (h : IsAscii s) (ht : t <:+: s) : IsAscii t :=
  fun c hc => h c (ht.subset hc)

/-- A visible character of ASCII that is no upper-case letter. -/
structure IsPlain (c : Char) : Prop where
  visible : 32 < c.toNat
  ascii : c.toNat < 128
  not_upper : c.isUpper = false

/-- The upper case letters are those from `A` to `Z`. -/
theorem isUpper_iff {c : Char} : c.isUpper = true ↔ 65 ≤ c.toNat ∧ c.toNat ≤ 90 := by
  simp [Char.isUpper, UInt32.le_iff_toNat_le]

/-- Lower case letters and digits are plain. -/
theorem isPlain_of_word {c : Char} (h : (c.isLower || c.isDigit) = true) : IsPlain c := by
  have hrange : (97 ≤ c.toNat ∧ c.toNat ≤ 122) ∨ (48 ≤ c.toNat ∧ c.toNat ≤ 57) := by
    simpa [Char.isLower, Char.isDigit, UInt32.le_iff_toNat_le] using h
  refine ⟨by omega, by omega, Bool.eq_false_iff.mpr fun hup => ?_⟩
  have hupper := isUpper_iff.mp hup
  omega

/-- A plain character is no white space. -/
theorem IsPlain.not_space {c : Char} (h : IsPlain c) : isSpace c = false := by
  obtain ⟨hvisible, hascii, -⟩ := h
  simp only [isSpace, Bool.or_eq_false_iff, decide_eq_false_iff_not, beq_eq_false_iff_ne]
  omega

/-- Stripping leaves a plain text alone. -/
theorem strip_of_plain (h : ∀ c ∈ s, IsPlain c) : strip s = s :=
  trim_of_clear (startsClear_of_forall fun c hc => (h c hc).not_space)
    (endsClear_of_forall fun c hc => (h c hc).not_space)

end Text

/-! ### Case -/

open Text

/-- What `lower` and `isdigit` read of the Unicode database. -/
structure UnicodeData where
  /-- The full lower-case mapping of a character. -/
  lowerChar : Char → List Char
  isCased : Char → Bool
  isCaseIgnorable : Char → Bool
  isDigit : Char → Bool
  lowerChar_ascii : ∀ c, c.toNat < 128 → lowerChar c = [c.toLower]
  isDigit_ascii : ∀ c, c.toNat < 128 → isDigit c = c.isDigit
  lowerChar_ne_nil : ∀ c, lowerChar c ≠ []
  /-- No lower-case mapping makes white space. -/
  lowerChar_not_space : ∀ c, isSpace c = false → ∀ d ∈ lowerChar c, isSpace d = false
  /-- What is mapped is lower case. -/
  lowerChar_idem : ∀ c, ∀ d ∈ lowerChar c, lowerChar d = [d] ∧ d ≠ 'Σ'
  lowerChar_sigma : lowerChar 'σ' = ['σ'] ∧ lowerChar 'ς' = ['ς']

namespace UnicodeData

variable (U : UnicodeData)

/-- The sigma between these characters, the ones before it last first, is a final one: a cased
letter stands before it and none after it, what is ignorable left out. -/
def finalSigma (before after : Text) : Bool :=
  (before.find? (!U.isCaseIgnorable ·)).any U.isCased &&
    !(after.find? (!U.isCaseIgnorable ·)).any U.isCased

/-- The lower case of a character in its place. -/
def lowerAt (before : Text) (c : Char) (after : Text) : Text :=
  if c = 'Σ' then [if U.finalSigma before after then 'ς' else 'σ'] else U.lowerChar c

/-- `lower`, after these characters. -/
def lowerFrom (before : Text) : Text → Text
  | [] => []
  | c :: cs => U.lowerAt before c cs ++ lowerFrom (c :: before) cs

/-- `str.lower`. -/
def lower (s : Text) : Text := U.lowerFrom [] s

/-- Every character is its own lower case. -/
def Lowered (s : Text) : Prop := ∀ c ∈ s, U.lowerChar c = [c] ∧ c ≠ 'Σ'

variable {U} {s t : Text} {c : Char}

/-- A part of a text in lower case is in lower case. -/
theorem Lowered.of_part (h : U.Lowered s) (ht : t <:+: s) : U.Lowered t :=
  fun c hc => h c (ht.subset hc)

private theorem lowered_lowerAt (before : Text) (c : Char) (after : Text) :
    U.Lowered (U.lowerAt before c after) := by
  intro d hd
  unfold lowerAt at hd
  split at hd
  · rw [List.mem_singleton] at hd
    split at hd
    · exact hd ▸ ⟨U.lowerChar_sigma.2, by decide⟩
    · exact hd ▸ ⟨U.lowerChar_sigma.1, by decide⟩
  · exact U.lowerChar_idem c d hd

private theorem lowered_lowerFrom (before s : Text) : U.Lowered (U.lowerFrom before s) := by
  induction s generalizing before with
  | nil => exact fun _ hd => absurd hd List.not_mem_nil
  | cons c cs ih =>
    intro d hd
    rcases List.mem_append.mp hd with hd | hd
    · exact lowered_lowerAt before c cs d hd
    · exact ih (c :: before) d hd

/-- What `lower` makes is lower case. -/
theorem lowered_lower (s : Text) : U.Lowered (U.lower s) := lowered_lowerFrom [] s

private theorem lowerAt_of_lowered {before after : Text} (hc : U.lowerChar c = [c] ∧ c ≠ 'Σ') :
    U.lowerAt before c after = [c] :=
  (if_neg hc.2).trans hc.1

private theorem lowerFrom_of_lowered (before : Text) (h : U.Lowered s) : U.lowerFrom before s = s := by
  induction s generalizing before with
  | nil => rfl
  | cons c cs ih =>
    have hcs : U.Lowered cs := fun d hd => h d (List.mem_cons_of_mem c hd)
    rw [lowerFrom, lowerAt_of_lowered (h c List.mem_cons_self), ih (c :: before) hcs]
    rfl

/-- What is lower case stays as it is. -/
theorem lower_of_lowered (h : U.Lowered s) : U.lower s = s := lowerFrom_of_lowered [] h

private theorem not_space_of_mem_lowerAt {before after : Text} (hc : isSpace c = false) {d : Char}
    (hd : d ∈ U.lowerAt before c after) : isSpace d = false := by
  unfold lowerAt at hd
  split at hd
  · rw [List.mem_singleton] at hd
    split at hd
    · exact hd ▸ by decide
    · exact hd ▸ by decide
  · exact U.lowerChar_not_space c hc d hd

private theorem lowerAt_ne_nil {before after : Text} : U.lowerAt before c after ≠ [] := by
  unfold lowerAt
  split
  · exact List.cons_ne_nil _ _
  · exact U.lowerChar_ne_nil c

/-- A text that does not start with white space does not do so in lower case. -/
theorem startsClear_lower (h : StartsClear isSpace s) : StartsClear isSpace (U.lower s) := by
  cases s with
  | nil => exact h
  | cons c cs =>
    intro d hd
    rw [lower, lowerFrom, List.head?_append_of_ne_nil _ lowerAt_ne_nil] at hd
    have hmem : d ∈ U.lowerAt [] c cs := List.mem_of_mem_head? hd
    exact not_space_of_mem_lowerAt (h c rfl) hmem

private theorem lowerAt_of_ascii {before after : Text} (hc : c.toNat < 128) :
    U.lowerAt before c after = [c.toLower] := by
  have hsigma : c ≠ 'Σ' := by
    rintro rfl
    exact absurd hc (by decide)
  exact (if_neg hsigma).trans (U.lowerChar_ascii c hc)

private theorem lowerFrom_of_ascii (before : Text) (h : IsAscii s) :
    U.lowerFrom before s = s.map Char.toLower := by
  induction s generalizing before with
  | nil => rfl
  | cons c cs ih =>
    have hcs : IsAscii cs := fun d hd => h d (List.mem_cons_of_mem c hd)
    rw [lowerFrom, lowerAt_of_ascii (h c List.mem_cons_self), ih (c :: before) hcs]
    rfl

/-- On ASCII, `lower` is the map of its letters. -/
theorem lower_of_ascii (h : IsAscii s) : U.lower s = s.map Char.toLower := lowerFrom_of_ascii [] h

/-- Lowering the ASCII letters leaves a text alone exactly if it has no upper case one. -/
theorem map_toLower_eq_self_iff : s.map Char.toLower = s ↔ ∀ c ∈ s, c.isUpper = false := by
  constructor
  · intro h c hc
    rw [← h] at hc
    obtain ⟨d, -, rfl⟩ := List.mem_map.mp hc
    exact Char.isUpper_toLower_eq_false d
  · intro h
    refine (List.map_congr_left fun c hc => ?_).trans (List.map_id s)
    exact Char.toLower_eq_of_not_isUpper (by simp [h c hc])

/-- A text of ASCII without upper-case letters is lower case. -/
theorem lowered_of_ascii (h : IsAscii s) (hlow : ∀ c ∈ s, c.isUpper = false) : U.Lowered s := by
  intro c hc
  have hsame : c.toLower = c := Char.toLower_eq_of_not_isUpper (by simp [hlow c hc])
  refine ⟨by rw [U.lowerChar_ascii c (h c hc), hsame], ?_⟩
  rintro rfl
  exact absurd (h _ hc) (by decide)

/-- A plain text is in lower case. -/
theorem lower_of_plain (h : ∀ c ∈ s, IsPlain c) : U.lower s = s :=
  lower_of_lowered (lowered_of_ascii (fun c hc => (h c hc).ascii) fun c hc => (h c hc).not_upper)

/-- An upper case letter and its lower case one are 32 apart. -/
theorem toNat_toLower (h : c.isUpper = true) : c.toLower.toNat = c.toNat + 32 := by
  have hrange := isUpper_iff.mp h
  have hvalid : (c.toNat + 32).isValidChar := by
    unfold Nat.isValidChar
    omega
  rw [Char.toLower_eq_of_isUpper h, Char.toNat_ofNat, if_pos hvalid]

private theorem isSpace_toLower (h : isSpace c = false) : isSpace c.toLower = false := by
  by_cases hup : c.isUpper = true
  · have hrange := isUpper_iff.mp hup
    simp only [isSpace, toNat_toLower hup, Bool.or_eq_false_iff, decide_eq_false_iff_not,
      beq_eq_false_iff_ne]
    omega
  · rw [Char.toLower_eq_of_not_isUpper hup]
    exact h

/-- The database as far as ASCII and the sigmas go; every other character is its own lower case. -/
def ascii : UnicodeData where
  lowerChar c := if c = 'Σ' then ['σ'] else [c.toLower]
  isCased := Char.isAlpha
  isCaseIgnorable _ := false
  isDigit := Char.isDigit
  lowerChar_ascii c hc := if_neg (by
    rintro rfl
    exact absurd hc (by decide))
  isDigit_ascii _ _ := rfl
  lowerChar_ne_nil c := by
    split <;> exact List.cons_ne_nil _ _
  lowerChar_not_space c hc d hd := by
    split at hd
    · rw [List.mem_singleton.mp hd]
      decide
    · rw [List.mem_singleton.mp hd]
      exact isSpace_toLower hc
  lowerChar_idem c d hd := by
    split at hd
    · rw [List.mem_singleton.mp hd]
      exact ⟨by decide, by decide⟩
    · rename_i hc
      rw [List.mem_singleton.mp hd]
      have hsigma : c.toLower ≠ 'Σ' := by
        by_cases hup : c.isUpper = true
        · intro h
          have hnat := toNat_toLower hup
          rw [h] at hnat
          exact absurd hnat (by have := isUpper_iff.mp hup; simp; omega)
        · rwa [Char.toLower_eq_of_not_isUpper hup]
      exact ⟨by rw [if_neg hsigma, Char.toLower_toLower_eq_toLower], hsigma⟩
  lowerChar_sigma := by decide

end UnicodeData

end MtShards.Core
