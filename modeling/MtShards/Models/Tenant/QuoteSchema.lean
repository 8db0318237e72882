import MtShards.Models.Tenant.SchemaNames

/-!
# What a quoted schema name denotes

`quote_schema` puts a name between double quotes once `is_safe_schema_identifier` lets it through,
which counts characters. The server reads the quoted identifier back and keeps what fits of it
into 63 bytes.
-/

namespace MtShards.Hosts

open MtShards.Core MtShards.Core.Text MtShards.Keys

/-- `_UNSAFE_IDENT_RE`, `[\x00-\x1f"']`, of a character. -/
def isUnsafeChar (c : Char) : Bool := decide (c.toNat ≤ 0x1f) || c == '"' || c == '\''

/-- `is_safe_schema_identifier`. -/
def isSafeSchemaIdentifier (value : Text) : Bool :=
  !value.isEmpty && decide (value.length ≤ schemaNameMax) && !value.any isUnsafeChar

/-- `quote_schema`; the error is the name that the text of the `ValueError` shows. -/
def quoteSchema (name : Text) : Except Text Text :=
  if isSafeSchemaIdentifier name then .ok ('"' :: name ++ ['"']) else .error name

/-! ### The server -/

/-- `NAMEDATALEN - 1`. -/
def nameDataMax : Nat := 63

/-- The length of a text in UTF-8. -/
def utf8Length (s : Text) : Nat := (s.map Char.utf8Size).sum

/-- The characters of a text that fit whole into so many bytes. -/
def clip : Nat → Text → Text
  | _, [] => []
  | n, c :: cs => if c.utf8Size ≤ n then c :: clip (n - c.utf8Size) cs else []

/-- A quoted identifier read behind its first quote, up to the quote that no other one follows:
its characters, and the text after it. -/
def scanQuoted : Text → Option (Text × Text)
  | [] => none
  | '"' :: '"' :: cs => (scanQuoted cs).map fun found => ('"' :: found.1, found.2)
  | '"' :: cs => some ([], cs)
  | c :: cs => (scanQuoted cs).map fun found => (c :: found.1, found.2)

/-- The name that a quoted identifier at the head of a text denotes, and the text after it. One
without characters is an error. -/
def lexIdentifier : Text → Option (Text × Text)
  | '"' :: cs =>
    match scanQuoted cs with
    | some (c :: found, rest) => some (clip nameDataMax (c :: found), rest)
    | _ => none
  | _ => none

/-! ### Names that fit -/

variable {s t q r : Text} {n : Nat} {c : Char}

theorem clip_eq_self_iff : clip n s = s ↔ utf8Length s ≤ n := by
  induction s generalizing n with
  | nil => simp [clip, utf8Length]
  | cons c cs ih =>
    have hlen : utf8Length (c :: cs) = c.utf8Size + utf8Length cs := by simp [utf8Length]
    rw [clip, hlen]
    split
    · rename_i hc
      rw [List.cons.injEq, and_iff_right rfl, ih]
      omega
    · rename_i hc
      refine iff_of_false (fun h => by cases h) ?_
      omega

private theorem scanQuoted_cons (hc : c ≠ '"') (cs : Text) :
    scanQuoted (c :: cs) = (scanQuoted cs).map fun found => (c :: found.1, found.2) := by
  rw [scanQuoted]
  · rintro d rfl
    exact absurd rfl hc
  · exact hc

/-- Up to the closing quote, a name without quotes is read as it stands. -/
theorem scanQuoted_append (h : '"' ∉ s) : scanQuoted (s ++ ['"']) = some (s, []) := by
  induction s with
  | nil => rfl
  | cons c cs ih =>
    have hc : c ≠ '"' := fun heq => h (heq ▸ List.mem_cons_self)
    have hcs : '"' ∉ cs := fun hmem => h (List.mem_cons_of_mem c hmem)
    rw [List.cons_append, scanQuoted_cons hc, ih hcs]
    rfl

theorem quoteSchema_ok (h : quoteSchema s = .ok q) :
    isSafeSchemaIdentifier s = true ∧ q = '"' :: s ++ ['"'] := by
  unfold quoteSchema at h
  split at h
  · rename_i hsafe
    cases h
    exact ⟨hsafe, rfl⟩
  · cases h

/-- What is quoted is one identifier, for what fits of the name. -/
theorem lexIdentifier_quoteSchema (h : quoteSchema s = .ok q) :
    lexIdentifier q = some (clip nameDataMax s, []) := by
  obtain ⟨hsafe, rfl⟩ := quoteSchema_ok h
  rw [isSafeSchemaIdentifier, Bool.and_eq_true, Bool.and_eq_true] at hsafe
  obtain ⟨⟨hne, -⟩, hchars⟩ := hsafe
  have hquote : '"' ∉ s := by
    intro hmem
    have hany : s.any isUnsafeChar = true := List.any_eq_true.mpr ⟨'"', hmem, by decide⟩
    rw [hany] at hchars
    cases hchars
  rw [List.cons_append, lexIdentifier, scanQuoted_append hquote]
  cases s with
  | nil => cases hne
  | cons c cs => rfl

/-- A name that `quote_schema` takes is what its quoted form denotes if and only if it fits into 63
bytes, and two such names that fit are told apart. Two that do not are the same to the server where
what fits of them is. -/
theorem quote_schema_denotes (s t : Text) :
    ((∀ q, quoteSchema s = .ok q → lexIdentifier q = some (s, [])) ↔
      (isSafeSchemaIdentifier s = true → utf8Length s ≤ nameDataMax)) ∧
    ∀ q r, quoteSchema s = .ok q → quoteSchema t = .ok r →
      (lexIdentifier q = lexIdentifier r ↔ clip nameDataMax s = clip nameDataMax t) ∧
      (utf8Length s ≤ nameDataMax → utf8Length t ≤ nameDataMax →
        lexIdentifier q = lexIdentifier r → s = t) := by
  refine ⟨⟨fun h hsafe => ?_, fun h q hq => ?_⟩, fun q r hq hr => ?_⟩
  · have hquoted : quoteSchema s = .ok ('"' :: s ++ ['"']) := if_pos hsafe
    have hdenotes := h _ hquoted
    rw [lexIdentifier_quoteSchema hquoted] at hdenotes
    exact clip_eq_self_iff.mp (Prod.mk.inj (Option.some.inj hdenotes)).1
  · rw [lexIdentifier_quoteSchema hq, clip_eq_self_iff.mpr (h (quoteSchema_ok hq).1)]
  · have hsame : lexIdentifier q = lexIdentifier r ↔ clip nameDataMax s = clip nameDataMax t := by
      rw [lexIdentifier_quoteSchema hq, lexIdentifier_quoteSchema hr, Option.some.injEq,
        Prod.mk.injEq, and_iff_left rfl]
    refine ⟨hsame, fun hs ht heq => ?_⟩
    rw [← clip_eq_self_iff.mpr hs, hsame.mp heq, clip_eq_self_iff.mpr ht]

/-- 31 letters of two bytes and two of one: 33 characters, 64 bytes. -/
def accented (last : Char) : Text := List.replicate 31 'é' ++ ['a', last]

theorem quote_schema_denotes_fails :
    quoteSchema (accented 'b') = .ok ('"' :: accented 'b' ++ ['"']) ∧
      quoteSchema (accented 'c') = .ok ('"' :: accented 'c' ++ ['"']) ∧
      lexIdentifier ('"' :: accented 'b' ++ ['"']) ≠ some (accented 'b', []) ∧
      lexIdentifier ('"' :: accented 'b' ++ ['"']) = lexIdentifier ('"' :: accented 'c' ++ ['"']) ∧
      accented 'b' ≠ accented 'c' := by
  decide

end MtShards.Hosts
