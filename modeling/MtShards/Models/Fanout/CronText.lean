import MtShards.Core.Text

/-!
# The texts of cron

What a column of a cron string is made of: parts between commas, each `*`, a number, a name or a
range, and for `*` and a range a step behind a slash. The columns of a cron string stand between
white space, so blanks around a text fall away, and blanks inside it make two columns of it.
-/

namespace MtShards.Beat

open MtShards.Core

/-- A number or a name in a textual field. -/
inductive Atom
  | number (n : Nat)
  | word (w : Text)
  deriving DecidableEq, Repr

/-- A part of a textual field; the parts are separated by commas. -/
inductive Part
  | star
  | starStep (n : Nat)
  | one (a : Atom)
  | span (a b : Atom)
  | spanStep (a b : Atom) (n : Nat)
  deriving DecidableEq, Repr

/-! ### Reading -/

def readNumber (s : Text) : Option Nat :=
  if s ≠ [] ∧ s.all Char.isDigit = true then some (Nat.ofDigitChars 10 s 0) else none

def readAtom (s : Text) : Option Atom :=
  match readNumber s with
  | some n => some (.number n)
  | none => if s ≠ [] ∧ s.all Char.isAlpha = true then some (.word s) else none

/-- A part without a step. -/
def readRange (s : Text) : Option Part :=
  if s = ['*'] then some .star
  else
    match s.splitOn '-' with
    | [a] => (readAtom a).map .one
    | [a, b] => (readAtom a).bind fun x => (readAtom b).map (.span x)
    | _ => none

/-- The part with a step; a single value has none. -/
def Part.step : Part → Nat → Option Part
  | star, n => some (.starStep n)
  | span a b, n => some (.spanStep a b n)
  | _, _ => none

def readPart (s : Text) : Option Part :=
  match s.splitOn '/' with
  | [r] => readRange r
  | [r, k] => (readRange r).bind fun p => (readNumber k).bind p.step
  | _ => none

/-- The parts of a text, blanks around it aside; none if it is not of this syntax. -/
def readText (s : Text) : Option (List Part) := ((Text.strip s).splitOn ',').mapM readPart

/-- `str.split`. -/
def columns (s : Text) : List Text := (s.splitOnP Text.isSpace).filter (· ≠ [])

/-- A text that comes back as one column. -/
structure IsColumn (s : Text) : Prop where
  ne_nil : s ≠ []
  not_space : ∀ c ∈ s, Text.isSpace c = false

/-! ### The characters of a text -/

section Characters

variable {s t : Text} {c x : Char}

/-- A character of the syntax. -/
def IsSyntax (c : Char) : Prop := c.isDigit = true ∨ c.isAlpha = true ∨ c ∈ ['*', '-', '/', ',']

/-- Printable ASCII is no white space. -/
private theorem isSpace_of_printable (h : 33 ≤ c.toNat) (h' : c.toNat ≤ 126) :
    Text.isSpace c = false := by
  simp only [Text.isSpace, Bool.or_eq_false_iff, decide_eq_false_iff_not, beq_eq_false_iff_ne]
  omega

/-- A character of the syntax is no white space. -/
theorem IsSyntax.not_space (h : IsSyntax c) : Text.isSpace c = false := by
  rcases h with hdigit | halpha | hmem
  · have hbounds : 48 ≤ c.toNat ∧ c.toNat ≤ 57 := by
      simpa [Char.isDigit, UInt32.le_iff_toNat_le] using hdigit
    exact isSpace_of_printable (by omega) (by omega)
  · have hbounds : (65 ≤ c.toNat ∧ c.toNat ≤ 90) ∨ (97 ≤ c.toNat ∧ c.toNat ≤ 122) := by
      simpa [Char.isAlpha, Char.isUpper, Char.isLower, UInt32.le_iff_toNat_le] using halpha
    exact isSpace_of_printable (by omega) (by omega)
  · simp only [List.mem_cons, List.not_mem_nil, or_false] at hmem
    rcases hmem with rfl | rfl | rfl | rfl <;> decide

/-- A character that is not cut at is in some piece. -/
theorem mem_splitOnP {p : Char → Bool} (hc : c ∈ s) (hp : p c = false) :
    ∃ piece ∈ s.splitOnP p, c ∈ piece := by
  induction s with
  | nil => cases hc
  | cons d s ih =>
    rw [List.splitOnP_cons_eq_if_modifyHead]
    split
    · rename_i hd
      rcases List.mem_cons.mp hc with rfl | hc
      · rw [hp] at hd
        cases hd
      · obtain ⟨piece, hpiece, hmem⟩ := ih hc
        exact ⟨piece, List.mem_cons_of_mem _ hpiece, hmem⟩
    · cases hs : s.splitOnP p with
      | nil => exact absurd hs (List.splitOnP_ne_nil p s)
      | cons first rest =>
        rw [hs] at ih
        rw [List.modifyHead_cons]
        rcases List.mem_cons.mp hc with rfl | hc
        · exact ⟨_, List.mem_cons_self, List.mem_cons_self⟩
        · obtain ⟨piece, hpiece, hmem⟩ := ih hc
          rcases List.mem_cons.mp hpiece with rfl | hpiece
          · exact ⟨_, List.mem_cons_self, List.mem_cons_of_mem d hmem⟩
          · exact ⟨piece, List.mem_cons_of_mem _ hpiece, hmem⟩

/-- A text has only characters of the syntax if the separator is one and its pieces have no
others. -/
private theorem isSyntax_of_pieces (hx : IsSyntax x)
    (h : ∀ piece ∈ s.splitOn x, ∀ c ∈ piece, IsSyntax c) (hc : c ∈ s) : IsSyntax c := by
  by_cases hcx : c = x
  · rw [hcx]
    exact hx
  · rw [List.splitOn_eq_splitOnP] at h
    obtain ⟨piece, hpiece, hmem⟩ := mem_splitOnP (p := (· == x)) hc (beq_eq_false_iff_ne.mpr hcx)
    exact h piece hpiece c hmem

/-- The characters of a number are of the syntax. -/
theorem isSyntax_number {n : Nat} (h : readNumber s = some n) (hc : c ∈ s) : IsSyntax c := by
  rw [readNumber, Option.ite_none_right_eq_some] at h
  exact .inl (List.all_eq_true.mp h.1.2 c hc)

/-- The characters of an atom are of the syntax. -/
theorem isSyntax_atom {a : Atom} (h : readAtom s = some a) (hc : c ∈ s) : IsSyntax c := by
  rw [readAtom] at h
  split at h
  · rename_i n hn
    exact isSyntax_number hn hc
  · rw [Option.ite_none_right_eq_some] at h
    exact .inr (.inl (List.all_eq_true.mp h.1.2 c hc))

/-- The characters of a range are of the syntax. -/
theorem isSyntax_range {p : Part} (h : readRange s = some p) (hc : c ∈ s) : IsSyntax c := by
  rw [readRange] at h
  split at h
  · rename_i hs
    rw [hs] at hc
    exact .inr (.inr (by rw [List.mem_singleton.mp hc]; decide))
  · refine isSyntax_of_pieces (x := '-') (.inr (.inr (by decide))) (fun piece hpiece d hd => ?_) hc
    split at h
    · rename_i a hpieces
      obtain ⟨x, hx, _⟩ := Option.map_eq_some_iff.mp h
      rw [hpieces, List.mem_singleton] at hpiece
      exact isSyntax_atom hx (hpiece ▸ hd)
    · rename_i a b hpieces
      obtain ⟨x, hx, hmap⟩ := Option.bind_eq_some_iff.mp h
      obtain ⟨y, hy, _⟩ := Option.map_eq_some_iff.mp hmap
      rw [hpieces, List.mem_cons, List.mem_singleton] at hpiece
      rcases hpiece with rfl | rfl
      · exact isSyntax_atom hx hd
      · exact isSyntax_atom hy hd
    · cases h

private theorem isSyntax_part {p : Part} (h : readPart s = some p) (hc : c ∈ s) : IsSyntax c := by
  rw [readPart] at h
  refine isSyntax_of_pieces (x := '/') (.inr (.inr (by decide))) (fun piece hpiece d hd => ?_) hc
  split at h
  · rename_i r hpieces
    rw [hpieces, List.mem_singleton] at hpiece
    exact isSyntax_range h (hpiece ▸ hd)
  · rename_i r k hpieces
    obtain ⟨q, hq, hbind⟩ := Option.bind_eq_some_iff.mp h
    obtain ⟨n, hn, _⟩ := Option.bind_eq_some_iff.mp hbind
    rw [hpieces, List.mem_cons, List.mem_singleton] at hpiece
    rcases hpiece with rfl | rfl
    · exact isSyntax_range hq hd
    · exact isSyntax_number hn hd
  · cases h

/-- Every piece that is read alone is read in the whole. -/
private theorem exists_of_mapM {α β : Type} {f : α → Option β} {xs : List α} {ys : List β}
    (h : xs.mapM f = some ys) {a : α} (ha : a ∈ xs) : ∃ b, f a = some b := by
  induction xs generalizing ys with
  | nil => cases ha
  | cons a' xs ih =>
    rw [List.mapM_cons] at h
    obtain ⟨b, hb, hrest⟩ := Option.bind_eq_some_iff.mp h
    obtain ⟨bs, hbs, _⟩ := Option.bind_eq_some_iff.mp hrest
    rcases List.mem_cons.mp ha with rfl | ha
    · exact ⟨b, hb⟩
    · exact ih hbs ha

/-- A text of the syntax has no other characters, blanks around it aside. -/
theorem isSyntax_text {parts : List Part} (h : readText s = some parts) (hc : c ∈ Text.strip s) :
    IsSyntax c := by
  refine isSyntax_of_pieces (x := ',') (.inr (.inr (by decide))) (fun piece hpiece d hd => ?_) hc
  obtain ⟨p, hp⟩ := exists_of_mapM h hpiece
  exact isSyntax_part hp hd

/-- A text of the syntax is one column. -/
theorem isColumn_text {parts : List Part} (h : readText s = some parts) :
    IsColumn (Text.strip s) := by
  refine ⟨fun hnil => ?_, fun c hc => (isSyntax_text h hc).not_space⟩
  rw [readText, hnil] at h
  cases h

/-- Stripping leaves every other character. -/
theorem mem_strip (hc : c ∈ s) (hspace : Text.isSpace c = false) : c ∈ Text.strip s := by
  have hdrop : ∀ {t : Text}, c ∈ t → c ∈ t.dropWhile Text.isSpace := by
    intro t ht
    rw [← List.takeWhile_append_dropWhile (p := Text.isSpace) (l := t), List.mem_append] at ht
    refine ht.resolve_left fun htake => ?_
    rw [List.mem_takeWhile_imp htake] at hspace
    cases hspace
  rw [Text.strip, Text.trim, List.rdropWhile, List.mem_reverse]
  exact hdrop (List.mem_reverse.mpr (hdrop hc))

private theorem strip_strip (s : Text) : Text.strip (Text.strip s) = Text.strip s :=
  Text.trim_of_clear (Text.startsClear_trim s) (Text.endsClear_trim s)

/-- White space around a text does not change what is read. -/
theorem readText_strip (s : Text) : readText (Text.strip s) = readText s := by
  rw [readText, strip_strip, readText]

/-- The decimal digits of a number are read as that number. -/
theorem readText_toDigits (n : Nat) : readText (Nat.toDigits 10 n) = some [.one (.number n)] := by
  have hdigit : ∀ c ∈ Nat.toDigits 10 n, c.isDigit = true :=
    fun c hc => Nat.isDigit_of_mem_toDigits (by decide) (Nat.le_refl 10) hc
  have hnotin {d : Char} (hd : d.isDigit = false) : d ∉ Nat.toDigits 10 n := by
    intro hmem
    rw [hdigit d hmem] at hd
    cases hd
  have hstrip : Text.strip (Nat.toDigits 10 n) = Nat.toDigits 10 n :=
    have hspace : ∀ c ∈ Nat.toDigits 10 n, Text.isSpace c = false :=
      fun c hc => IsSyntax.not_space (.inl (hdigit c hc))
    Text.trim_of_clear (Text.startsClear_of_forall hspace) (Text.endsClear_of_forall hspace)
  have hnumber : readNumber (Nat.toDigits 10 n) = some n := by
    rw [readNumber, if_pos ⟨Nat.toDigits_ne_nil, List.all_eq_true.mpr hdigit⟩,
      Nat.ofDigitChars_ten_toDigits]
  have hstar : Nat.toDigits 10 n ≠ ['*'] := by
    intro heq
    exact hnotin (d := '*') (by decide) (heq ▸ List.mem_singleton.mpr rfl)
  have hrange : readRange (Nat.toDigits 10 n) = some (.one (.number n)) := by
    rw [readRange, if_neg hstar, List.splitOn_eq_singleton (hnotin (by decide))]
    dsimp only
    rw [readAtom, hnumber]
    rfl
  have hpart : readPart (Nat.toDigits 10 n) = some (.one (.number n)) := by
    rw [readPart, List.splitOn_eq_singleton (hnotin (by decide))]
    exact hrange
  rw [readText, hstrip, List.splitOn_eq_singleton (hnotin (by decide)), List.mapM_cons,
    List.mapM_nil, hpart]
  rfl

end Characters

/-! ### Columns -/

section Columns

variable {s t : Text} {c : Char}

/-- White space ends a column. -/
theorem columns_append_cons (hc : Text.isSpace c = true) :
    columns (s ++ c :: t) = columns s ++ columns t := by
  rw [columns, List.splitOnP_append_cons s t hc, List.filter_append]
  rfl

private theorem columns_of_isColumn (h : IsColumn s) : columns s = [s] := by
  rw [columns, List.splitOnP_eq_singleton h.not_space]
  exact List.filter_eq_self.mpr fun col hcol => by
    rw [List.mem_singleton.mp hcol]
    exact decide_eq_true h.ne_nil

private theorem columns_dropWhile (s : Text) : columns (s.dropWhile Text.isSpace) = columns s := by
  induction s with
  | nil => rfl
  | cons c s ih =>
    by_cases hc : Text.isSpace c = true
    · rw [List.dropWhile_cons_of_pos hc, ih]
      exact (columns_append_cons (s := []) hc).symm
    · rw [List.dropWhile_cons_of_neg hc]

private theorem columns_rdropWhile (s : Text) : columns (s.rdropWhile Text.isSpace) = columns s := by
  induction s using List.reverseRecOn with
  | nil => rfl
  | append_singleton s c ih =>
    by_cases hc : Text.isSpace c = true
    · rw [List.rdropWhile_concat_pos _ _ _ hc, ih, columns_append_cons hc]
      exact (List.append_nil _).symm
    · rw [List.rdropWhile_concat_neg _ _ _ hc]

/-- Blanks around a text make no columns. -/
theorem columns_strip (s : Text) : columns (Text.strip s) = columns s := by
  rw [Text.strip, Text.trim, columns_rdropWhile, columns_dropWhile]

/-- Texts that are one column each, put together with blanks between them. -/
theorem columns_intercalate {fields : List Text} (h : ∀ f ∈ fields, IsColumn (Text.strip f)) :
    columns ([' '].intercalate fields) = fields.map Text.strip := by
  induction fields with
  | nil => rfl
  | cons f fields ih =>
    have hfirst : columns f = [Text.strip f] := by
      rw [← columns_strip, columns_of_isColumn (h f List.mem_cons_self)]
    cases fields with
    | nil =>
      rw [List.intercalate_singleton, hfirst]
      rfl
    | cons g fields =>
      rw [List.intercalate_cons_cons, List.append_assoc, List.singleton_append,
        columns_append_cons (by decide), hfirst, ih fun f' hf' => h f' (List.mem_cons_of_mem _ hf')]
      rfl

/-- A character that is no blank is in some column. -/
theorem mem_columns (hc : c ∈ s) (hspace : Text.isSpace c = false) : ∃ col ∈ columns s, c ∈ col := by
  obtain ⟨col, hcol, hmem⟩ := mem_splitOnP hc hspace
  exact ⟨col, List.mem_filter.mpr ⟨hcol, decide_eq_true (List.ne_nil_of_mem hmem)⟩, hmem⟩

end Columns

end MtShards.Beat
