import Mathlib
import MtShards.Core.Fields
import MtShards.Core.Text
import MtShards.Models.Fanout.Dispatch

/-!
# The signature of the arguments of a schedule entry

`argsig` digests the JSON text of the arguments, with the keys of every dictionary sorted. The
deploy check computes it of the arguments as the settings have them, the runtime of what they are
once they have been through the broker, where every key is a string.
-/

namespace MtShards.Fanout

open MtShards.Core

/-! ### `json.dumps` -/

/-- A key as JSON has it. -/
def PyKey.text : PyKey → String
  | .str s => s
  | .int n => n.repr

/-- The order of two keys of one kind. Keys of two kinds raise a `TypeError`. -/
def PyKey.le : PyKey → PyKey → Bool
  | .str s, .str t => decide (s.toList ≤ t.toList)
  | .int m, .int n => decide (m ≤ n)
  | .int _, .str _ => true
  | .str _, .int _ => false

/-- Four hexadecimal digits. -/
def hex4 (n : Nat) : Text := [n / 4096 % 16, n / 256 % 16, n / 16 % 16, n % 16].map Nat.digitChar

/-- A character in a JSON string, in ASCII. -/
def escapeChar (c : Char) : Text :=
  if c = '"' then ['\\', '"']
  else if c = '\\' then ['\\', '\\']
  else if c = '\n' then ['\\', 'n']
  else if c = '\r' then ['\\', 'r']
  else if c = '\t' then ['\\', 't']
  else if c = '\x0c' then ['\\', 'f']
  else if c = '\x08' then ['\\', 'b']
  else if ' '.toNat ≤ c.toNat ∧ c.toNat ≤ '~'.toNat then [c]
  else if c.toNat < 0x10000 then '\\' :: 'u' :: hex4 c.toNat
  else
    -- A surrogate pair.
    let n := c.toNat - 0x10000
    '\\' :: 'u' :: hex4 (0xD800 + n / 0x400) ++ '\\' :: 'u' :: hex4 (0xDC00 + n % 0x400)

/-- A JSON string. -/
def quoted (s : String) : Text := '"' :: s.toList.flatMap escapeChar ++ ['"']

/-- The items of an array or of an object. -/
def joined (items : List Text) : Text := [',', ' '].intercalate items

/-- The items of a dictionary, sorted by their keys. -/
def sortKeys {α : Type} (kvs : List (PyKey × α)) : List (PyKey × α) :=
  kvs.insertionSort fun a b => a.1.le b.1 = true

/-- An item of an object. -/
def memberText (kv : PyKey × Text) : Text := quoted kv.1.text ++ ([':', ' '] ++ kv.2)

mutual

/-- `json.dumps(value, sort_keys=True)`. -/
def dumps : PyVal → Text
  | .none => "null".toList
  | .bool true => "true".toList
  | .bool false => "false".toList
  | .int n => n.repr.toList
  | .str s => quoted s
  | .list xs => '[' :: joined (dumpsAll xs) ++ [']']
  | .tuple xs => '[' :: joined (dumpsAll xs) ++ [']']
  | .dict kvs => '{' :: joined ((sortKeys (dumpsItems kvs)).map memberText) ++ ['}']

def dumpsAll : List PyVal → List Text
  | [] => []
  | x :: xs => dumps x :: dumpsAll xs

def dumpsItems : List (PyKey × PyVal) → List (PyKey × Text)
  | [] => []
  | (k, v) :: kvs => (k, dumps v) :: dumpsItems kvs

end

mutual

/-- `json.loads(json.dumps(value))`: what a value is on the other side of the broker. -/
def jsonRoundTrip : PyVal → PyVal
  | .none => .none
  | .bool b => .bool b
  | .int n => .int n
  | .str s => .str s
  | .list xs => .list (jsonRoundTripAll xs)
  | .tuple xs => .list (jsonRoundTripAll xs)
  | .dict kvs => .dict (jsonRoundTripItems kvs)

def jsonRoundTripAll : List PyVal → List PyVal
  | [] => []
  | x :: xs => jsonRoundTrip x :: jsonRoundTripAll xs

def jsonRoundTripItems : List (PyKey × PyVal) → List (PyKey × PyVal)
  | [] => []
  | (k, v) :: kvs => (.str k.text, jsonRoundTrip v) :: jsonRoundTripItems kvs

end

/-! ### The signature -/

/-- The truncated digest, taken to be injective. It is never empty. -/
structure Digest where
  hexdigest : Text → String
  injective : Function.Injective hexdigest
  ne_empty : ∀ blob, hexdigest blob ≠ ""

/-- `argsig`. -/
def argsig (D : Digest) (taskArgs : PyVal) : String :=
  if taskArgs.truthy then D.hexdigest (dumps taskArgs) else ""

/-! ### Induction over the arguments -/

/-- Induction over a value and what it holds. -/
theorem PyVal.induction {P : PyVal → Prop} (none : P .none) (bool : ∀ b, P (.bool b))
    (int : ∀ n, P (.int n)) (str : ∀ s, P (.str s))
    (list : ∀ xs, (∀ x ∈ xs, P x) → P (.list xs))
    (tuple : ∀ xs, (∀ x ∈ xs, P x) → P (.tuple xs))
    (dict : ∀ kvs, (∀ kv ∈ kvs, P kv.2) → P (.dict kvs)) (v : PyVal) : P v :=
  @PyVal.rec P (fun xs => ∀ x ∈ xs, P x) (fun kvs => ∀ kv ∈ kvs, P kv.2) (fun kv => P kv.2)
    none bool int str list tuple dict
    (List.forall_mem_nil _)
    (fun _ _ hx hxs => List.forall_mem_cons.mpr ⟨hx, hxs⟩)
    (List.forall_mem_nil _)
    (fun _ _ hkv hkvs => List.forall_mem_cons.mpr ⟨hkv, hkvs⟩)
    (fun _ _ hv => hv) v

private theorem dumpsAll_eq (xs : List PyVal) : dumpsAll xs = xs.map dumps := by
  induction xs with
  | nil => rfl
  | cons x xs ih => rw [dumpsAll, ih, List.map_cons]

private theorem dumpsItems_eq (kvs : List (PyKey × PyVal)) :
    dumpsItems kvs = kvs.map fun kv => (kv.1, dumps kv.2) := by
  induction kvs with
  | nil => rfl
  | cons kv kvs ih => rw [dumpsItems, ih, List.map_cons]

/-- The values of a list go through JSON one by one. -/
theorem jsonRoundTripAll_eq (xs : List PyVal) : jsonRoundTripAll xs = xs.map jsonRoundTrip := by
  induction xs with
  | nil => rfl
  | cons x xs ih => rw [jsonRoundTripAll, ih, List.map_cons]

/-- The members of a dict go through JSON one by one, their keys as texts. -/
theorem jsonRoundTripItems_eq (kvs : List (PyKey × PyVal)) :
    jsonRoundTripItems kvs = kvs.map fun kv => (.str kv.1.text, jsonRoundTrip kv.2) := by
  induction kvs with
  | nil => rfl
  | cons kv kvs ih => rw [jsonRoundTripItems, ih, List.map_cons]

/-! ### Keys -/

/-- A key is an integer. -/
def PyKey.isInt : PyKey → Bool
  | .str _ => false
  | .int _ => true

/-- The order of the keys as texts. -/
def PyKey.textLe (a b : PyKey) : Prop := a.text.toList ≤ b.text.toList

instance (a b : PyKey) : Decidable (a.textLe b) :=
  inferInstanceAs (Decidable (a.text.toList ≤ b.text.toList))

/-- The items of a dictionary, sorted by their keys as texts. -/
def sortTexts {α : Type} (kvs : List (PyKey × α)) : List (PyKey × α) :=
  kvs.insertionSort fun a b => a.1.textLe b.1

/-- A dictionary of Python whose keys are all of one kind. -/
structure IsDict {α : Type} (kvs : List (PyKey × α)) : Prop where
  nodup : (kvs.map Prod.fst).Nodup
  kind : ∃ int, ∀ kv ∈ kvs, kv.1.isInt = int

/-- Every dictionary in a value is one. -/
inductive Proper : PyVal → Prop
  | none : Proper .none
  | bool (b : Bool) : Proper (.bool b)
  | int (n : Int) : Proper (.int n)
  | str (s : String) : Proper (.str s)
  | list {xs : List PyVal} : (∀ x ∈ xs, Proper x) → Proper (.list xs)
  | tuple {xs : List PyVal} : (∀ x ∈ xs, Proper x) → Proper (.tuple xs)
  | dict {kvs : List (PyKey × PyVal)} : IsDict kvs → (∀ kv ∈ kvs, Proper kv.2) →
      Proper (.dict kvs)

/-- In every dictionary of a value, the keys that are sorted as they are stand in the order of their
texts. It is so of every dictionary with string keys. -/
inductive Ordered : PyVal → Prop
  | none : Ordered .none
  | bool (b : Bool) : Ordered (.bool b)
  | int (n : Int) : Ordered (.int n)
  | str (s : String) : Ordered (.str s)
  | list {xs : List PyVal} : (∀ x ∈ xs, Ordered x) → Ordered (.list xs)
  | tuple {xs : List PyVal} : (∀ x ∈ xs, Ordered x) → Ordered (.tuple xs)
  | dict {kvs : List (PyKey × PyVal)} : (sortKeys kvs).Pairwise (fun a b => a.1.textLe b.1) →
      (∀ kv ∈ kvs, Ordered kv.2) → Ordered (.dict kvs)

/-- Two keys of one kind are told apart by their texts. -/
theorem PyKey.text_inj {a b : PyKey} (hkind : a.isInt = b.isInt) (h : a.text = b.text) : a = b := by
  cases a with
  | str s =>
    cases b with
    | str t => exact congrArg _ h
    | int n => cases hkind
  | int m =>
    cases b with
    | str t => cases hkind
    | int n => exact congrArg _ (Int.repr_inj.mp h)

/-- What an integer is written with. -/
def isIntChar (c : Char) : Bool := c.isDigit || c == '-'

/-- An integer is written with digits and a sign. -/
theorem isIntChar_of_mem_repr {n : Int} {c : Char} (hc : c ∈ n.repr.toList) :
    isIntChar c = true := by
  rcases Text.isDigit_or_minus_of_mem_repr hc with hdigit | rfl
  · rw [isIntChar, hdigit, Bool.true_or]
  · decide

private theorem escapeChar_of_isIntChar {c : Char} (h : isIntChar c = true) : escapeChar c = [c] := by
  have hne (d : Char) (hd : isIntChar d = false) : c ≠ d := by
    rintro rfl
    rw [h] at hd
    cases hd
  have hrange : ' '.toNat ≤ c.toNat ∧ c.toNat ≤ '~'.toNat := by
    rw [isIntChar, Bool.or_eq_true] at h
    obtain hdigit | hminus := h
    · have hplain := Text.isPlain_of_word (c := c) (by rw [hdigit, Bool.or_true])
      have hle : 48 ≤ c.toNat ∧ c.toNat ≤ 57 := by
        simpa [Char.isDigit, UInt32.le_iff_toNat_le] using hdigit
      exact ⟨Nat.le_of_lt hplain.visible, hle.2.trans (by decide)⟩
    · rw [eq_of_beq hminus]
      decide
  rw [escapeChar, if_neg (hne _ (by decide)), if_neg (hne _ (by decide)),
    if_neg (hne _ (by decide)), if_neg (hne _ (by decide)), if_neg (hne _ (by decide)),
    if_neg (hne _ (by decide)), if_neg (hne _ (by decide)), if_pos hrange]

/-- The characters of an integer are written as they are. -/
theorem quoted_int (n : Int) : quoted n.repr = '"' :: n.repr.toList ++ ['"'] := by
  have hflat : n.repr.toList.flatMap escapeChar = n.repr.toList := by
    rw [List.flatMap_congr fun c hc => escapeChar_of_isIntChar (isIntChar_of_mem_repr hc)]
    simp
  rw [quoted, hflat]

/-- A text that starts with a quoted integer says which. -/
theorem quoted_int_inj {m n : Int} {r r' : Text}
    (h : quoted m.repr ++ r = quoted n.repr ++ r') : m = n ∧ r = r' := by
  have hquote (k : Int) : '"' ∉ k.repr.toList := fun hmem =>
    absurd (isIntChar_of_mem_repr hmem) (by decide)
  rw [quoted_int, quoted_int] at h
  simp only [List.cons_append, List.append_assoc, List.nil_append, List.cons.injEq,
    true_and] at h
  obtain ⟨hrepr, hrest⟩ := field_inj (hquote m) (hquote n) h
  exact ⟨Int.repr_inj.mp (String.toList_inj.mp hrepr), hrest⟩

/-! ### Items -/

/-- Joined texts are the first one, and the others after a comma and a blank. -/
theorem joined_cons (x : Text) (xs : List Text) :
    joined (x :: xs) = x ++ (if xs = [] then [] else ',' :: ' ' :: joined xs) := by
  cases xs with
  | nil => simp [joined]
  | cons y ys =>
    rw [joined, List.intercalate_cons_cons, if_neg (List.cons_ne_nil y ys), List.append_assoc]
    rfl

/-- The length of joined texts is that of their parts and of what separates them. -/
theorem length_joined (xs : List Text) :
    (joined xs).length = (xs.map List.length).sum + 2 * (xs.length - 1) := by
  induction xs with
  | nil => rfl
  | cons x xs ih =>
    rw [joined_cons, List.length_append]
    cases xs with
    | nil => simp
    | cons y ys =>
      rw [if_neg (List.cons_ne_nil y ys), List.length_cons, List.length_cons, ih]
      simp only [List.map_cons, List.sum_cons, List.length_cons]
      omega

/-- Items of the same lengths are told apart. -/
theorem joined_inj {xs ys : List Text} (hlen : xs.map List.length = ys.map List.length)
    (h : joined xs = joined ys) : xs = ys := by
  induction xs generalizing ys with
  | nil =>
    cases ys with
    | nil => rfl
    | cons y ys => cases hlen
  | cons x xs ih =>
    cases ys with
    | nil => cases hlen
    | cons y ys =>
      rw [List.map_cons, List.map_cons, List.cons.injEq] at hlen
      rw [joined_cons, joined_cons] at h
      obtain ⟨rfl, hrest⟩ := List.append_inj h hlen.1
      have hnil : xs = [] ↔ ys = [] := by
        have hcount := congrArg List.length hlen.2
        rw [List.length_map, List.length_map] at hcount
        rw [← List.length_eq_zero_iff, ← List.length_eq_zero_iff, hcount]
      by_cases hxs : xs = []
      · rw [hxs, hnil.mp hxs]
      · rw [if_neg hxs, if_neg (hxs ∘ hnil.mpr)] at hrest
        rw [ih hlen.2 (List.cons.inj (List.cons.inj hrest).2).2]

/-- A list is dumped as its dumped values in brackets. -/
theorem dumps_list (xs : List PyVal) :
    dumps (.list xs) = '[' :: joined (xs.map dumps) ++ [']'] := by
  rw [dumps, dumpsAll_eq]

/-- A tuple is dumped like a list. -/
theorem dumps_tuple (xs : List PyVal) : dumps (.tuple xs) = dumps (.list xs) := by
  rw [dumps, dumps]

/-- A dict is dumped as its members in braces, sorted by their keys. -/
theorem dumps_dict (kvs : List (PyKey × PyVal)) : dumps (.dict kvs) =
    '{' :: joined ((sortKeys kvs).map fun kv => memberText (kv.1, dumps kv.2)) ++ ['}'] := by
  have hsort : sortKeys (kvs.map fun kv => (kv.1, dumps kv.2)) =
      (sortKeys kvs).map fun kv => (kv.1, dumps kv.2) := by
    refine (List.map_insertionSort _ _ _ _ fun a _ b _ => ?_).symm
    exact Iff.rfl
  rw [dumps, dumpsItems_eq, hsort, List.map_map]
  rfl

/-- A list that went through JSON is dumped as its values that did. -/
theorem dumps_roundTrip_list (xs : List PyVal) : dumps (jsonRoundTrip (.list xs)) =
    '[' :: joined (xs.map fun x => dumps (jsonRoundTrip x)) ++ [']'] := by
  rw [jsonRoundTrip, jsonRoundTripAll_eq, dumps_list, List.map_map]
  rfl

/-- A tuple comes out of JSON as a list. -/
theorem roundTrip_tuple (xs : List PyVal) :
    jsonRoundTrip (.tuple xs) = jsonRoundTrip (.list xs) := by
  rw [jsonRoundTrip, jsonRoundTrip]

/-- Behind the broker, the keys are sorted as texts. -/
theorem dumps_roundTrip_dict (kvs : List (PyKey × PyVal)) : dumps (jsonRoundTrip (.dict kvs)) =
    '{' :: joined ((sortTexts kvs).map fun kv =>
      memberText (kv.1, dumps (jsonRoundTrip kv.2))) ++ ['}'] := by
  have hsort : sortKeys (kvs.map fun kv => (PyKey.str kv.1.text, jsonRoundTrip kv.2)) =
      (sortTexts kvs).map fun kv => (PyKey.str kv.1.text, jsonRoundTrip kv.2) := by
    refine (List.map_insertionSort _ _ _ _ fun a _ b _ => ?_).symm
    rw [PyKey.le, decide_eq_true_eq]
    exact Iff.rfl
  rw [jsonRoundTrip, jsonRoundTripItems_eq, dumps_dict, hsort, List.map_map]
  rfl

/-! ### The order of the keys -/

section Sorting

variable {α : Type} {kvs : List (PyKey × α)}

/-- Sorting by the keys loses and adds no member. -/
theorem sortKeys_perm (kvs : List (PyKey × α)) : (sortKeys kvs).Perm kvs :=
  List.perm_insertionSort _ _

/-- Sorting by the texts of the keys loses and adds no member. -/
theorem sortTexts_perm (kvs : List (PyKey × α)) : (sortTexts kvs).Perm kvs :=
  List.perm_insertionSort _ _

/-- Members sorted by the texts of their keys are in the order of the texts. -/
theorem pairwise_sortTexts (kvs : List (PyKey × α)) :
    (sortTexts kvs).Pairwise fun a b => a.1.textLe b.1 := by
  have htotal : Std.Total fun a b : PyKey × α => a.1.textLe b.1 := ⟨fun a b => le_total _ _⟩
  have htrans : IsTrans (PyKey × α) fun a b => a.1.textLe b.1 := ⟨fun a b c => le_trans⟩
  exact List.pairwise_insertionSort _ kvs

/-- A dict has no two members whose keys have one text. -/
theorem IsDict.ext (hdict : IsDict kvs) {a b : PyKey × α} (ha : a ∈ kvs) (hb : b ∈ kvs)
    (h : a.1.text = b.1.text) : a = b := by
  obtain ⟨int, hkind⟩ := hdict.kind
  exact List.inj_on_of_nodup_map hdict.nodup ha hb
    (PyKey.text_inj ((hkind a ha).trans (hkind b hb).symm) h)

/-- The two orders are one if and only if the keys stand in the order of their texts. -/
theorem sortKeys_eq_sortTexts_iff (hdict : IsDict kvs) : sortKeys kvs = sortTexts kvs ↔
    (sortKeys kvs).Pairwise fun a b => a.1.textLe b.1 := by
  constructor
  · intro h
    rw [h]
    exact pairwise_sortTexts kvs
  · intro h
    have hperm := (sortKeys_perm kvs).trans (sortTexts_perm kvs).symm
    refine hperm.eq_of_pairwise (fun a b ha hb hab hba => ?_) h (pairwise_sortTexts kvs)
    exact hdict.ext ((sortKeys_perm kvs).subset ha) ((sortTexts_perm kvs).subset hb)
      (String.toList_inj.mp (le_antisymm hab hba))

/-- String keys are sorted as the texts that they are. -/
theorem sortKeys_eq_of_strings (h : ∀ kv ∈ kvs, kv.1.isInt = false) :
    sortKeys kvs = sortTexts kvs := by
  have hsort := List.map_insertionSort (fun a b : PyKey × α => a.1.le b.1 = true)
    (fun a b : PyKey × α => a.1.textLe b.1) id kvs (fun a ha b hb => by
      obtain ⟨a, v⟩ := a
      obtain ⟨b, w⟩ := b
      cases a with
      | int m => cases h _ ha
      | str s =>
        cases b with
        | int n => cases h _ hb
        | str t => exact decide_eq_true_iff)
  rwa [List.map_id, List.map_id] at hsort

end Sorting

/-- A list is dumped as long as before if each of its values is. -/
theorem length_dumps_roundTrip_list {xs : List PyVal}
    (h : ∀ x ∈ xs, (dumps (jsonRoundTrip x)).length = (dumps x).length) :
    (dumps (jsonRoundTrip (.list xs))).length = (dumps (.list xs)).length := by
  have hsame : xs.map (List.length ∘ fun x => dumps (jsonRoundTrip x)) =
      xs.map (List.length ∘ dumps) := List.map_congr_left h
  rw [dumps_roundTrip_list, dumps_list]
  simp only [List.length_append, List.length_cons, length_joined, List.map_map, List.length_map,
    hsame]

/-- A member is as long as its key and its value make it. -/
theorem length_memberText (k : PyKey) {v w : Text} (h : v.length = w.length) :
    (memberText (k, v)).length = (memberText (k, w)).length := by
  rw [memberText, memberText, List.length_append, List.length_append, List.length_append,
    List.length_append, h]

/-- A value is as long behind the broker as before it. -/
theorem length_dumps_roundTrip (x : PyVal) :
    (dumps (jsonRoundTrip x)).length = (dumps x).length := by
  induction x using PyVal.induction with
  | none => rfl
  | bool b => rfl
  | int n => rfl
  | str s => rfl
  | list xs ih => exact length_dumps_roundTrip_list ih
  | tuple xs ih =>
    rw [roundTrip_tuple, dumps_tuple]
    exact length_dumps_roundTrip_list ih
  | dict kvs ih =>
    have hsame : kvs.map (List.length ∘ fun kv => memberText (kv.1, dumps (jsonRoundTrip kv.2))) =
        kvs.map (List.length ∘ fun kv => memberText (kv.1, dumps kv.2)) :=
      List.map_congr_left fun kv hkv => length_memberText kv.1 (ih kv hkv)
    rw [dumps_roundTrip_dict, dumps_dict]
    simp only [List.length_append, List.length_cons, length_joined, List.map_map, List.length_map,
      (sortTexts_perm kvs).length_eq, (sortKeys_perm kvs).length_eq,
      ((sortTexts_perm kvs).map _).sum_eq, ((sortKeys_perm kvs).map _).sum_eq, hsame]

/-! ### What the broker changes -/

section Members

variable {kvs p q : List (PyKey × PyVal)}

/-- An item before the broker. -/
def memberOf (kv : PyKey × PyVal) : Text := memberText (kv.1, dumps kv.2)

/-- An item behind it. -/
def memberBehind (kv : PyKey × PyVal) : Text := memberText (kv.1, dumps (jsonRoundTrip kv.2))

/-- A text that starts with a quoted integer key says what the key reads. -/
theorem quoted_key_inj {k k' : PyKey} (hk : k.isInt = true) (hk' : k'.isInt = true) {r r' : Text}
    (h : quoted k.text ++ r = quoted k'.text ++ r') : k.text = k'.text ∧ r = r' := by
  cases k with
  | str s => cases hk
  | int m =>
    cases k' with
    | str s => cases hk'
    | int n =>
      obtain ⟨rfl, hrest⟩ := quoted_int_inj h
      exact ⟨rfl, hrest⟩

private theorem memberText_inj {k : PyKey} {v w : Text} (h : memberText (k, v) = memberText (k, w)) :
    v = w := by
  exact List.append_cancel_left (List.append_cancel_left h)

/-- Items in one order are the same on both sides if and only if their values are. -/
theorem joined_members_iff : joined (p.map memberOf) = joined (p.map memberBehind) ↔
    ∀ kv ∈ p, dumps kv.2 = dumps (jsonRoundTrip kv.2) := by
  constructor
  · intro h
    have hlen : (p.map memberOf).map List.length = (p.map memberBehind).map List.length := by
      rw [List.map_map, List.map_map]
      exact List.map_congr_left fun kv _ =>
        (length_memberText kv.1 (length_dumps_roundTrip kv.2)).symm
    have hall := List.map_inj_left.mp (joined_inj hlen h)
    exact fun kv hkv => memberText_inj (hall kv hkv)
  · intro h
    exact congrArg joined (List.map_congr_left fun kv hkv => by
      rw [memberOf, memberBehind, h kv hkv])

/-- Items with integer keys that read the same stand in the same order. -/
theorem order_of_joined (hdict : IsDict kvs) (hint : ∀ kv ∈ kvs, kv.1.isInt = true)
    (hp : p ⊆ kvs) (hq : q ⊆ kvs) (hlen : p.length = q.length)
    (h : joined (p.map memberOf) = joined (q.map memberBehind)) : p = q := by
  induction p generalizing q with
  | nil => exact (List.eq_nil_of_length_eq_zero hlen.symm).symm
  | cons a p ih =>
    cases q with
    | nil => cases hlen
    | cons b q =>
      have ha := hp List.mem_cons_self
      have hb := hq List.mem_cons_self
      rw [List.map_cons, List.map_cons, joined_cons, joined_cons] at h
      simp only [memberOf, memberBehind, memberText, List.append_assoc] at h
      obtain ⟨hkey, hrest⟩ := quoted_key_inj (hint a ha) (hint b hb) h
      obtain rfl := hdict.ext ha hb hkey
      have htail := (List.append_inj (List.append_cancel_left hrest)
        (length_dumps_roundTrip a.2).symm).2
      have hcount : p.length = q.length := Nat.succ.inj hlen
      by_cases hnil : p = []
      · subst hnil
        rw [List.eq_nil_of_length_eq_zero hcount.symm]
      · have hnil' : q ≠ [] := by
          rintro rfl
          exact hnil (List.eq_nil_of_length_eq_zero hcount)
        rw [if_neg (by simpa using hnil), if_neg (by simpa using hnil')] at htail
        rw [ih (List.subset_of_cons_subset hp) (List.subset_of_cons_subset hq) hcount
          (List.cons.inj (List.cons.inj htail).2).2]

/-- Two dictionaries' items, in the order of the keys and in that of their texts. -/
theorem joined_sorted_iff (hdict : IsDict kvs) :
    joined ((sortKeys kvs).map memberOf) = joined ((sortTexts kvs).map memberBehind) ↔
      sortKeys kvs = sortTexts kvs ∧ ∀ kv ∈ kvs, dumps kv.2 = dumps (jsonRoundTrip kv.2) := by
  have hvalues : (∀ kv ∈ sortKeys kvs, dumps kv.2 = dumps (jsonRoundTrip kv.2)) ↔
      ∀ kv ∈ kvs, dumps kv.2 = dumps (jsonRoundTrip kv.2) := by
    simp only [(sortKeys_perm kvs).mem_iff]
  have hsame (h : sortKeys kvs = sortTexts kvs) :
      joined ((sortKeys kvs).map memberOf) = joined ((sortTexts kvs).map memberBehind) ↔
        ∀ kv ∈ kvs, dumps kv.2 = dumps (jsonRoundTrip kv.2) := by
    rw [← h, joined_members_iff, hvalues]
  constructor
  · intro h
    have horder : sortKeys kvs = sortTexts kvs := by
      obtain ⟨int, hkind⟩ := hdict.kind
      cases int with
      | false => exact sortKeys_eq_of_strings hkind
      | true =>
        exact order_of_joined hdict hkind (sortKeys_perm kvs).subset (sortTexts_perm kvs).subset
          (((sortKeys_perm kvs).trans (sortTexts_perm kvs).symm).length_eq) h
    exact ⟨horder, (hsame horder).mp h⟩
  · rintro ⟨horder, hvals⟩
    exact (hsame horder).mpr hvals

end Members

/-- Texts in the same brackets are told apart by what is inside. -/
theorem bracketed_inj {a b : Text} {l r : Char} : l :: a ++ [r] = l :: b ++ [r] ↔ a = b := by
  rw [List.cons_append, List.cons_append, List.cons.injEq, and_iff_right rfl,
    List.append_cancel_right_eq]

/-- A list is dumped as before exactly if each of its values is. -/
theorem dumps_roundTrip_list_iff {xs : List PyVal} :
    dumps (.list xs) = dumps (jsonRoundTrip (.list xs)) ↔
      ∀ x ∈ xs, dumps x = dumps (jsonRoundTrip x) := by
  rw [dumps_list, dumps_roundTrip_list, bracketed_inj]
  constructor
  · intro h
    have hlen : (xs.map dumps).map List.length =
        (xs.map fun x => dumps (jsonRoundTrip x)).map List.length := by
      rw [List.map_map, List.map_map]
      exact List.map_congr_left fun x _ => (length_dumps_roundTrip x).symm
    exact List.map_inj_left.mp (joined_inj hlen h)
  · exact fun h => congrArg joined (List.map_congr_left h)

/-- The JSON text of a value is the same on both sides of the broker if and only if its integer keys
stand in the order of their texts. -/
theorem dumps_roundTrip_iff {x : PyVal} (hx : Proper x) :
    dumps x = dumps (jsonRoundTrip x) ↔ Ordered x := by
  induction x using PyVal.induction with
  | none => exact iff_of_true rfl .none
  | bool b => exact iff_of_true rfl (.bool b)
  | int n => exact iff_of_true rfl (.int n)
  | str s => exact iff_of_true rfl (.str s)
  | list xs ih =>
    cases hx with
    | list hxs =>
      rw [dumps_roundTrip_list_iff]
      refine ⟨fun h => .list fun x hmem => (ih x hmem (hxs x hmem)).mp (h x hmem), fun h => ?_⟩
      cases h with
      | list h => exact fun x hmem => (ih x hmem (hxs x hmem)).mpr (h x hmem)
  | tuple xs ih =>
    cases hx with
    | tuple hxs =>
      rw [dumps_tuple, roundTrip_tuple, dumps_roundTrip_list_iff]
      refine ⟨fun h => .tuple fun x hmem => (ih x hmem (hxs x hmem)).mp (h x hmem), fun h => ?_⟩
      cases h with
      | tuple h => exact fun x hmem => (ih x hmem (hxs x hmem)).mpr (h x hmem)
  | dict kvs ih =>
    cases hx with
    | dict hdict hkvs =>
      have hvals : (∀ kv ∈ kvs, dumps kv.2 = dumps (jsonRoundTrip kv.2)) ↔
          ∀ kv ∈ kvs, Ordered kv.2 := forall₂_congr fun kv hmem => ih kv hmem (hkvs kv hmem)
      rw [dumps_dict, dumps_roundTrip_dict, bracketed_inj]
      refine ((joined_sorted_iff hdict).trans
        (and_congr (sortKeys_eq_sortTexts_iff hdict) hvals)).trans ?_
      refine ⟨fun h => .dict h.1 h.2, fun h => ?_⟩
      cases h with
      | dict horder h => exact ⟨horder, h⟩

/-- A value that went through JSON once is left alone by it. -/
theorem roundTrip_roundTrip (x : PyVal) :
    jsonRoundTrip (jsonRoundTrip x) = jsonRoundTrip x := by
  induction x using PyVal.induction with
  | none => rfl
  | bool b => rfl
  | int n => rfl
  | str s => rfl
  | list xs ih =>
    rw [jsonRoundTrip, jsonRoundTripAll_eq, jsonRoundTrip, jsonRoundTripAll_eq, List.map_map]
    exact congrArg _ (List.map_congr_left ih)
  | tuple xs ih =>
    rw [jsonRoundTrip, jsonRoundTripAll_eq, jsonRoundTrip, jsonRoundTripAll_eq, List.map_map]
    exact congrArg _ (List.map_congr_left ih)
  | dict kvs ih =>
    rw [jsonRoundTrip, jsonRoundTripItems_eq, jsonRoundTrip, jsonRoundTripItems_eq, List.map_map]
    exact congrArg _ (List.map_congr_left fun kv hkv => congrArg _ (ih kv hkv))

private theorem truthy_roundTrip (x : PyVal) : (jsonRoundTrip x).truthy = x.truthy := by
  cases x with
  | list xs =>
    rw [jsonRoundTrip, jsonRoundTripAll_eq]
    cases xs <;> rfl
  | tuple xs =>
    rw [jsonRoundTrip, jsonRoundTripAll_eq]
    cases xs <;> rfl
  | dict kvs =>
    rw [jsonRoundTrip, jsonRoundTripItems_eq]
    cases kvs <;> rfl
  | _ => rfl

/-- What has no signature has nothing to order. -/
theorem ordered_of_falsy {x : PyVal} (h : x.truthy = false) : Ordered x := by
  cases x with
  | none => exact .none
  | bool b => exact .bool b
  | int n => exact .int n
  | str s => exact .str s
  | list xs =>
    cases xs with
    | nil => exact .list (List.forall_mem_nil _)
    | cons x xs => cases h
  | tuple xs =>
    cases xs with
    | nil => exact .tuple (List.forall_mem_nil _)
    | cons x xs => cases h
  | dict kvs =>
    cases kvs with
    | nil => exact .dict .nil (List.forall_mem_nil _)
    | cons kv kvs => cases h

/-- The signature is the same on both sides of the broker if and only if the integer keys stand in
the order of their texts. -/
theorem argsig_roundTrip_iff (D : Digest) {x : PyVal} (hx : Proper x) :
    argsig D x = argsig D (jsonRoundTrip x) ↔ Ordered x := by
  rw [argsig, argsig, truthy_roundTrip]
  cases htruthy : x.truthy with
  | false => exact iff_of_true rfl (ordered_of_falsy htruthy)
  | true =>
    rw [if_pos rfl, if_pos rfl, D.injective.eq_iff]
    exact dumps_roundTrip_iff hx

/-! ### The deploy check -/

/-- `FANOUT_TASK_NAME`. -/
def fanoutTaskName : String := "tenants.tasks.fanout_dispatch"

/-- An entry of `CELERY_BEAT_SCHEDULE`, as far as `fanout_entries_are_unique` reads it: its `task`,
of its `kwargs` what is there, and its `schedule`. -/
structure ScheduleEntry where
  task : String
  taskName : Option String
  taskArgs : PyVal
  grace : Option Int
  cron : Option String
  schedule : Option Int

/-- A named entry of the schedule. -/
abbrev Member := String × ScheduleEntry

section Groups

variable {κ μ : Type} [DecidableEq κ]

/-- `groups.setdefault(key, []).append(member)`. -/
def setdefaultAppend (key : κ) (member : μ) : List (κ × List μ) → List (κ × List μ)
  | [] => [(key, [member])]
  | (k, members) :: groups =>
    if k = key then (k, members ++ [member]) :: groups
    else (k, members) :: setdefaultAppend key member groups

end Groups

/-- What `fanout_entries_are_unique` groups an entry by. -/
def groupKey (D : Digest) (m : Member) : Option String × String :=
  (m.2.taskName, argsig D m.2.taskArgs)

/-- The entries of the schedule that fan out. -/
def fanoutEntries (schedule : List Member) : List Member :=
  schedule.filter fun m => m.2.task = fanoutTaskName

/-- The groups of `fanout_entries_are_unique`. -/
def entryGroups (D : Digest) (schedule : List Member) :
    List ((Option String × String) × List Member) :=
  (fanoutEntries schedule).foldl (fun groups m => setdefaultAppend (groupKey D m) m groups) []

/-- An error `tenants.E006`: the entries, their task, and whether they differ in cron, interval or
grace, which decides its text. -/
structure DuplicateEntries where
  names : List String
  taskName : Option String
  differ : Bool
  deriving DecidableEq, Repr

/-- `len(set(values)) > 1`. -/
def manyOf {α : Type} [DecidableEq α] (values : List α) : Bool := decide (1 < values.dedup.length)

/-- `fanout_entries_are_unique`. -/
def fanoutEntriesAreUnique (D : Digest) (schedule : List Member) : List DuplicateEntries :=
  (entryGroups D schedule).filterMap fun group =>
    if group.2.length < 2 then none
    else some ⟨(group.2.map Prod.fst).mergeSort (· ≤ ·), group.1.1,
      manyOf (group.2.map (·.2.grace)) || manyOf (group.2.map (·.2.cron)) ||
        manyOf (group.2.map (·.2.schedule))⟩

/-- The two entries are in one group. -/
def SameGroup (D : Digest) (schedule : List Member) (m m' : Member) : Prop :=
  ∃ group ∈ entryGroups D schedule, m ∈ group.2 ∧ m' ∈ group.2

/-- The key of the overlap lock. -/
def waveLockKey (task argsSig : String) : String := "beat:fanout:" ++ task ++ ":" ++ argsSig

/-- The signature that the runtime computes of an entry. -/
def runtimeSig (D : Digest) (m : Member) : String := argsig D (jsonRoundTrip m.2.taskArgs)

/-- The one that `sub_dispatch` computes where its message carries none. -/
def resentSig (D : Digest) (m : Member) : String :=
  argsig D (jsonRoundTrip (jsonRoundTrip m.2.taskArgs))

/-- Two entries of one task share the overlap lock and the watermark of every tenant. -/
def ShareRun (D : Digest) (task : String) (m m' : Member) : Prop :=
  waveLockKey task (runtimeSig D m) = waveLockKey task (runtimeSig D m') ∧
    ∀ schema, RunKey.mk schema task (runtimeSig D m) = RunKey.mk schema task (runtimeSig D m')

/-! ### Groups -/

section Grouping

variable {κ μ : Type} [DecidableEq κ] {key : κ} {member : μ} {groups : List (κ × List μ)}

/-- Adding a member adds its key at the end, unless it is there. -/
theorem keys_setdefaultAppend : (setdefaultAppend key member groups).map Prod.fst =
    if key ∈ groups.map Prod.fst then groups.map Prod.fst else groups.map Prod.fst ++ [key] := by
  induction groups with
  | nil => rfl
  | cons group groups ih =>
    rw [setdefaultAppend]
    by_cases hkey : group.1 = key
    · rw [if_pos hkey, if_pos (by simp [hkey])]
      rfl
    · rw [if_neg hkey, List.map_cons, List.map_cons, ih]
      by_cases hmem : key ∈ groups.map Prod.fst
      · rw [if_pos hmem, if_pos (List.mem_cons_of_mem _ hmem)]
      · rw [if_neg hmem, if_neg (by simpa [Ne.symm hkey] using hmem)]
        rfl

/-- A group that is there after an entry has been put in its own is one that has another key, or the
one of the key with the entry at its end. -/
theorem of_mem_setdefaultAppend (hnodup : (groups.map Prod.fst).Nodup) {group : κ × List μ}
    (h : group ∈ setdefaultAppend key member groups) :
    (group ∈ groups ∧ group.1 ≠ key) ∨
      (group.1 = key ∧ ∃ members, group.2 = members ++ [member] ∧
        ((key, members) ∈ groups ∨ members = [] ∧ key ∉ groups.map Prod.fst)) := by
  induction groups with
  | nil =>
    obtain rfl := List.mem_singleton.mp h
    exact .inr ⟨rfl, [], rfl, .inr ⟨rfl, List.not_mem_nil⟩⟩
  | cons first groups ih =>
    rw [List.map_cons, List.nodup_cons] at hnodup
    rw [setdefaultAppend] at h
    by_cases hkey : first.1 = key
    · rw [if_pos hkey] at h
      obtain rfl | h := List.mem_cons.mp h
      · exact .inr ⟨hkey, first.2, rfl, .inl (by rw [← hkey]; exact List.mem_cons_self)⟩
      · refine .inl ⟨List.mem_cons_of_mem _ h, fun heq => hnodup.1 ?_⟩
        rw [hkey, ← heq]
        exact List.mem_map_of_mem h
    · rw [if_neg hkey] at h
      obtain rfl | h := List.mem_cons.mp h
      · exact .inl ⟨List.mem_cons_self, hkey⟩
      · obtain ⟨hmem, hne⟩ | ⟨heq, members, hmembers, hold⟩ := ih hnodup.2 h
        · exact .inl ⟨List.mem_cons_of_mem _ hmem, hne⟩
        · refine .inr ⟨heq, members, hmembers, hold.imp (List.mem_cons_of_mem _) fun hnew => ?_⟩
          exact ⟨hnew.1, by simpa [Ne.symm hkey] using hnew.2⟩

/-- The entries so far are grouped by their keys. -/
structure Grouped (keyOf : μ → κ) (done : List μ) (groups : List (κ × List μ)) : Prop where
  nodup : (groups.map Prod.fst).Nodup
  members : ∀ group ∈ groups, ∀ m, m ∈ group.2 ↔ m ∈ done ∧ keyOf m = group.1
  covers : ∀ m ∈ done, keyOf m ∈ groups.map Prod.fst

variable {keyOf : μ → κ} {done : List μ}

/-- Adding a member to its group keeps the grouping. -/
theorem Grouped.append (h : Grouped keyOf done groups) (m : μ) :
    Grouped keyOf (done ++ [m]) (setdefaultAppend (keyOf m) m groups) where
  nodup := by
    rw [keys_setdefaultAppend]
    split
    · exact h.nodup
    · rename_i hnew
      exact List.nodup_append.mpr ⟨h.nodup, List.nodup_singleton _, fun a ha b hb => by
        rintro rfl
        exact hnew (List.mem_singleton.mp hb ▸ ha)⟩
  members := by
    intro group hgroup m'
    rw [List.mem_append, List.mem_singleton]
    obtain ⟨hmem, hne⟩ | ⟨heq, members, hmembers, hold⟩ :=
      of_mem_setdefaultAppend h.nodup hgroup
    · rw [h.members group hmem]
      refine ⟨fun hm' => ⟨.inl hm'.1, hm'.2⟩, ?_⟩
      rintro ⟨hm' | rfl, hkey⟩
      · exact ⟨hm', hkey⟩
      · exact absurd hkey.symm hne
    · have hmem : m' ∈ members ↔ m' ∈ done ∧ keyOf m' = keyOf m := by
        obtain hthere | ⟨rfl, hnew⟩ := hold
        · exact h.members _ hthere m'
        · refine iff_of_false List.not_mem_nil fun hm' => hnew ?_
          rw [← hm'.2]
          exact h.covers m' hm'.1
      rw [hmembers, heq, List.mem_append, List.mem_singleton, hmem]
      constructor
      · rintro (hm' | rfl)
        · exact ⟨.inl hm'.1, hm'.2⟩
        · exact ⟨.inr rfl, rfl⟩
      · rintro ⟨hm' | rfl, hkey⟩
        · exact .inl ⟨hm', hkey⟩
        · exact .inr rfl
  covers := by
    intro m' hm'
    rw [keys_setdefaultAppend]
    obtain hm' | hm' := List.mem_append.mp hm'
    · split
      · exact h.covers m' hm'
      · exact List.mem_append_left _ (h.covers m' hm')
    · rw [List.mem_singleton.mp hm']
      split
      · assumption
      · exact List.mem_append_right _ List.mem_cons_self

/-- Adding members one after the other keeps the grouping. -/
theorem Grouped.foldl (h : Grouped keyOf done groups) (rest : List μ) :
    Grouped keyOf (done ++ rest)
      (rest.foldl (fun groups m => setdefaultAppend (keyOf m) m groups) groups) := by
  induction rest generalizing done groups with
  | nil => rwa [List.append_nil]
  | cons m rest ih =>
    have hnext := ih (h.append m)
    rwa [List.append_assoc] at hnext

end Grouping

/-- Entries of one task are in one group if and only if they have one signature. -/
theorem sameGroup_iff {D : Digest} {schedule : List Member} {m m' : Member}
    (hm : m ∈ fanoutEntries schedule) (hm' : m' ∈ fanoutEntries schedule) :
    SameGroup D schedule m m' ↔ groupKey D m = groupKey D m' := by
  have hstart : Grouped (groupKey D) [] ([] : List ((Option String × String) × List Member)) :=
    ⟨List.nodup_nil, List.forall_mem_nil _, List.forall_mem_nil _⟩
  have hgrouped := hstart.foldl (fanoutEntries schedule)
  rw [List.nil_append] at hgrouped
  constructor
  · rintro ⟨group, hgroup, hmem, hmem'⟩
    rw [((hgrouped.members group hgroup m).mp hmem).2,
      ((hgrouped.members group hgroup m').mp hmem').2]
  · intro hkey
    obtain ⟨group, hgroup, hgkey⟩ := List.mem_map.mp (hgrouped.covers m hm)
    exact ⟨group, hgroup, (hgrouped.members group hgroup m).mpr ⟨hm, hgkey.symm⟩,
      (hgrouped.members group hgroup m').mpr ⟨hm', hkey.symm.trans hgkey.symm⟩⟩

/-- Two members of a task share a run exactly if their signatures at run time are the same. -/
theorem shareRun_iff {D : Digest} {task : String} {m m' : Member} :
    ShareRun D task m m' ↔ runtimeSig D m = runtimeSig D m' := by
  constructor
  · rintro ⟨-, hruns⟩
    exact congrArg RunKey.argsSig (hruns "")
  · intro h
    rw [ShareRun, h]
    exact ⟨rfl, fun _ => rfl⟩

/-- The recomputation of `sub_dispatch` is equivalent. -/
theorem resentSig_eq (D : Digest) (m : Member) : resentSig D m = runtimeSig D m :=
  congrArg (argsig D) (roundTrip_roundTrip m.2.taskArgs)

/-- Two entries of one group are reported together. -/
theorem SameGroup.reported {D : Digest} {schedule : List Member} {m m' : Member}
    (h : SameGroup D schedule m m') (hne : m ≠ m') :
    ∃ error ∈ fanoutEntriesAreUnique D schedule, m.1 ∈ error.names ∧ m'.1 ∈ error.names := by
  obtain ⟨group, hgroup, hm, hm'⟩ := h
  have hmany : ¬group.2.length < 2 := by
    intro hfew
    obtain ⟨only, hsub⟩ : ∃ only, group.2 ⊆ [only] := by
      cases hmembers : group.2 with
      | nil => exact ⟨m, List.nil_subset _⟩
      | cons first rest =>
        rw [hmembers, List.length_cons] at hfew
        rw [List.eq_nil_of_length_eq_zero (show rest.length = 0 by omega)]
        exact ⟨first, List.Subset.refl _⟩
    exact hne ((List.mem_singleton.mp (hsub hm)).trans (List.mem_singleton.mp (hsub hm')).symm)
  refine ⟨_, List.mem_filterMap.mpr ⟨group, hgroup, if_neg hmany⟩, ?_, ?_⟩
  · exact List.mem_mergeSort.mpr (List.mem_map_of_mem hm)
  · exact List.mem_mergeSort.mpr (List.mem_map_of_mem hm')

/-! ### The check and the runtime -/

/-- What is behind the broker is `Proper`. -/
theorem Proper.roundTrip {x : PyVal} (hx : Proper x) : Proper (jsonRoundTrip x) := by
  induction hx with
  | none => exact .none
  | bool b => exact .bool b
  | int n => exact .int n
  | str s => exact .str s
  | list _ ih =>
    rw [jsonRoundTrip, jsonRoundTripAll_eq]
    exact .list (List.forall_mem_map.mpr ih)
  | tuple _ ih =>
    rw [jsonRoundTrip, jsonRoundTripAll_eq]
    exact .list (List.forall_mem_map.mpr ih)
  | @dict kvs hdict _ ih =>
    rw [jsonRoundTrip, jsonRoundTripItems_eq]
    refine .dict ⟨?_, false, List.forall_mem_map.mpr fun _ _ => rfl⟩ (List.forall_mem_map.mpr ih)
    rw [List.map_map]
    refine hdict.nodup.of_map.map_on fun a ha b hb hkey => ?_
    exact hdict.ext ha hb (PyKey.str.inj hkey)

/-- Behind the broker there are no integer keys to stand out of order. -/
theorem Proper.ordered_roundTrip {x : PyVal} (hx : Proper x) : Ordered (jsonRoundTrip x) :=
  (dumps_roundTrip_iff hx.roundTrip).mp (congrArg dumps (roundTrip_roundTrip x).symm)

section Agreement

variable {D : Digest} {schedule : List Member} {task : String} {m m' : Member}

/-- Of entries whose keys stand in order, check and runtime agree. -/
theorem sameGroup_iff_shareRun (hm : m ∈ fanoutEntries schedule)
    (hm' : m' ∈ fanoutEntries schedule) (htask : m.2.taskName = some task)
    (htask' : m'.2.taskName = some task)
    (hsig : argsig D m.2.taskArgs = runtimeSig D m)
    (hsig' : argsig D m'.2.taskArgs = runtimeSig D m') :
    SameGroup D schedule m m' ↔ ShareRun D task m m' := by
  rw [sameGroup_iff hm hm', shareRun_iff, groupKey, groupKey, htask, htask', Prod.mk.injEq,
    and_iff_right rfl, hsig, hsig']

/-- An entry of a task with its arguments, every five minutes. -/
def entryOf (task : String) (taskArgs : PyVal) : ScheduleEntry where
  task := fanoutTaskName
  taskName := some task
  taskArgs := taskArgs
  grace := none
  cron := none
  schedule := some 300

/-- One task twice, with its arguments as they are and as they are behind the broker. -/
def twins (task : String) (x : PyVal) : List Member :=
  [("as set", entryOf task x), ("as sent", entryOf task (jsonRoundTrip x))]

/-- Both twins are among the entries. -/
theorem mem_twins (task : String) (x : PyVal) :
    ("as set", entryOf task x) ∈ fanoutEntries (twins task x) ∧
      ("as sent", entryOf task (jsonRoundTrip x)) ∈ fanoutEntries (twins task x) := by
  have hall : fanoutEntries (twins task x) = twins task x :=
    List.filter_eq_self.mpr fun m hm => by
      obtain rfl | hm := List.mem_cons.mp hm
      · exact decide_eq_true rfl
      · rw [List.mem_singleton.mp hm]
        exact decide_eq_true rfl
  rw [hall]
  exact ⟨List.mem_cons_self, List.mem_cons_of_mem _ List.mem_cons_self⟩

/-- The runtime takes the twins for one. -/
theorem shareRun_twins (D : Digest) (task : String) (x : PyVal) :
    ShareRun D task ("as set", entryOf task x) ("as sent", entryOf task (jsonRoundTrip x)) :=
  shareRun_iff.mpr (congrArg (argsig D) (roundTrip_roundTrip x).symm)

/-- The check takes them for one if and only if the signature is the same on both sides. -/
theorem sameGroup_twins_iff (D : Digest) (task : String) (x : PyVal) :
    SameGroup D (twins task x) ("as set", entryOf task x)
      ("as sent", entryOf task (jsonRoundTrip x)) ↔ argsig D x = argsig D (jsonRoundTrip x) := by
  rw [sameGroup_iff (mem_twins task x).1 (mem_twins task x).2, groupKey, groupKey, Prod.mk.injEq]
  exact and_iff_right rfl

end Agreement

/-- The signature survives the broker if and only if the integer keys stand in the order of their
texts. Then and only then do the check and the runtime agree about an entry, beside every entry of
which that is so. -/
theorem argsig_survives_broker (D : Digest) :
    (∀ x, Proper x → (argsig D x = argsig D (jsonRoundTrip x) ↔ Ordered x)) ∧
    ∀ task x, Proper x → (Ordered x ↔
      ∀ schedule, ∀ m ∈ fanoutEntries schedule, ∀ m' ∈ fanoutEntries schedule,
        m.2.taskName = some task → m'.2.taskName = some task → m.2.taskArgs = x →
        Proper m'.2.taskArgs → Ordered m'.2.taskArgs →
        (SameGroup D schedule m m' ↔ ShareRun D task m m')) := by
  refine ⟨fun x hx => argsig_roundTrip_iff D hx, fun task x hx => ⟨?_, fun hagree => ?_⟩⟩
  · rintro hordered schedule m hm m' hm' htask htask' rfl hproper' hordered'
    exact sameGroup_iff_shareRun hm hm' htask htask' ((argsig_roundTrip_iff D hx).mpr hordered)
      ((argsig_roundTrip_iff D hproper').mpr hordered')
  · obtain ⟨hset, hsent⟩ := mem_twins task x
    have htwins := hagree (twins task x) _ hset _ hsent rfl rfl rfl hx.roundTrip
      hx.ordered_roundTrip
    rw [sameGroup_twins_iff, argsig_roundTrip_iff D hx] at htwins
    exact htwins.mpr (shareRun_twins D task x)

/-- A digest. -/
def plainDigest : Digest where
  hexdigest blob := String.ofList ('0' :: blob)
  injective _ _ h := (List.cons.inj (String.ofList_injective h)).2
  ne_empty blob h := by
    have hlist := congrArg String.toList h
    rw [String.toList_ofList] at hlist
    cases hlist

/-- Prices by the number of seats. -/
def seatPrices : PyVal := .list [.dict [(.int 9, .str "small"), (.int 10, .str "large")]]

/-- The seat prices are a dict as Python has them. -/
theorem proper_seatPrices : Proper seatPrices := by
  refine .list (List.forall_mem_singleton.mpr (.dict ⟨by decide, true, by decide⟩ ?_))
  exact List.forall_mem_cons.mpr ⟨.str _, List.forall_mem_singleton.mpr (.str _)⟩

/-- Nine comes before ten, and `"10"` before `"9"`. -/
theorem not_ordered_seatPrices : ¬Ordered seatPrices := by
  rintro (_ | _ | _ | _ | hitems)
  obtain _ | _ | _ | _ | _ | _ | ⟨horder, -⟩ := hitems _ List.mem_cons_self
  have hnine : (PyKey.int 9).textLe (.int 10) :=
    (List.pairwise_cons.mp horder).1 _ List.mem_cons_self
  rw [PyKey.textLe, PyKey.text, PyKey.text, Int.repr_eq_if, Int.repr_eq_if, if_pos (by decide),
    if_pos (by decide), Nat.toList_repr, Nat.toList_repr] at hnine
  exact absurd hnine (by decide)

/-- The check passes over two entries that share the overlap lock and the watermarks. -/
theorem argsig_survives_broker_fails :
    Proper seatPrices ∧
      argsig plainDigest seatPrices ≠ argsig plainDigest (jsonRoundTrip seatPrices) ∧
      ∃ m ∈ fanoutEntries (twins "billing.tasks.invoice" seatPrices),
        ∃ m' ∈ fanoutEntries (twins "billing.tasks.invoice" seatPrices),
          m.2.taskName = m'.2.taskName ∧ Proper m'.2.taskArgs ∧
          ¬SameGroup plainDigest (twins "billing.tasks.invoice" seatPrices) m m' ∧
          ShareRun plainDigest "billing.tasks.invoice" m m' := by
  have hsig : argsig plainDigest seatPrices ≠ argsig plainDigest (jsonRoundTrip seatPrices) :=
    fun h => not_ordered_seatPrices ((argsig_roundTrip_iff plainDigest proper_seatPrices).mp h)
  have hmem := mem_twins "billing.tasks.invoice" seatPrices
  refine ⟨proper_seatPrices, hsig, _, hmem.1, _, hmem.2, rfl, proper_seatPrices.roundTrip, ?_,
    shareRun_twins plainDigest _ seatPrices⟩
  exact fun hsame => hsig ((sameGroup_twins_iff plainDigest _ seatPrices).mp hsame)

end MtShards.Fanout
