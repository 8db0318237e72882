import MtShards.Core.Gregorian
import MtShards.Models.Fanout.CronText

/-!
# From a crontab to a cron string

`commons.platform.beat`: `scoped_schedule` fans a calendar entry out with a cron string, which
`_crontab_to_cronspec` prints from the fields that the crontab was made with, a text as it was
written. Celery reads those fields and `croniter` the string; what the two are documented to make
of them is stated here, and when they agree is proved.
-/

namespace MtShards.Beat

open MtShards.Core
open MtShards.Core.Gregorian

/-- The fields of a crontab. -/
inductive Slot
  | minute
  | hour
  | dayOfMonth
  | monthOfYear
  | dayOfWeek
  deriving DecidableEq, Repr

namespace Slot

def lo : Slot → Nat
  | dayOfMonth | monthOfYear => 1
  | minute | hour | dayOfWeek => 0

def hi : Slot → Nat
  | minute => 59
  | hour => 23
  | dayOfMonth => 31
  | monthOfYear => 12
  | dayOfWeek => 6

/-- Everything that `*` stands for. -/
def all (slot : Slot) : List Nat := List.range' slot.lo (slot.hi + 1 - slot.lo)

/-- A value of the field. -/
def Holds (slot : Slot) (n : Nat) : Prop := slot.lo ≤ n ∧ n ≤ slot.hi

instance (slot : Slot) (n : Nat) : Decidable (slot.Holds n) := inferInstanceAs (Decidable (_ ∧ _))

end Slot

/-- The collections that a field may be given as. -/
inductive Shape
  | list
  | tuple
  | set
  | frozenset
  deriving DecidableEq, Repr

/-- What a field is given as. -/
inductive Spec
  | int (n : Nat)
  | text (raw : Text)
  | iterable (shape : Shape) (elems : List Nat)
  deriving DecidableEq, Repr

/-- `celery.schedules.crontab`: the fields as they were given. -/
structure Crontab where
  minute : Spec
  hour : Spec
  dayOfMonth : Spec
  monthOfYear : Spec
  dayOfWeek : Spec
  deriving DecidableEq, Repr

/-- The field of a crontab. -/
def Crontab.field (c : Crontab) : Slot → Spec
  | .minute => c.minute
  | .hour => c.hour
  | .dayOfMonth => c.dayOfMonth
  | .monthOfYear => c.monthOfYear
  | .dayOfWeek => c.dayOfWeek

/-! ### Printing -/

/-- `str(n)`. -/
def digits (n : Nat) : List Char := Nat.toDigits 10 n

/-- The elements of a collection, as `repr` lists them. -/
def printElems (elems : List Nat) : List Char := [',', ' '].intercalate (elems.map digits)

/-- `str` of a collection. -/
def printIterable : Shape → List Nat → List Char
  | .list, elems => '[' :: printElems elems ++ [']']
  | .tuple, [n] => '(' :: digits n ++ [',', ')']
  | .tuple, elems => '(' :: printElems elems ++ [')']
  | .set, [] => "set()".toList
  | .set, elems => '\x7b' :: printElems elems ++ ['\x7d']
  | .frozenset, [] => "frozenset()".toList
  | .frozenset, elems => "frozenset(".toList ++ '\x7b' :: printElems elems ++ ['\x7d', ')']

/-- What `str.format` puts for a field. -/
def Spec.print : Spec → List Char
  | int n => digits n
  | text raw => raw
  | iterable shape elems => printIterable shape elems

/-- `_crontab_to_cronspec`. -/
def crontabToCronspec (c : Crontab) : List Char :=
  [' '].intercalate [c.minute.print, c.hour.print, c.dayOfMonth.print, c.monthOfYear.print,
    c.dayOfWeek.print]

/-- A schedule, by its type. -/
inductive Sched
  /-- A number, a `timedelta` or `celery.schedules.schedule`. -/
  | interval (seconds : Nat)
  | crontab (c : Crontab)
  /-- Anything else. -/
  | other (typeName : String)

/-- `_classify_schedule`: the cron string of a calendar schedule, none for an interval. -/
def classifySchedule : Sched → Except String (Option (List Char))
  | .interval _ => .ok none
  | .crontab c => .ok (some (crontabToCronspec c))
  | .other typeName => .error ("scoped_schedule: unsupported schedule " ++ typeName ++
      ". Allowed: number / timedelta / celery.schedules.schedule (interval) or crontab (calendar). " ++
      "Strings / solar / clocked are rejected; one-off runs use apply_async(eta=...).")

/-- A beat entry; what its arguments hold plays no part. -/
structure Entry (α : Type) where
  task : String
  schedule : Sched
  args : Option α
  kwargs : Option α
  options : Option α

/-- What `scoped_schedule` hands to beat. -/
inductive Wrapped (α : Type)
  /-- The entry itself. -/
  | stock (entry : Entry α) (scope : String)
  /-- `fanout_dispatch` with these arguments, at a cadence of its own for a calendar entry. -/
  | fanout (every : Sched) (taskName scope : String) (args kwargs options : Option α)
      (cron : Option (List Char)) (grace : Option Nat)

/-- `scoped_schedule`. -/
def scopedSchedule {α : Type} (useMultitenant : Bool) (fanoutPeriodDefault : Nat) (entry : Entry α)
    (scope : String) (fanoutPeriod grace : Option Nat) : Except String (Wrapped α) :=
  if scope ≠ "public" ∧ scope ≠ "tenants" then
    .error ("scoped_schedule: scope must be 'public' or 'tenants', got '" ++ scope ++ "'")
  else if useMultitenant = false ∨ scope = "public" then .ok (.stock entry scope)
  else do
    match ← classifySchedule entry.schedule with
    | none => .ok (.fanout entry.schedule entry.task scope entry.args entry.kwargs entry.options
        none none)
    | some cron => .ok (.fanout (.interval (fanoutPeriod.getD fanoutPeriodDefault)) entry.task scope
        entry.args entry.kwargs entry.options (some cron) grace)

/-- The cron string that an entry is fanned out with. -/
def Wrapped.cron {α : Type} : Wrapped α → Option Text
  | stock _ _ => none
  | fanout _ _ _ _ _ _ cron _ => cron

/-- A crontab is fanned out with the string that is printed from it. -/
theorem cron_of_scopedSchedule {α : Type} {entry : Entry α} {w : Wrapped α} {c : Crontab}
    {period : Nat} {fanoutPeriod grace : Option Nat} (hc : entry.schedule = .crontab c)
    (hw : scopedSchedule true period entry "tenants" fanoutPeriod grace = .ok w) :
    w.cron = some (crontabToCronspec c) := by
  simp only [scopedSchedule, classifySchedule, hc, Bind.bind, Except.bind] at hw
  cases hw
  rfl

/-! ### What Celery reads -/

def dayNames : List (List Char) :=
  [['s', 'u', 'n'], ['m', 'o', 'n'], ['t', 'u', 'e'], ['w', 'e', 'd'], ['t', 'h', 'u'],
    ['f', 'r', 'i'], ['s', 'a', 't']]

def monthNames : List (List Char) :=
  [['j', 'a', 'n'], ['f', 'e', 'b'], ['m', 'a', 'r'], ['a', 'p', 'r'], ['m', 'a', 'y'],
    ['j', 'u', 'n'], ['j', 'u', 'l'], ['a', 'u', 'g'], ['s', 'e', 'p'], ['o', 'c', 't'],
    ['n', 'o', 'v'], ['d', 'e', 'c']]

def lower (w : List Char) : List Char := w.map Char.toLower

/-- The value, if the field has it. -/
def Slot.check (slot : Slot) (n : Nat) : Option Nat := if slot.Holds n then some n else none

/-- Celery: a word stands for the weekday of its first three letters, in any field. -/
def celeryAtom (slot : Slot) : Atom → Option Nat
  | .number n => slot.check n
  | .word w => if w.all Char.isAlpha then (dayNames.idxOf? ((lower w).take 3)).bind slot.check else none

/-- `xs[::n]`; `k` elements are skipped first. -/
def everyNth (n : Nat) : Nat → List Nat → List Nat
  | _, [] => []
  | 0, x :: xs => x :: everyNth n (n - 1) xs
  | k + 1, _ :: xs => everyNth n k xs

/-- The values of a range that runs forward, or what `back` makes of one that does not. -/
def through (back : Nat → Nat → Option (List Nat)) (x y : Nat) : Option (List Nat) :=
  if x ≤ y then some (List.range' x (y + 1 - x)) else back x y

/-- The values of a part, from those of its numbers and names. -/
def Part.values (slot : Slot) (atom : Atom → Option Nat) (back : Nat → Nat → Option (List Nat)) :
    Part → Option (List Nat)
  | star => some slot.all
  | starStep n => if n = 0 then none else some (everyNth n 0 slot.all)
  | one a => (atom a).map fun x => [x]
  | span a b => (atom a).bind fun x => (atom b).bind fun y => through back x y
  | spanStep a b n =>
    if n = 0 then none
    else (atom a).bind fun x => (atom b).bind fun y => (through back x y).map (everyNth n 0)

/-- The values of some parts together. -/
def union (values : Part → Option (List Nat)) : List Part → Option (List Nat)
  | [] => some []
  | p :: ps => (values p).bind fun xs => (union values ps).map (xs ++ ·)

/-- A field without parts is refused. -/
def textValues (values : Part → Option (List Nat)) (parts : List Part) : Option (List Nat) :=
  if parts = [] then none else union values parts

/-- A range that runs backward wraps around. -/
def Slot.wrap (slot : Slot) (x y : Nat) : Option (List Nat) :=
  some (List.range' x (slot.hi + 1 - x) ++ List.range' slot.lo (y + 1 - slot.lo))

/-- What Celery is documented to expand a textual field to. -/
def celeryText (slot : Slot) : List Part → Option (List Nat) :=
  textValues (Part.values slot (celeryAtom slot) slot.wrap)

/-! ### What Unix cron reads -/

/-- Unix cron: a name is one of three letters, of a weekday or a month in its own field. -/
def unixAtom (slot : Slot) : Atom → Option Nat
  | .number n => slot.check n
  | .word w =>
    match slot with
    | .dayOfWeek => dayNames.idxOf? (lower w)
    | .monthOfYear => (monthNames.idxOf? (lower w)).map (· + 1)
    | _ => none

/-- What Unix cron reads in a column; of a range that runs backward it says nothing. -/
def unixText (back : Slot → Nat → Nat → Option (List Nat)) (slot : Slot) :
    List Part → Option (List Nat) :=
  textValues (Part.values slot (unixAtom slot) (back slot))

/-! ### The two libraries -/

/-- Celery and `croniter`. -/
structure Libraries where
  /-- What Celery expands a textual field to; `none` when it refuses the crontab. -/
  celery : Slot → Text → Option (List Nat)
  /-- What `croniter` reads in a column; `none` when it refuses the string. -/
  croniter : Slot → Text → Option (List Nat)
  /-- Whether `croniter` takes two day columns as alternatives. -/
  alternatives : Text → Text → Bool
  /-- What `croniter` makes of a string that has not five columns. -/
  others : List Text → Option (LocalMinute → Prop)

/-- The parts that a field is read as in a cron string; none for a collection, nor for a text that
is not of cron's syntax. -/
def Spec.parts : Spec → Option (List Part)
  | iterable _ _ => none
  | spec => readText spec.print

/-- The column that a field makes in a cron string. -/
def Spec.column (f : Spec) : Text := Text.strip f.print

/-- The characters that open a collection. -/
def brackets : List Char := ['(', '[', '\x7b']

/-- Some value of the field is missing. -/
def Slot.LeavesOut (slot : Slot) (vs : List Nat) : Prop := ∃ v, slot.Holds v ∧ v ∉ vs

/-- `*` is among the parts of the field. -/
def Spec.Starred (f : Spec) : Prop := ∃ parts, f.parts = some parts ∧ .star ∈ parts

/-- What the libraries are documented to do with the fields of a crontab. -/
structure Libraries.Documented (L : Libraries) (c : Crontab) : Prop where
  /-- A text of cron's syntax that Celery accepts stands for what its parts stand for. -/
  celery : ∀ slot raw parts vs, c.field slot = .text raw → readText raw = some parts →
    L.celery slot raw = some vs → celeryText slot parts = some vs
  /-- `croniter` follows Unix cron. -/
  croniter : ∃ back, ∀ slot parts, (c.field slot).parts = some parts →
    L.croniter slot (c.field slot).column = unixText back slot parts
  /-- A day column with `*` among its parts is not restricted, so both have to match. -/
  together : c.dayOfMonth.Starred ∨ c.dayOfWeek.Starred →
    L.alternatives c.dayOfMonth.column c.dayOfWeek.column = false
  /-- Two restricted day columns are alternatives, and a column without `*` that leaves out a day is
  restricted; `*/2` is. -/
  apart : ∀ days weekdays, ¬ c.dayOfMonth.Starred → ¬ c.dayOfWeek.Starred →
    L.croniter .dayOfMonth c.dayOfMonth.column = some days → Slot.dayOfMonth.LeavesOut days →
    L.croniter .dayOfWeek c.dayOfWeek.column = some weekdays → Slot.dayOfWeek.LeavesOut weekdays →
    L.alternatives c.dayOfMonth.column c.dayOfWeek.column = true
  /-- No column has brackets. -/
  column : ∀ slot col, (∃ x ∈ col, x ∈ brackets) → L.croniter slot col = none
  columns : ∀ cols, (∃ col ∈ cols, ∃ x ∈ col, x ∈ brackets) → L.others cols = none

namespace Crontab

variable (L : Libraries) (c : Crontab)

/-- What Celery expands a field to. -/
def values (slot : Slot) : Option (List Nat) :=
  match c.field slot with
  | .int n => (slot.check n).map fun x => [x]
  | .text raw => L.celery slot raw
  | .iterable _ elems => if ∀ n ∈ elems, slot.Holds n then some elems else none

/-- Celery accepts the crontab. -/
def Accepted : Prop := ∀ slot, (c.values L slot).isSome = true

/-- The minutes at which all five fields match. -/
def Matches (t : LocalMinute) : Prop :=
  (∃ vs, c.values L .minute = some vs ∧ t.minute ∈ vs) ∧
  (∃ vs, c.values L .hour = some vs ∧ t.hour ∈ vs) ∧
  (∃ vs, c.values L .dayOfMonth = some vs ∧ t.day ∈ vs) ∧
  (∃ vs, c.values L .monthOfYear = some vs ∧ t.month ∈ vs) ∧
  ∃ vs, c.values L .dayOfWeek = some vs ∧ t.weekday ∈ vs

end Crontab

/-- What a cron string with five columns denotes. -/
def Libraries.fiveColumns (L : Libraries) (m h dom mon dow : Text) :
    Option (LocalMinute → Prop) := do
  let minutes ← L.croniter .minute m
  let hours ← L.croniter .hour h
  let days ← L.croniter .dayOfMonth dom
  let months ← L.croniter .monthOfYear mon
  let weekdays ← L.croniter .dayOfWeek dow
  some fun t => t.minute ∈ minutes ∧ t.hour ∈ hours ∧ t.month ∈ months ∧
    if L.alternatives dom dow = true then t.day ∈ days ∨ t.weekday ∈ weekdays
    else t.day ∈ days ∧ t.weekday ∈ weekdays

/-- What a cron string denotes; `none` when `croniter` refuses it. -/
def Libraries.denotes (L : Libraries) (cron : Text) : Option (LocalMinute → Prop) :=
  match columns cron with
  | [m, h, dom, mon, dow] => L.fiveColumns m h dom mon dow
  | cols => L.others cols

/-- There is a cron string, it is accepted, and it denotes the minutes of the crontab. -/
def Faithful (L : Libraries) (cron : Option Text) (c : Crontab) : Prop :=
  ∃ P, cron.bind L.denotes = some P ∧ ∀ t, P t ↔ c.Matches L t

/-! ### When they agree -/

/-- A name that Unix cron knows too: three letters, in the field of the weekdays. -/
def Atom.Plain (slot : Slot) : Atom → Prop
  | number _ => True
  | word w => slot = .dayOfWeek ∧ lower w ∈ dayNames

def Part.Plain (slot : Slot) : Part → Prop
  | star | starStep _ => True
  | one a => a.Plain slot
  | span a b | spanStep a b _ => a.Plain slot ∧ b.Plain slot

/-- A range does not run backward. -/
def Part.Forward (slot : Slot) : Part → Prop
  | span a b | spanStep a b _ =>
    ∀ x y, celeryAtom slot a = some x → celeryAtom slot b = some y → x ≤ y
  | _ => True

namespace Crontab

variable (L : Libraries) (c : Crontab)

/-- Every field is a number or a text of cron's syntax, with names that Unix cron knows. -/
def Plain : Prop :=
  ∀ slot, ∃ parts, (c.field slot).parts = some parts ∧ ∀ p ∈ parts, p.Plain slot

/-- The texts are of cron's syntax. -/
def Regular : Prop := ∀ slot raw, c.field slot = .text raw → (readText raw).isSome = true

/-- No range runs backward. -/
def Forward : Prop :=
  ∀ slot parts, (c.field slot).parts = some parts → ∀ p ∈ parts, p.Forward slot

/-- The field does not let every day pass. -/
def LeavesOut (slot : Slot) : Prop := ∃ vs, c.values L slot = some vs ∧ slot.LeavesOut vs

/-- One of the day fields has `*` among its parts, or both let every day pass. Where one lets every
day pass without a `*`, it is for `croniter` to say whether it is restricted. -/
def DaysAgree : Prop :=
  c.dayOfMonth.Starred ∨ c.dayOfWeek.Starred ∨
  (¬ (c.LeavesOut L .dayOfMonth ∧ c.LeavesOut L .dayOfWeek) ∧
    L.alternatives c.dayOfMonth.column c.dayOfWeek.column = false) ∨
  ∃ days months weekdays, c.values L .dayOfMonth = some days ∧
    c.values L .monthOfYear = some months ∧ c.values L .dayOfWeek = some weekdays ∧
    (∀ w < 7, w ∈ weekdays) ∧ ∀ month ∈ months, ∀ day, 1 ≤ day → day ≤ longest month → day ∈ days

end Crontab

section Reading

variable {slot : Slot} {a b : Atom} {p : Part} {parts : List Part} {vs : List Nat} {x : Nat}
  {back : Nat → Nat → Option (List Nat)}

/-- A number passes the check of a field exactly if it is in the field's range. -/
theorem Slot.check_eq_some {n : Nat} : slot.check n = some x ↔ x = n ∧ slot.Holds n := by
  unfold Slot.check
  split <;> simp [*, eq_comm]

/-- A word that Celery takes is the name of a day. -/
theorem celeryAtom_word {w : List Char} (h : celeryAtom slot (.word w) = some x) :
    w.all Char.isAlpha = true ∧ dayNames.idxOf? ((lower w).take 3) = some x ∧ slot.Holds x := by
  simp only [celeryAtom, Option.ite_none_right_eq_some, Option.bind_eq_some_iff,
    Slot.check_eq_some] at h
  obtain ⟨halpha, y, hy, rfl, hholds⟩ := h
  exact ⟨halpha, hy, hholds⟩

/-- A plain number or name means the same to both. -/
theorem Atom.Plain.unix (ha : a.Plain slot) (h : celeryAtom slot a = some x) :
    unixAtom slot a = some x := by
  cases a with
  | number n => exact h
  | word w =>
    obtain ⟨rfl, hname⟩ := ha
    obtain ⟨_, hday, _⟩ := celeryAtom_word h
    have hlength : ∀ name ∈ dayNames, name.take 3 = name := by decide
    rw [hlength _ hname] at hday
    exact hday

/-- Unix cron refuses any other name that Celery reads. -/
theorem unixAtom_eq_none (ha : ¬ a.Plain slot) (h : celeryAtom slot a = some x) :
    unixAtom slot a = none := by
  cases a with
  | number n => exact absurd trivial ha
  | word w =>
    obtain ⟨_, hday, _⟩ := celeryAtom_word h
    have hmem : (lower w).take 3 ∈ dayNames := List.isSome_idxOf?.mp (Option.isSome_of_eq_some hday)
    cases slot with
    | minute | hour | dayOfMonth => rfl
    | dayOfWeek => exact List.idxOf?_eq_none_iff.mpr fun hname => ha ⟨rfl, hname⟩
    | monthOfYear =>
      have hdisjoint : ∀ name ∈ monthNames, name.take 3 ∉ dayNames := by decide
      have hnone : monthNames.idxOf? (lower w) = none :=
        List.idxOf?_eq_none_iff.mpr fun hname => hdisjoint _ hname hmem
      simp only [unixAtom, hnone, Option.map_none]

/-- Both ends of a range are read. -/
theorem ends_of_bind {atom : Atom → Option Nat} {f : Nat → Nat → Option (List Nat)}
    (h : ((atom a).bind fun x => (atom b).bind fun y => f x y) = some vs) :
    ∃ x y, atom a = some x ∧ atom b = some y ∧ f x y = some vs := by
  simp only [Option.bind_eq_some_iff] at h
  obtain ⟨x, hx, y, hy, hf⟩ := h
  exact ⟨x, y, hx, hy, hf⟩

/-- A range between plain ends that runs forward is the same to both. -/
theorem Part.Plain.ends {f g : Nat → Nat → Option (List Nat)} (ha : a.Plain slot) (hb : b.Plain slot)
    (h : ((celeryAtom slot a).bind fun x => (celeryAtom slot b).bind fun y => f x y) = some vs)
    (hforward : ∀ x y, celeryAtom slot a = some x → celeryAtom slot b = some y → x ≤ y)
    (hfg : ∀ x y, x ≤ y → f x y = g x y) :
    ((unixAtom slot a).bind fun x => (unixAtom slot b).bind fun y => g x y) = some vs := by
  obtain ⟨x, y, hx, hy, hf⟩ := ends_of_bind h
  rw [ha.unix hx, hb.unix hy, ← hf, hfg x y (hforward x y hx hy)]
  rfl

/-- A range is refused with either of its ends. -/
theorem unix_ends_eq_none {f g : Nat → Nat → Option (List Nat)}
    (hab : ¬ (a.Plain slot ∧ b.Plain slot))
    (h : ((celeryAtom slot a).bind fun x => (celeryAtom slot b).bind fun y => f x y) = some vs) :
    ((unixAtom slot a).bind fun x => (unixAtom slot b).bind fun y => g x y) = none := by
  obtain ⟨x, y, hx, hy, _⟩ := ends_of_bind h
  by_cases ha : a.Plain slot
  · rw [unixAtom_eq_none (fun hb => hab ⟨ha, hb⟩) hy, ha.unix hx]
    rfl
  · rw [unixAtom_eq_none ha hx]
    rfl

/-- A plain part that runs forward has the same values for croniter as for Celery. -/
theorem Part.Plain.unix (hp : p.Plain slot) (hforward : p.Forward slot)
    (h : p.values slot (celeryAtom slot) slot.wrap = some vs) :
    p.values slot (unixAtom slot) back = some vs := by
  have hthrough : ∀ x y, x ≤ y → through slot.wrap x y = through back x y := by
    intro x y hxy
    rw [through, through, if_pos hxy, if_pos hxy]
  cases p with
  | star | starStep n => exact h
  | one a =>
    obtain ⟨x, hx, hvs⟩ := Option.map_eq_some_iff.mp h
    rw [Part.values, hp.unix hx, ← hvs]
    rfl
  | span a b => exact Part.Plain.ends hp.1 hp.2 h hforward hthrough
  | spanStep a b n =>
    rw [Part.values] at h ⊢
    split at h
    · cases h
    · rename_i hn
      rw [if_neg hn]
      refine Part.Plain.ends hp.1 hp.2 h hforward fun x y hxy => ?_
      rw [hthrough x y hxy]

/-- A part that is not plain is refused by croniter. -/
theorem Part.unix_eq_none (hp : ¬ p.Plain slot)
    (h : p.values slot (celeryAtom slot) slot.wrap = some vs) :
    p.values slot (unixAtom slot) back = none := by
  cases p with
  | star | starStep n => exact absurd trivial hp
  | one a =>
    obtain ⟨x, hx, _⟩ := Option.map_eq_some_iff.mp h
    rw [Part.values, unixAtom_eq_none hp hx]
    rfl
  | span a b => exact unix_ends_eq_none hp h
  | spanStep a b n =>
    rw [Part.values] at h ⊢
    split at h
    · cases h
    · rename_i hn
      rw [if_neg hn]
      exact unix_ends_eq_none hp h

/-- All parts are read together. -/
theorem union_cons_eq_some {values : Part → Option (List Nat)}
    (h : union values (p :: parts) = some vs) :
    ∃ xs ys, values p = some xs ∧ union values parts = some ys ∧ vs = xs ++ ys := by
  simp only [union, Option.bind_eq_some_iff, Option.map_eq_some_iff] at h
  obtain ⟨xs, hxs, ys, hys, rfl⟩ := h
  exact ⟨xs, ys, hxs, hys, rfl⟩

private theorem union_unix (hplain : ∀ p ∈ parts, p.Plain slot) (hforward : ∀ p ∈ parts, p.Forward slot)
    (h : union (Part.values slot (celeryAtom slot) slot.wrap) parts = some vs) :
    union (Part.values slot (unixAtom slot) back) parts = some vs := by
  induction parts generalizing vs with
  | nil => exact h
  | cons p parts ih =>
    obtain ⟨xs, ys, hxs, hys, rfl⟩ := union_cons_eq_some h
    rw [union, (hplain p List.mem_cons_self).unix (hforward p List.mem_cons_self) hxs,
      ih (fun q hq => hplain q (List.mem_cons_of_mem p hq))
        (fun q hq => hforward q (List.mem_cons_of_mem p hq)) hys]
    rfl

private theorem union_unix_eq_none (hp : p ∈ parts) (hplain : ¬ p.Plain slot)
    (h : union (Part.values slot (celeryAtom slot) slot.wrap) parts = some vs) :
    union (Part.values slot (unixAtom slot) back) parts = none := by
  induction parts generalizing vs with
  | nil => cases hp
  | cons q parts ih =>
    obtain ⟨xs, ys, hxs, hys, rfl⟩ := union_cons_eq_some h
    rcases List.mem_cons.mp hp with rfl | hp
    · rw [union, Part.unix_eq_none hplain hxs]
      rfl
    · rw [union, ih hp hys]
      cases q.values slot (unixAtom slot) back <;> rfl

/-- A text with values is not empty, and its values are those of its parts. -/
theorem textValues_eq_some {values : Part → Option (List Nat)} (h : textValues values parts = some vs) :
    parts ≠ [] ∧ union values parts = some vs := by
  unfold textValues at h
  split at h
  · cases h
  · exact ⟨‹_›, h⟩

/-- Unix cron reads a text of plain parts as Celery does. -/
theorem unixText_of_plain {back : Slot → Nat → Nat → Option (List Nat)}
    (hplain : ∀ p ∈ parts, p.Plain slot) (hforward : ∀ p ∈ parts, p.Forward slot)
    (h : celeryText slot parts = some vs) : unixText back slot parts = some vs := by
  obtain ⟨hne, hunion⟩ := textValues_eq_some h
  rw [unixText, textValues, if_neg hne]
  exact union_unix hplain hforward hunion

/-- It refuses a text with a part that is not plain. -/
theorem unixText_eq_none {back : Slot → Nat → Nat → Option (List Nat)} (hp : p ∈ parts)
    (hplain : ¬ p.Plain slot) (h : celeryText slot parts = some vs) :
    unixText back slot parts = none := by
  obtain ⟨hne, hunion⟩ := textValues_eq_some h
  rw [unixText, textValues, if_neg hne]
  exact union_unix_eq_none hp hplain hunion

end Reading

/-! ### Values -/

section Values

variable {slot : Slot} {a b : Atom} {p : Part} {parts : List Part} {vs : List Nat} {x y : Nat}

/-- Some values of a field. -/
def Slot.HoldsAll (slot : Slot) (vs : List Nat) : Prop := vs ≠ [] ∧ ∀ v ∈ vs, slot.Holds v

/-- The range of a field is not empty. -/
theorem Slot.lo_le_hi (slot : Slot) : slot.lo ≤ slot.hi := by cases slot <;> decide

/-- A range between two values of a field stays in it. -/
theorem Slot.holdsAll_range (hx : slot.lo ≤ x) (hxy : x ≤ y) (hy : y ≤ slot.hi) :
    slot.HoldsAll (List.range' x (y + 1 - x)) := by
  refine ⟨?_, fun v hv => ?_⟩
  · rw [Ne, List.range'_eq_nil_iff]
    omega
  · rw [List.mem_range'_1] at hv
    exact ⟨by omega, by omega⟩

/-- All the values of a field are in its range. -/
theorem Slot.holdsAll_all (slot : Slot) : slot.HoldsAll slot.all :=
  Slot.holdsAll_range (Nat.le_refl _) slot.lo_le_hi (Nat.le_refl _)

private theorem mem_of_mem_everyNth {n k v : Nat} {xs : List Nat} (h : v ∈ everyNth n k xs) : v ∈ xs := by
  induction xs generalizing k with
  | nil => cases h
  | cons x xs ih =>
    cases k with
    | zero =>
      rcases List.mem_cons.mp h with rfl | h
      · exact List.mem_cons_self
      · exact List.mem_cons_of_mem _ (ih h)
    | succ k => exact List.mem_cons_of_mem _ (ih h)

/-- Every n-th of the values of a field is in its range. -/
theorem Slot.HoldsAll.everyNth {n : Nat} (h : slot.HoldsAll vs) : slot.HoldsAll (everyNth n 0 vs) := by
  refine ⟨?_, fun v hv => h.2 v (mem_of_mem_everyNth hv)⟩
  cases vs with
  | nil => exact absurd rfl h.1
  | cons x xs => exact List.cons_ne_nil _ _

/-- What Celery reads is in the range of the field. -/
theorem celeryAtom_holds (h : celeryAtom slot a = some x) : slot.Holds x := by
  cases a with
  | number n =>
    obtain ⟨rfl, hholds⟩ := Slot.check_eq_some.mp h
    exact hholds
  | word w => exact (celeryAtom_word h).2.2

/-- A range, wrapped or not, stays in the range of the field. -/
theorem through_holds (hx : slot.Holds x) (hy : slot.Holds y)
    (h : through slot.wrap x y = some vs) : slot.HoldsAll vs := by
  unfold through at h
  split at h
  · cases h
    exact Slot.holdsAll_range hx.1 ‹_› hy.2
  · cases h
    have hupper := Slot.holdsAll_range hx.1 hx.2 (Nat.le_refl slot.hi)
    have hlower := Slot.holdsAll_range (Nat.le_refl slot.lo) hy.1 hy.2
    refine ⟨List.append_ne_nil_of_left_ne_nil hupper.1 _, fun v hv => ?_⟩
    rcases List.mem_append.mp hv with hv | hv
    · exact hupper.2 v hv
    · exact hlower.2 v hv

/-- The values that Celery gives a part are in the range of the field. -/
theorem partValues_holds (h : p.values slot (celeryAtom slot) slot.wrap = some vs) :
    slot.HoldsAll vs := by
  cases p with
  | star =>
    cases h
    exact slot.holdsAll_all
  | starStep n =>
    rw [Part.values, Option.ite_none_left_eq_some] at h
    cases h.2
    exact slot.holdsAll_all.everyNth
  | one a =>
    obtain ⟨x, hx, rfl⟩ := Option.map_eq_some_iff.mp h
    refine ⟨List.cons_ne_nil _ _, fun v hv => ?_⟩
    rw [List.mem_singleton.mp hv]
    exact celeryAtom_holds hx
  | span a b =>
    obtain ⟨x, y, hx, hy, hf⟩ := ends_of_bind h
    exact through_holds (celeryAtom_holds hx) (celeryAtom_holds hy) hf
  | spanStep a b n =>
    rw [Part.values, Option.ite_none_left_eq_some] at h
    obtain ⟨x, y, hx, hy, hf⟩ := ends_of_bind h.2
    obtain ⟨ws, hws, rfl⟩ := Option.map_eq_some_iff.mp hf
    exact (through_holds (celeryAtom_holds hx) (celeryAtom_holds hy) hws).everyNth

/-- A text that Celery accepts stands for at least one value, and only for values of its field. -/
theorem celeryText_holds (h : celeryText slot parts = some vs) : slot.HoldsAll vs := by
  obtain ⟨hne, hunion⟩ := textValues_eq_some h
  have hall : ∀ v ∈ vs, slot.Holds v := by
    clear h hne
    induction parts generalizing vs with
    | nil =>
      cases hunion
      exact fun v hv => absurd hv List.not_mem_nil
    | cons p parts ih =>
      obtain ⟨xs, ys, hxs, hys, rfl⟩ := union_cons_eq_some hunion
      intro v hv
      rcases List.mem_append.mp hv with hv | hv
      · exact (partValues_holds hxs).2 v hv
      · exact ih hys v hv
  refine ⟨?_, hall⟩
  cases parts with
  | nil => exact absurd rfl hne
  | cons p parts =>
    obtain ⟨xs, ys, hxs, _, rfl⟩ := union_cons_eq_some hunion
    exact List.append_ne_nil_of_left_ne_nil (partValues_holds hxs).1 ys

end Values

/-! ### The cron string of a crontab -/

section Crontabs

variable {L : Libraries} {c : Crontab} {slot : Slot} {parts : List Part} {vs : List Nat}

/-- A collection prints with a bracket. -/
theorem exists_bracket (shape : Shape) (elems : List Nat) :
    ∃ c ∈ printIterable shape elems, c ∈ brackets := by
  cases shape with
  | list => exact ⟨'[', List.mem_cons_self, by decide⟩
  | tuple =>
    match elems with
    | [] => exact ⟨'(', List.mem_cons_self, by decide⟩
    | [n] => exact ⟨'(', List.mem_cons_self, by decide⟩
    | n :: m :: elems => exact ⟨'(', List.mem_cons_self, by decide⟩
  | set =>
    cases elems with
    | nil => exact ⟨'(', by decide, by decide⟩
    | cons n elems => exact ⟨'\x7b', List.mem_cons_self, by decide⟩
  | frozenset =>
    cases elems with
    | nil => exact ⟨'(', by decide, by decide⟩
    | cons n elems => exact ⟨'(', List.mem_append_left _ (List.mem_append_left _ (by decide)), by decide⟩

/-- What a field that is read as parts is printed as is read as them. -/
theorem readText_of_parts {f : Spec} (h : f.parts = some parts) : readText f.print = some parts := by
  cases f with
  | int n => exact h
  | text raw => exact h
  | iterable shape elems => cases h

/-- The values of a field are what Celery reads in its parts. -/
theorem values_of_parts (hL : L.Documented c) (h : (c.field slot).parts = some parts)
    (hvs : c.values L slot = some vs) : celeryText slot parts = some vs := by
  rw [Crontab.values] at hvs
  cases hf : c.field slot with
  | int n =>
    rw [hf] at h hvs
    obtain rfl : [.one (.number n)] = parts :=
      Option.some.inj ((readText_toDigits n).symm.trans h)
    dsimp only at hvs
    rw [celeryText, textValues, if_neg (List.cons_ne_nil _ _), union, Part.values, celeryAtom, hvs]
    simp [union]
  | text raw =>
    rw [hf] at h hvs
    exact hL.celery slot raw parts vs hf h hvs
  | iterable shape elems =>
    rw [hf] at h
    cases h

/-- Five columns are read, or the string is refused. -/
theorem fiveColumns_eq_some {m h dom mon dow : Text} {P : LocalMinute → Prop} :
    L.fiveColumns m h dom mon dow = some P ↔ ∃ minutes hours days months weekdays,
      L.croniter .minute m = some minutes ∧ L.croniter .hour h = some hours ∧
      L.croniter .dayOfMonth dom = some days ∧ L.croniter .monthOfYear mon = some months ∧
      L.croniter .dayOfWeek dow = some weekdays ∧
      P = fun t => t.minute ∈ minutes ∧ t.hour ∈ hours ∧ t.month ∈ months ∧
        if L.alternatives dom dow = true then t.day ∈ days ∨ t.weekday ∈ weekdays
        else t.day ∈ days ∧ t.weekday ∈ weekdays := by
  simp only [Libraries.fiveColumns, Option.bind_eq_bind, Option.bind_eq_some_iff, Option.some.injEq]
  constructor
  · rintro ⟨ms, hms, hs, hhs, ds, hds, mons, hmons, ws, hws, rfl⟩
    exact ⟨ms, hs, ds, mons, ws, hms, hhs, hds, hmons, hws, rfl⟩
  · rintro ⟨ms, hs, ds, mons, ws, hms, hhs, hds, hmons, hws, rfl⟩
    exact ⟨ms, hms, hs, hhs, ds, hds, mons, hmons, ws, hws, rfl⟩

/-- A bracket is no white space. -/
theorem bracket_not_space {x : Char} (h : x ∈ brackets) : Text.isSpace x = false := by
  simp only [brackets, List.mem_cons, List.not_mem_nil, or_false] at h
  rcases h with rfl | rfl | rfl <;> decide

/-- A string with a bracket is refused. -/
theorem denotes_bracket (hL : L.Documented c) {s : Text} {x : Char} (hx : x ∈ s)
    (hbracket : x ∈ brackets) : L.denotes s = none := by
  obtain ⟨col, hcol, hxcol⟩ := mem_columns hx (bracket_not_space hbracket)
  have hrefused : ∀ slot, L.croniter slot col = none :=
    fun slot => hL.column slot col ⟨x, hxcol, hbracket⟩
  unfold Libraries.denotes
  split
  · rename_i m h dom mon dow hcols
    rw [hcols] at hcol
    cases hfive : L.fiveColumns m h dom mon dow with
    | none => rfl
    | some P =>
      obtain ⟨_, _, _, _, _, hm, hh, hdom, hmon, hdow, _⟩ := fiveColumns_eq_some.mp hfive
      simp only [List.mem_cons, List.not_mem_nil, or_false] at hcol
      rcases hcol with rfl | rfl | rfl | rfl | rfl
      · exact absurd ((hrefused _).symm.trans hm) nofun
      · exact absurd ((hrefused _).symm.trans hh) nofun
      · exact absurd ((hrefused _).symm.trans hdom) nofun
      · exact absurd ((hrefused _).symm.trans hmon) nofun
      · exact absurd ((hrefused _).symm.trans hdow) nofun
  · exact hL.columns _ ⟨col, hcol, x, hxcol, hbracket⟩

private theorem mem_crontabToCronspec (slot : Slot) {x : Char} (hx : x ∈ (c.field slot).print) :
    x ∈ crontabToCronspec c := by
  simp only [crontabToCronspec, List.intercalate_cons_cons, List.intercalate_singleton,
    List.mem_append]
  cases slot with
  | minute => exact .inl (.inl hx)
  | hour => exact .inr (.inl (.inl hx))
  | dayOfMonth => exact .inr (.inr (.inl (.inl hx)))
  | monthOfYear => exact .inr (.inr (.inr (.inl (.inl hx))))
  | dayOfWeek => exact .inr (.inr (.inr (.inr hx)))

/-- A crontab with a collection in a field prints as no cron string. -/
theorem parts_of_denotes (hL : L.Documented c) (hregular : c.Regular) {P : LocalMinute → Prop}
    (h : L.denotes (crontabToCronspec c) = some P) (slot : Slot) :
    ∃ parts, (c.field slot).parts = some parts := by
  cases hf : c.field slot with
  | int n => exact ⟨_, readText_toDigits n⟩
  | text raw => exact Option.isSome_iff_exists.mp (hregular slot raw hf)
  | iterable shape elems =>
    obtain ⟨x, hx, hbracket⟩ := exists_bracket shape elems
    have hmem : x ∈ crontabToCronspec c := by
      refine mem_crontabToCronspec slot ?_
      rw [hf]
      exact hx
    rw [denotes_bracket hL hmem hbracket] at h
    cases h

/-- Otherwise its fields are the columns. -/
theorem denotes_of_parts (h : ∀ slot, ∃ parts, (c.field slot).parts = some parts) :
    L.denotes (crontabToCronspec c) = L.fiveColumns c.minute.column c.hour.column
      c.dayOfMonth.column c.monthOfYear.column c.dayOfWeek.column := by
  have hcolumn : ∀ slot, IsColumn (c.field slot).column := by
    intro slot
    obtain ⟨parts, hparts⟩ := h slot
    exact isColumn_text (readText_of_parts hparts)
  have hcols : ∀ f ∈ [c.minute.print, c.hour.print, c.dayOfMonth.print, c.monthOfYear.print,
      c.dayOfWeek.print], IsColumn (Text.strip f) := by
    simp only [List.forall_mem_cons, List.not_mem_nil, false_implies, implies_true, and_true]
    exact ⟨hcolumn .minute, hcolumn .hour, hcolumn .dayOfMonth, hcolumn .monthOfYear,
      hcolumn .dayOfWeek⟩
  rw [Libraries.denotes, crontabToCronspec, columns_intercalate hcols]
  rfl

/-- Fields that are plain and run forward are read alike. -/
theorem read_alike (hL : L.Documented c) (hc : c.Accepted L) (hplain : c.Plain)
    (hforward : c.Forward) (slot : Slot) : ∃ vs, c.values L slot = some vs ∧
      L.croniter slot (c.field slot).column = some vs ∧ slot.HoldsAll vs := by
  obtain ⟨back, hcroniter⟩ := hL.croniter
  obtain ⟨parts, hparts, hall⟩ := hplain slot
  obtain ⟨vs, hvs⟩ := Option.isSome_iff_exists.mp (hc slot)
  have htext := values_of_parts hL hparts hvs
  refine ⟨vs, hvs, ?_, celeryText_holds htext⟩
  rw [hcroniter slot parts hparts]
  exact unixText_of_plain hall (hforward slot parts hparts) htext

/-- A string that is accepted was printed from plain fields. -/
theorem plain_of_denotes (hL : L.Documented c) (hc : c.Accepted L) (hregular : c.Regular)
    {P : LocalMinute → Prop} (h : L.denotes (crontabToCronspec c) = some P) : c.Plain := by
  have hparts := parts_of_denotes hL hregular h
  rw [denotes_of_parts hparts] at h
  obtain ⟨_, _, _, _, _, hm, hh, hdom, hmon, hdow, _⟩ := fiveColumns_eq_some.mp h
  have hread : ∀ slot, L.croniter slot (c.field slot).column ≠ none := by
    intro slot
    cases slot with
    | minute => exact Option.ne_none_iff_exists'.mpr ⟨_, hm⟩
    | hour => exact Option.ne_none_iff_exists'.mpr ⟨_, hh⟩
    | dayOfMonth => exact Option.ne_none_iff_exists'.mpr ⟨_, hdom⟩
    | monthOfYear => exact Option.ne_none_iff_exists'.mpr ⟨_, hmon⟩
    | dayOfWeek => exact Option.ne_none_iff_exists'.mpr ⟨_, hdow⟩
  obtain ⟨back, hcroniter⟩ := hL.croniter
  intro slot
  obtain ⟨parts, hp⟩ := hparts slot
  refine ⟨parts, hp, fun p hmem => ?_⟩
  by_contra hnot
  obtain ⟨vs, hvs⟩ := Option.isSome_iff_exists.mp (hc slot)
  refine hread slot ?_
  rw [hcroniter slot parts hp]
  exact unixText_eq_none hmem hnot (values_of_parts hL hp hvs)

/-- When `croniter` wants both day columns to match. -/
theorem alternatives_eq_false_iff (hL : L.Documented c) (hc : c.Accepted L) (hplain : c.Plain)
    (hforward : c.Forward) : L.alternatives c.dayOfMonth.column c.dayOfWeek.column = false ↔
      c.dayOfMonth.Starred ∨ c.dayOfWeek.Starred ∨
      (¬ (c.LeavesOut L .dayOfMonth ∧ c.LeavesOut L .dayOfWeek) ∧
        L.alternatives c.dayOfMonth.column c.dayOfWeek.column = false) := by
  constructor
  · intro hboth
    by_cases hday : c.dayOfMonth.Starred
    · exact .inl hday
    by_cases hweekday : c.dayOfWeek.Starred
    · exact .inr (.inl hweekday)
    refine .inr (.inr ⟨?_, hboth⟩)
    rintro ⟨⟨days, hdays, hout⟩, weekdays, hweekdays, hout'⟩
    obtain ⟨_, hd, hd', _⟩ := read_alike hL hc hplain hforward .dayOfMonth
    obtain ⟨_, hw, hw', _⟩ := read_alike hL hc hplain hforward .dayOfWeek
    cases hd.symm.trans hdays
    cases hw.symm.trans hweekdays
    rw [hL.apart _ _ hday hweekday hd' hout hw' hout'] at hboth
    cases hboth
  · rintro (hday | hweekday | ⟨_, hboth⟩)
    · exact hL.together (.inl hday)
    · exact hL.together (.inr hweekday)
    · exact hboth

/-- Two restricted day columns say the same as alternatives and together only where both let
every day pass: any weekday falls on any day of a month. -/
theorem days_agree_iff (days : List Nat) {minutes hours months weekdays : List Nat}
    (hminutes : Slot.minute.HoldsAll minutes) (hhours : Slot.hour.HoldsAll hours)
    (hmonths : Slot.monthOfYear.HoldsAll months) (hweekdays : Slot.dayOfWeek.HoldsAll weekdays) :
    (∀ t : LocalMinute, t.minute ∈ minutes → t.hour ∈ hours → t.month ∈ months →
      (t.day ∈ days ∨ t.weekday ∈ weekdays) → t.day ∈ days ∧ t.weekday ∈ weekdays) ↔
    (∀ w < 7, w ∈ weekdays) ∧
      ∀ month ∈ months, ∀ day, 1 ≤ day → day ≤ longest month → day ∈ days := by
  constructor
  · intro h
    obtain ⟨minute, hminute⟩ := List.exists_mem_of_ne_nil _ hminutes.1
    obtain ⟨hour, hhour⟩ := List.exists_mem_of_ne_nil _ hhours.1
    have hpick : ∀ month ∈ months, ∀ day w, 1 ≤ day → day ≤ longest month → w < 7 →
        (day ∈ days ∨ w ∈ weekdays) → day ∈ days ∧ w ∈ weekdays := by
      intro month hmonth day w hday hday' hw hor
      obtain ⟨t, rfl, rfl, rfl, rfl, rfl⟩ := exists_minute (hmonths.2 month hmonth) ⟨hday, hday'⟩ hw
        (Nat.lt_succ_of_le (hhours.2 hour hhour).2) (Nat.lt_succ_of_le (hminutes.2 minute hminute).2)
      exact h t hminute hhour hmonth hor
    obtain ⟨w₀, hw₀⟩ := List.exists_mem_of_ne_nil _ hweekdays.1
    have hw₀' : w₀ < 7 := Nat.lt_succ_of_le (hweekdays.2 w₀ hw₀).2
    have hdays : ∀ month ∈ months, ∀ day, 1 ≤ day → day ≤ longest month → day ∈ days :=
      fun month hmonth day hday hday' => (hpick month hmonth day w₀ hday hday' hw₀' (.inr hw₀)).1
    refine ⟨fun w hw => ?_, hdays⟩
    obtain ⟨month, hmonth⟩ := List.exists_mem_of_ne_nil _ hmonths.1
    have hfirst : 1 ≤ longest month := by
      unfold longest monthLength
      split <;> decide
    exact (hpick month hmonth 1 w (Nat.le_refl 1) hfirst hw
      (.inl (hdays month hmonth 1 (Nat.le_refl 1) hfirst))).2
  · rintro ⟨hall, hdays⟩ t _ _ hmonth _
    have hlong := Nat.le_trans t.day_mem.2 (monthLength_le_longest t.year t.month)
    exact ⟨hdays t.month hmonth t.day t.day_mem.1 hlong, hall _ t.weekday_lt⟩

/-- Once the fields are read alike, all hangs on the days. -/
theorem faithful_iff_days (hL : L.Documented c) (hc : c.Accepted L) (hplain : c.Plain)
    (hforward : c.Forward) :
    Faithful L (some (crontabToCronspec c)) c ↔ c.DaysAgree L := by
  obtain ⟨minutes, hm, hm', hminutes⟩ := read_alike hL hc hplain hforward .minute
  obtain ⟨hours, hh, hh', hhours⟩ := read_alike hL hc hplain hforward .hour
  obtain ⟨days, hd, hd', _⟩ := read_alike hL hc hplain hforward .dayOfMonth
  obtain ⟨months, hmon, hmon', hmonths⟩ := read_alike hL hc hplain hforward .monthOfYear
  obtain ⟨weekdays, hw, hw', hweekdays⟩ := read_alike hL hc hplain hforward .dayOfWeek
  have hdenotes : L.denotes (crontabToCronspec c) = _ :=
    (denotes_of_parts fun slot => (hplain slot).imp fun _ h => h.1).trans
      (fiveColumns_eq_some.mpr ⟨_, _, _, _, _, hm', hh', hd', hmon', hw', rfl⟩)
  have hmatches : ∀ t, c.Matches L t ↔ t.minute ∈ minutes ∧ t.hour ∈ hours ∧ t.day ∈ days ∧
      t.month ∈ months ∧ t.weekday ∈ weekdays := by
    intro t
    simp only [Crontab.Matches, hm, hh, hd, hmon, hw, Option.some.injEq, exists_eq_left']
  have hfaithful : Faithful L (some (crontabToCronspec c)) c ↔ ∀ t : LocalMinute,
      (t.minute ∈ minutes ∧ t.hour ∈ hours ∧ t.month ∈ months ∧
        if L.alternatives c.dayOfMonth.column c.dayOfWeek.column = true then
          t.day ∈ days ∨ t.weekday ∈ weekdays else t.day ∈ days ∧ t.weekday ∈ weekdays) ↔
      t.minute ∈ minutes ∧ t.hour ∈ hours ∧ t.day ∈ days ∧ t.month ∈ months ∧
        t.weekday ∈ weekdays := by
    simp only [Faithful, Option.bind_some, hdenotes, Option.some.injEq, exists_eq_left', hmatches]
  have hboth := alternatives_eq_false_iff hL hc hplain hforward
  rw [hfaithful, Crontab.DaysAgree, ← or_assoc (a := c.dayOfWeek.Starred), ← or_assoc, ← hboth]
  cases hor : L.alternatives c.dayOfMonth.column c.dayOfWeek.column with
  | true =>
    simp only [if_true]
    have hdays := days_agree_iff days hminutes hhours hmonths hweekdays
    constructor
    · intro h
      refine .inr ⟨days, months, weekdays, hd, hmon, hw, hdays.mp fun t htm hth htmon hor => ?_⟩
      obtain ⟨_, _, htd, _, htw⟩ := (h t).mp ⟨htm, hth, htmon, hor⟩
      exact ⟨htd, htw⟩
    · rintro (hnot | ⟨_, _, _, hd₁, hmon₁, hw₁, hcover⟩)
      · cases hnot
      · cases hd.symm.trans hd₁
        cases hmon.symm.trans hmon₁
        cases hw.symm.trans hw₁
        intro t
        constructor
        · rintro ⟨htm, hth, htmon, hor⟩
          obtain ⟨htd, htw⟩ := hdays.mpr hcover t htm hth htmon hor
          exact ⟨htm, hth, htd, htmon, htw⟩
        · rintro ⟨htm, hth, htd, htmon, _⟩
          exact ⟨htm, hth, htmon, .inl htd⟩
  | false =>
    simp only [Bool.false_eq_true, if_false]
    refine iff_of_true (fun t => ?_) (.inl trivial)
    constructor
    · rintro ⟨htm, hth, htmon, htd, htw⟩
      exact ⟨htm, hth, htd, htmon, htw⟩
    · rintro ⟨htm, hth, htd, htmon, htw⟩
      exact ⟨htm, hth, htmon, htd, htw⟩

/-- When the cron string that a crontab is fanned out with means what the crontab means. It is
enough that every field is a number or a text of cron's syntax, that its names are three-letter
weekdays in the field of the weekdays, that its ranges run forward, and that the day fields agree.
Of the crontabs whose texts are of cron's syntax and whose ranges run forward no others will do. -/
theorem cronspec_faithful {α : Type} {entry : Entry α} {w : Wrapped α} {period : Nat}
    {fanoutPeriod grace : Option Nat} (hentry : entry.schedule = .crontab c)
    (hw : scopedSchedule true period entry "tenants" fanoutPeriod grace = .ok w)
    (hL : L.Documented c) (hc : c.Accepted L) :
    (c.Plain ∧ c.Forward ∧ c.DaysAgree L → Faithful L w.cron c) ∧
      (c.Regular → c.Forward → Faithful L w.cron c → c.Plain ∧ c.DaysAgree L) := by
  rw [cron_of_scopedSchedule hentry hw]
  refine ⟨?_, ?_⟩
  · rintro ⟨hplain, hforward, hdays⟩
    exact (faithful_iff_days hL hc hplain hforward).mpr hdays
  · intro hregular hforward hfaithful
    obtain ⟨P, hP, _⟩ := id hfaithful
    have hplain := plain_of_denotes hL hc hregular hP
    exact ⟨hplain, (faithful_iff_days hL hc hplain hforward).mp hfaithful⟩

end Crontabs

/-! ### Two crontabs -/

/-- Celery as far as cron's syntax goes, and Unix cron itself. -/
def Libraries.unix : Libraries where
  celery slot raw := (readText raw).bind (celeryText slot)
  croniter slot col := (readText col).bind (unixText (fun _ _ _ => none) slot)
  alternatives dom dow :=
    !((readText dom).any (·.contains .star) || (readText dow).any (·.contains .star))
  others _ := none

/-- Unix cron reads a column part by part. -/
theorem Libraries.unix_croniter {f : Spec} {slot : Slot} {parts : List Part}
    (h : f.parts = some parts) : Libraries.unix.croniter slot f.column =
      unixText (fun _ _ _ => none) slot parts := by
  rw [unix, Spec.column]
  dsimp only
  rw [readText_strip, readText_of_parts h]
  rfl

/-- A field is starred exactly if its column has a star. -/
theorem Spec.starred_iff {f : Spec} (h : f.parts = readText f.print) :
    f.Starred ↔ (readText f.column).any (·.contains .star) = true := by
  rw [Starred, h, column, readText_strip]
  cases readText f.print with
  | none => simp
  | some parts => simp

/-- Celery with Unix cron is as documented, where the two day fields read what they print. -/
theorem Libraries.unix_documented (c : Crontab)
    (hday : c.dayOfMonth.parts = readText c.dayOfMonth.print)
    (hweekday : c.dayOfWeek.parts = readText c.dayOfWeek.print) : Libraries.unix.Documented c where
  celery slot raw parts vs _ hread hvs := by
    rw [unix] at hvs
    dsimp only at hvs
    rwa [hread, Option.bind_some] at hvs
  croniter := ⟨fun _ _ _ => none, fun slot parts hparts => Libraries.unix_croniter hparts⟩
  together := by
    rw [Spec.starred_iff hday, Spec.starred_iff hweekday, unix, Bool.not_eq_false', Bool.or_eq_true]
    exact id
  apart days weekdays hd hw _ _ _ _ := by
    rw [Spec.starred_iff hday] at hd
    rw [Spec.starred_iff hweekday] at hw
    rw [unix, Bool.not_eq_true', Bool.or_eq_false_iff]
    exact ⟨eq_false_of_ne_true hd, eq_false_of_ne_true hw⟩
  column := by
    rintro slot col ⟨x, hx, hbracket⟩
    have hread : readText col = none := by
      refine Option.eq_none_iff_forall_ne_some.mpr fun parts hparts => ?_
      have hsyntax := isSyntax_text hparts (mem_strip hx (bracket_not_space hbracket))
      simp only [brackets, List.mem_cons, List.not_mem_nil, or_false] at hbracket
      rcases hbracket with rfl | rfl | rfl <;> rcases hsyntax with h | h | h <;>
        exact absurd h (by decide)
    rw [unix]
    dsimp only
    rw [hread]
    rfl
  columns _ _ := rfl

/-- `*`. -/
def Spec.every : Spec := .text ['*']

/-- Every day at eight. -/
def dailyAtEight : Crontab := ⟨.int 0, .int 8, .every, .every, .every⟩

/-- At midnight on the first of the month, if that is a Monday. -/
def firstMonday : Crontab := ⟨.int 0, .int 0, .int 1, .every, .int 1⟩

example : crontabToCronspec dailyAtEight = "0 8 * * *".toList := by decide

/-- Blanks around a text are of no account; blanks inside it are not of cron's syntax, and make
columns of their own. -/
example : readText [' ', '0', ',', '3', '0'] = some [.one (.number 0), .one (.number 30)] ∧
    readText ['0', ',', ' ', '3', '0'] = none ∧
    (columns (crontabToCronspec ⟨.text ['0', ',', ' ', '3', '0'], .int 8, .every, .every,
      .every⟩)).length = 6 := by decide

/-- A beat entry with that schedule. -/
def scheduled (c : Crontab) : Entry Unit := ⟨"cars.tasks.report", .crontab c, none, none, none⟩

/-- What it is fanned out as. -/
def fannedOut (c : Crontab) : Wrapped Unit :=
  .fanout (.interval 60) "cars.tasks.report" "tenants" none none none (some (crontabToCronspec c)) none

/-- A crontab of plain single parts. -/
private theorem plain_forward_of_single {c : Crontab}
    (h : ∀ slot, ∃ p, (c.field slot).parts = some [p] ∧ p.Plain slot ∧ p.Forward slot) :
    c.Plain ∧ c.Forward := by
  refine ⟨fun slot => ?_, fun slot parts hparts q hq => ?_⟩
  · obtain ⟨p, hp, hplain, _⟩ := h slot
    refine ⟨_, hp, fun q hq => ?_⟩
    rw [List.mem_singleton.mp hq]
    exact hplain
  · obtain ⟨p, hp, _, hforward⟩ := h slot
    obtain rfl := Option.some.inj (hp.symm.trans hparts)
    rw [List.mem_singleton.mp hq]
    exact hforward

/-- A schedule every day at eight is accepted, and its cron means the same. -/
theorem cronspec_faithful_daily :
    scopedSchedule true 60 (scheduled dailyAtEight) "tenants" none none =
      .ok (fannedOut dailyAtEight) ∧ dailyAtEight.Accepted Libraries.unix ∧
      Faithful Libraries.unix (fannedOut dailyAtEight).cron dailyAtEight := by
  have hc : dailyAtEight.Accepted Libraries.unix := fun slot => by cases slot <;> decide
  have hw : scopedSchedule true 60 (scheduled dailyAtEight) "tenants" none none =
      .ok (fannedOut dailyAtEight) := rfl
  have hfields : dailyAtEight.Plain ∧ dailyAtEight.Forward :=
    plain_forward_of_single fun slot => by cases slot <;> exact ⟨_, rfl, trivial, trivial⟩
  exact ⟨hw, hc, (cronspec_faithful rfl hw (Libraries.unix_documented _ rfl rfl) hc).1
    ⟨hfields.1, hfields.2, .inl ⟨_, rfl, List.mem_cons_self⟩⟩⟩

/-- The crontab asks for the first of a month that is a Monday, the cron string for the first of
every month and for every Monday. -/
theorem first_monday_differs :
    scopedSchedule true 60 (scheduled firstMonday) "tenants" none none =
      .ok (fannedOut firstMonday) ∧ Libraries.unix.Documented firstMonday ∧
      firstMonday.Accepted Libraries.unix ∧
      ¬ Faithful Libraries.unix (fannedOut firstMonday).cron firstMonday := by
  have hL : Libraries.unix.Documented firstMonday := Libraries.unix_documented _ rfl rfl
  have hc : firstMonday.Accepted Libraries.unix := fun slot => by cases slot <;> decide
  have hfields : firstMonday.Plain ∧ firstMonday.Forward :=
    plain_forward_of_single fun slot => by cases slot <;> exact ⟨_, rfl, trivial, trivial⟩
  refine ⟨rfl, hL, hc, fun hfaithful => ?_⟩
  have hunstarred : ¬ (Spec.int 1).Starred := by
    rintro ⟨parts, hparts, hmem⟩
    obtain rfl := Option.some.inj ((readText_toDigits 1).symm.trans hparts)
    cases List.mem_singleton.mp hmem
  rcases (faithful_iff_days hL hc hfields.1 hfields.2).mp hfaithful with
    hday | hweekday | ⟨_, hboth⟩ | hcover
  · exact hunstarred hday
  · exact hunstarred hweekday
  · exact absurd hboth (by decide)
  · obtain ⟨_, _, weekdays, _, _, hw, hall, _⟩ := hcover
    have hmonday : firstMonday.values Libraries.unix .dayOfWeek = some [1] := by decide
    cases hmonday.symm.trans hw
    exact absurd (hall 0 (by decide)) (by decide)

end MtShards.Beat
