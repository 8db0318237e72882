import MtShards.Core.Links

/-!
# Connection errors

`is_conn_error` reads the exceptions that hang together by `__cause__` and `__context__`: the
driver's own, Django's wrappers around them and any other. It decides whether a tenant stays
resumable or is marked FAILED. A link is asked for the first SQLSTATE on the rest of the
chain, so that a dropped connection can be hidden by the error it was raised over.
-/

namespace MtShards.Migrator

open MtShards.Core

/-- The classes of PEP 249 that `_CONN_ERROR_CLASSES` tells from the others. -/
inductive DbClass
  | operational
  | interface
  | other
  deriving DecidableEq, Repr

/-- An exception object, with what `_chain` and `_sqlstate` read of it. Wrappers and exceptions
of other kinds have no attribute `sqlstate` or `pgcode`. -/
inductive Exc (α : Type)
  /-- Raised by psycopg (`sqlstate`) or psycopg2 (`pgcode`). -/
  | driver (cls : DbClass) (sqlstate pgcode : Option String) (cause context : Option α)
  /-- Raised by Django from the driver's exception. -/
  | wrapper (cls : DbClass) (cause : α) (context : Option α)
  | other (cause context : Option α)
  deriving DecidableEq, Repr

/-- `e.__cause__ or e.__context__`. -/
def Exc.next {α : Type} : Exc α → Option α
  | driver _ _ _ cause context => cause.or context
  | wrapper _ cause _ => some cause
  | other cause context => cause.or context

/-- `getattr(x, "sqlstate", None) or getattr(x, "pgcode", None)`; the empty string is no code. -/
def Exc.own {α : Type} : Exc α → Option String
  | driver _ sqlstate pgcode _ _ => (sqlstate.filter (· ≠ "")).or (pgcode.filter (· ≠ ""))
  | _ => none

/-- `isinstance(x, _CONN_ERROR_CLASSES)`: Django's two classes and the driver's. -/
def Exc.isConnClass {α : Type} : Exc α → Bool
  | driver cls _ _ _ _ | wrapper cls _ _ => cls ≠ .other
  | other _ _ => false

/-- Whether the exception is the driver's. -/
def Exc.isDriver {α : Type} : Exc α → Bool
  | driver .. => true
  | _ => false

/-- The exception objects that are alive. Django wraps a driver's exception in the wrapper of
the same class. -/
structure Excs (α : Type) where
  obj : α → Exc α
  wraps : ∀ w cls d context, obj w = .wrapper cls d context →
    ∃ sqlstate pgcode cause context', obj d = .driver cls sqlstate pgcode cause context'

/-- `_CONN_SQLSTATES`. -/
def connSqlstates : List String := ["57P01", "57P02", "57P03", "57P05", "25P03"]

/-- `code.startswith("08") or code in _CONN_SQLSTATES`. -/
def isConnSqlstate (code : String) : Bool :=
  "08".toList.isPrefixOf code.toList || connSqlstates.contains code

namespace Excs

variable {α : Type} [DecidableEq α] (h : Excs α)

/-- The next link of the chain. -/
def next (x : α) : Option α := (h.obj x).next

/-- The exception's own SQLSTATE. -/
def own (x : α) : Option String := (h.obj x).own

/-- `_sqlstate`. -/
def sqlstate (fuel : Nat) (e : α) : Option (Option String) :=
  (walk h.next fuel [] (some e)).map (List.findSome? h.own)

/-- The body of the loop of `is_conn_error`: whether it returns at `x`. -/
def isConnLink (fuel : Nat) (x : α) : Option Bool :=
  if (h.own x).any isConnSqlstate then some true
  else if (h.obj x).isConnClass then (h.sqlstate fuel x).map (Option.all isConnSqlstate)
  else some false

/-- `is_conn_error`; `none` when the fuel does not suffice. -/
def isConnError (fuel : Nat) (e : α) : Option Bool := do
  let links ← walk h.next fuel [] (some e)
  links.anyM (h.isConnLink fuel)

variable [Fintype α]

/-- `is_conn_error(e)` terminates with the answer `b`. -/
def Answers (e : α) (b : Bool) : Prop :=
  ∀ fuel, Fintype.card α ≤ fuel → h.isConnError fuel e = some b

/-- A driver's `OperationalError` or `InterfaceError` without an SQLSTATE: the connection
failed, or its socket was dropped. -/
def Dropped (x : α) : Prop :=
  (h.obj x).isDriver = true ∧ (h.obj x).isConnClass = true ∧ h.own x = none

/-- A driver's exception that is a connection loss, by what it says of itself. -/
def ConnLoss (x : α) : Prop :=
  (h.obj x).isDriver = true ∧ (h.own x).any isConnSqlstate = true ∨ h.Dropped x

/-- A dropped connection is hidden: every one on the chain was raised over an exception with an
SQLSTATE, and no SQLSTATE of the chain is one of a connection error. -/
def Masked (e : α) : Prop :=
  (∀ x, Reaches h.next e x → (h.own x).any isConnSqlstate = false) ∧
    (∃ x, Reaches h.next e x ∧ h.Dropped x) ∧
    ∀ x, Reaches h.next e x → h.Dropped x → ∃ y, Reaches h.next x y ∧ (h.own y).isSome = true

/-! ### What the functions answer -/

omit [DecidableEq α] [Fintype α] in
theorem isDriver_of_own {x : α} (hx : (h.own x).isSome = true) : (h.obj x).isDriver = true := by
  unfold own at hx
  cases hobj : h.obj x with
  | driver => rfl
  | wrapper => simp [hobj, Exc.own] at hx
  | other => simp [hobj, Exc.own] at hx

/-- `_sqlstate` terminates. -/
theorem sqlstate_eq {fuel : Nat} (hfuel : Fintype.card α ≤ fuel) (e : α) :
    h.sqlstate fuel e = some ((chain h.next e).findSome? h.own) := by
  rw [sqlstate, walk_eq_chain h.next e hfuel, Option.map_some]

/-- No SQLSTATE is found exactly where no link has one. -/
theorem findSome_own_eq_none {e : α} :
    (chain h.next e).findSome? h.own = none ↔ ∀ x, Reaches h.next e x → h.own x = none := by
  rw [List.findSome?_eq_none_iff]
  simp only [mem_chain]

/-- What makes the loop of `is_conn_error` return `True` at `x`. -/
def ConnLink (x : α) : Prop :=
  (h.own x).any isConnSqlstate = true ∨
    (h.obj x).isConnClass = true ∧
      ((chain h.next x).findSome? h.own).all isConnSqlstate = true

instance (x : α) : Decidable (h.ConnLink x) := inferInstanceAs (Decidable (_ ∨ _))

private theorem isConnLink_eq {fuel : Nat} (hfuel : Fintype.card α ≤ fuel) (x : α) :
    h.isConnLink fuel x = some (decide (h.ConnLink x)) := by
  unfold isConnLink ConnLink
  by_cases hown : (h.own x).any isConnSqlstate = true
  · simp [hown]
  · by_cases hcls : (h.obj x).isConnClass = true
    · rw [if_neg hown, if_pos hcls, h.sqlstate_eq hfuel x]
      simp [hown, hcls]
    · simp [hown, hcls]

/-- `is_conn_error` terminates, and is true when the loop stops at some link. -/
theorem isConnError_eq {fuel : Nat} (hfuel : Fintype.card α ≤ fuel) (e : α) :
    h.isConnError fuel e = some ((chain h.next e).any (fun x => decide (h.ConnLink x))) := by
  have hany : ∀ links : List α, links.anyM (h.isConnLink fuel) =
      some (links.any (fun x => decide (h.ConnLink x))) := by
    intro links
    induction links with
    | nil => rfl
    | cons x links ih =>
      rw [List.anyM, h.isConnLink_eq hfuel x, List.any_cons]
      by_cases hx : h.ConnLink x
      · simp [hx]
      · simp [hx, ih]
  rw [isConnError, walk_eq_chain h.next e hfuel]
  exact hany (chain h.next e)

private theorem answers_iff {e : α} {b : Bool} :
    h.Answers e b ↔ (b = true ↔ ∃ x, Reaches h.next e x ∧ h.ConnLink x) := by
  have hany : ((chain h.next e).any (fun x => decide (h.ConnLink x)) = true) ↔
      ∃ x, Reaches h.next e x ∧ h.ConnLink x := by
    simp only [List.any_eq_true, mem_chain, decide_eq_true_eq]
  constructor
  · intro hb
    have heq := hb _ (Nat.le_refl _)
    rw [h.isConnError_eq (Nat.le_refl _)] at heq
    rw [← Option.some.inj heq]
    exact hany
  · intro hb fuel hfuel
    rw [h.isConnError_eq hfuel]
    congr 1
    rw [Bool.eq_iff_iff]
    exact hany.trans hb.symm

/-! ### The answer by the links alone -/

/-- What `is_conn_error` finds: a connection SQLSTATE, or a dropped connection behind which no
exception has an SQLSTATE. -/
def Shown (e : α) : Prop :=
  (∃ x, Reaches h.next e x ∧ (h.own x).any isConnSqlstate = true) ∨
    ∃ x, Reaches h.next e x ∧ h.Dropped x ∧ ∀ y, Reaches h.next x y → h.own y = none

omit [DecidableEq α] [Fintype α] in
/-- A link of a connection class with nothing but links without an SQLSTATE from it on is a
dropped connection, or wraps one. -/
theorem dropped_of_isConnClass {x : α} (hcls : (h.obj x).isConnClass = true)
    (hnone : ∀ y, Reaches h.next x y → h.own y = none) :
    ∃ d, Reaches h.next x d ∧ h.Dropped d := by
  cases hobj : h.obj x with
  | driver cls sqlstate pgcode cause context =>
    refine ⟨x, .refl, ?_, hcls, hnone x .refl⟩
    rw [hobj]
    rfl
  | wrapper cls d context =>
    have hlink : Reaches h.next x d := by
      apply Relation.ReflTransGen.single
      rw [next, hobj]
      rfl
    obtain ⟨sqlstate, pgcode, cause, context', hd⟩ := h.wraps x cls d context hobj
    refine ⟨d, hlink, ?_, ?_, hnone d hlink⟩
    · rw [hd]
      rfl
    · rw [hobj] at hcls
      rw [hd]
      exact hcls
  | other cause context =>
    rw [hobj] at hcls
    cases hcls

private theorem connLink_shown {x : α} (hx : h.ConnLink x) : h.Shown x := by
  rcases hx with hown | ⟨hcls, hall⟩
  · exact .inl ⟨x, .refl, hown⟩
  · cases hcode : (chain h.next x).findSome? h.own with
    | none =>
      have hnone := h.findSome_own_eq_none.mp hcode
      obtain ⟨d, hd, hdropped⟩ := h.dropped_of_isConnClass hcls hnone
      exact .inr ⟨d, hd, hdropped, fun y hy => hnone y (hd.trans hy)⟩
    | some code =>
      obtain ⟨y, hy, hown⟩ := List.exists_of_findSome?_eq_some hcode
      rw [hcode] at hall
      refine .inl ⟨y, (mem_chain h.next).mp hy, ?_⟩
      rw [hown]
      exact hall

private theorem exists_connLink_iff {e : α} :
    (∃ x, Reaches h.next e x ∧ h.ConnLink x) ↔ h.Shown e := by
  constructor
  · rintro ⟨x, hx, hlink⟩
    rcases h.connLink_shown hlink with ⟨y, hy, hown⟩ | ⟨d, hd, hdropped, hnone⟩
    · exact .inl ⟨y, hx.trans hy, hown⟩
    · exact .inr ⟨d, hx.trans hd, hdropped, hnone⟩
  · rintro (⟨x, hx, hown⟩ | ⟨d, hd, hdropped, hnone⟩)
    · exact ⟨x, hx, .inl hown⟩
    · refine ⟨d, hd, .inr ⟨hdropped.2.1, ?_⟩⟩
      rw [h.findSome_own_eq_none.mpr hnone]
      rfl

/-- `is_conn_error` terminates on every chain; the answer is `Shown`. -/
theorem answers_iff_shown {e : α} {b : Bool} : h.Answers e b ↔ (b = true ↔ h.Shown e) := by
  rw [answers_iff, exists_connLink_iff]

omit [DecidableEq α] [Fintype α] in
/-- A connection loss on the chain is found unless it is masked. -/
theorem loss_iff {e : α} :
    (∃ x, Reaches h.next e x ∧ h.ConnLoss x) ↔ h.Shown e ∨ h.Masked e := by
  constructor
  · rintro ⟨x, hx, hloss⟩
    by_cases hshown : h.Shown e
    · exact .inl hshown
    · have hquiet : ∀ y, Reaches h.next e y → (h.own y).any isConnSqlstate = false := by
        intro y hy
        exact Bool.eq_false_iff.mpr fun hown => hshown (.inl ⟨y, hy, hown⟩)
      have hdropped : h.Dropped x := by
        rcases hloss with ⟨-, hown⟩ | hdropped
        · rw [hquiet x hx] at hown
          cases hown
        · exact hdropped
      refine .inr ⟨hquiet, ⟨x, hx, hdropped⟩, ?_⟩
      intro d hd hddropped
      by_contra hno
      refine hshown (.inr ⟨d, hd, hddropped, fun y hy => ?_⟩)
      exact Option.not_isSome_iff_eq_none.mp fun hsome => hno ⟨y, hy, hsome⟩
  · rintro ((⟨x, hx, hown⟩ | ⟨d, hd, hdropped, -⟩) | ⟨-, ⟨d, hd, hdropped⟩, -⟩)
    · have hsome : (h.own x).isSome = true := by
        cases hcode : h.own x with
        | none => simp [hcode] at hown
        | some code => rfl
      exact ⟨x, hx, .inl ⟨h.isDriver_of_own hsome, hown⟩⟩
    · exact ⟨d, hd, .inr hdropped⟩
    · exact ⟨d, hd, .inr hdropped⟩

omit [DecidableEq α] [Fintype α] in
theorem Masked.not_shown {h : Excs α} {e : α} (hm : h.Masked e) : ¬ h.Shown e := by
  obtain ⟨hquiet, -, hover⟩ := hm
  rintro (⟨x, hx, hown⟩ | ⟨d, hd, hdropped, hnone⟩)
  · rw [hquiet x hx] at hown
    cases hown
  · obtain ⟨y, hy, hsome⟩ := hover d hd hdropped
    rw [hnone y hy] at hsome
    cases hsome

omit [DecidableEq α] [Fintype α] in
/-- An exception that leads to `e` shows what `e` showed, while nothing on the chain of `e`
changes. -/
theorem Shown.raised {h h' : Excs α} {e w : α} (hs : h.Shown e) (hw : h'.next w = some e)
    (hsame : ∀ x, Reaches h.next e x → h'.obj x = h.obj x) : h'.Shown w := by
  have hnext : ∀ x, Reaches h.next e x → ∀ z, Reaches h.next x z → h'.next z = h.next z := by
    intro x hx z hz
    rw [next, hsame z (hx.trans hz), next]
  have hown : ∀ x, Reaches h.next e x → h'.own x = h.own x := by
    intro x hx
    rw [own, hsame x hx, own]
  have hfrom : ∀ x, Reaches h.next e x → Reaches h'.next w x := by
    intro x hx
    exact .head hw ((Reaches.congr (hnext e .refl)).mpr hx)
  rcases hs with ⟨x, hx, hstate⟩ | ⟨d, hd, hdropped, hnone⟩
  · refine .inl ⟨x, hfrom x hx, ?_⟩
    rw [hown x hx]
    exact hstate
  · refine .inr ⟨d, hfrom d hd, ?_, ?_⟩
    · rw [Dropped, hsame d hd, hown d hd]
      exact hdropped
    · intro y hy
      have hy := (Reaches.congr (hnext d hd)).mp hy
      rw [hown y (hd.trans hy)]
      exact hnone y hy

omit [DecidableEq α] [Fintype α] in
private theorem not_shown_of_timeouts {e : α}
    (hd : ∀ d, Reaches h.next e d → (h.obj d).isDriver = true →
      h.own d = some "55P03" ∨ h.own d = some "57014") : ¬ h.Shown e := by
  have hquiet : isConnSqlstate "55P03" = false ∧ isConnSqlstate "57014" = false := by decide
  rintro (⟨x, hx, hown⟩ | ⟨d, hreach, ⟨hdriver, -, hnone⟩, -⟩)
  · cases hcode : h.own x with
    | none => simp [hcode] at hown
    | some code =>
      have hdriver : (h.obj x).isDriver = true := h.isDriver_of_own (by rw [hcode]; rfl)
      rcases hd x hx hdriver with h5 | h5
      · simp [h5, hquiet.1] at hown
      · simp [h5, hquiet.2] at hown
  · rcases hd d hreach hdriver with h5 | h5
    · rw [hnone] at h5
      cases h5
    · rw [hnone] at h5
      cases h5

/-! ### The classification -/

/-- `is_conn_error` classifies the chain of `e`. -/
structure Classified (e : α) : Prop where
  /-- It terminates, and is true just when the chain has a connection loss. -/
  exact : ∃ b, h.Answers e b ∧ (b = true ↔ ∃ x, Reaches h.next e x ∧ h.ConnLoss x)
  /-- A wrapper around `e`, or an exception raised from it or while it is handled, is a
  connection error if `e` is. -/
  raised : ∀ (h' : Excs α) (w : α), h'.next w = some e →
    (∀ x, Reaches h.next e x → h'.obj x = h.obj x) → h.Answers e true → h'.Answers w true
  /-- Lock timeouts and statement cancels are no connection errors. -/
  timeouts : (∀ d, Reaches h.next e d → (h.obj d).isDriver = true →
    h.own d = some "55P03" ∨ h.own d = some "57014") → h.Answers e false

/-- The chain of `e` is classified exactly when no dropped connection on it is masked. -/
theorem classified_iff_not_masked (e : α) : h.Classified e ↔ ¬ h.Masked e := by
  constructor
  · rintro ⟨⟨b, hb, hloss⟩, -, -⟩ hm
    have hshown : b = true ↔ h.Shown e := h.answers_iff_shown.mp hb
    exact hm.not_shown (hshown.mp (hloss.mpr (h.loss_iff.mpr (.inr hm))))
  · intro hm
    refine ⟨?_, ?_, ?_⟩
    · refine ⟨(chain h.next e).any (fun x => decide (h.ConnLink x)),
        fun fuel hfuel => h.isConnError_eq hfuel e, ?_⟩
      have hshown : _ ↔ h.Shown e :=
        h.answers_iff_shown.mp fun fuel hfuel => h.isConnError_eq hfuel e
      rw [hshown, loss_iff]
      exact ⟨.inl, fun hor => hor.resolve_right hm⟩
    · intro h' w hw hsame hyes
      have hshown : h.Shown e := (h.answers_iff_shown.mp hyes).mp rfl
      exact h'.answers_iff_shown.mpr ⟨fun _ => hshown.raised hw hsame, fun _ => rfl⟩
    · intro hd
      exact h.answers_iff_shown.mpr ⟨nofun, fun hs => absurd hs (h.not_shown_of_timeouts hd)⟩

end Excs

/-- The socket is dropped while a lock timeout is handled: 3 is the driver's lock timeout and 2
Django's wrapper around it; 1 is the driver's error about the socket, raised while 2 is handled,
and 0 its wrapper. -/
def dropInTimeout : Excs (Fin 4) where
  obj
    | 0 => .wrapper .operational 1 (some 1)
    | 1 => .driver .operational none none none (some 2)
    | 2 => .wrapper .operational 3 (some 3)
    | 3 => .driver .operational (some "55P03") none none none
  wraps w cls d context hw := by
    match w with
    | 0 => cases hw; exact ⟨_, _, _, _, rfl⟩
    | 1 => cases hw
    | 2 => cases hw; exact ⟨_, _, _, _, rfl⟩
    | 3 => cases hw

/-- The lost connection is on the chain, and `is_conn_error` answers `False`. -/
theorem dropInTimeout_unseen :
    (Reaches dropInTimeout.next 0 1 ∧ dropInTimeout.ConnLoss 1) ∧ dropInTimeout.Answers 0 false ∧
      ¬ dropInTimeout.Classified 0 := by
  have hloss : Reaches dropInTimeout.next 0 1 ∧ dropInTimeout.ConnLoss 1 :=
    ⟨.single rfl, .inr ⟨rfl, rfl, rfl⟩⟩
  have hno : dropInTimeout.Answers 0 false := by
    intro fuel hfuel
    rw [dropInTimeout.isConnError_eq hfuel]
    decide
  refine ⟨hloss, hno, ?_⟩
  rintro ⟨⟨b, hb, hiff⟩, -, -⟩
  have heq := (hb 4 (Nat.le_refl 4)).symm.trans (hno 4 (Nat.le_refl 4))
  rw [Option.some.inj heq] at hiff
  exact absurd (hiff.mpr ⟨1, hloss⟩) Bool.false_ne_true

end MtShards.Migrator
