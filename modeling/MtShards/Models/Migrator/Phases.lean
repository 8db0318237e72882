import MtShards.Models.Migrator.Protocol

/-!
# How the phase of a process changes

One inversion lemma: what an answer does to the phase of its process. A process comes to stand
before an upsert only by a session check that found nothing, it becomes a leaseholder only by
an upsert that won, and it comes to know a status only by reading or writing it.
-/

namespace MtShards.Migrator

open MtShards.Core

/-- The label of a step of the system. -/
abbrev SysLabel := Label Pid Req Req.Ans Exn

variable {maint : Bool} {φ : Phase} {k pk : Pk} {p q : Pid} {t : SysTrace} {s s' : World}
  {l : SysLabel} {a b x : Status}

/-- An answer that tells `p` the status of the tenant: a row it has read, or a status write of
its own that was carried out. -/
def Tells (p : Pid) (pk : Pk) (a : Status) (l : SysLabel) : Prop :=
  (∃ row, l = .answer p (.load pk) (.ok (some row)) ∧ row.status = a) ∨
    ∃ expected w, l = .answer p (.fencedCas pk expected w) (.ok true) ∧ w.status = a

/-- Who is told something acts. -/
theorem Tells.actor (h : Tells p pk a l) : l.actor = some p := by
  rcases h with ⟨_, rfl, _⟩ | ⟨_, _, rfl, _⟩ <;> rfl

/-- Phases without a session check, a lease or a status move. -/
def Phase.plain : Phase → Bool
  | .out | .bystander | .tx | .lost | .inserted _ | .free _ | .doomed | .written _ none => true
  | _ => false

/-- What an answer leads to. -/
inductive Phase.Next (p : Pid) (φ : Phase) : SysLabel → Phase → Prop
  | plain {l : SysLabel} {ψ : Phase} (h : ψ.plain = true) : Next p φ l ψ
  | checked (k : Pk) (a : Alias) (h : φ = .out) :
    Next p φ (.answer p (.shard a (.sessionActive k)) (.ok none)) (.checked k a)
  | acquired (k : Pk) (a : Alias) (h : φ = .checked k a) :
    Next p φ (.answer p (.leaseUpsert k) (.ok true)) (.leased k .unread)
  | told {l : SysLabel} (k : Pk) (seen : Seen) (x : Status) (h : φ = .leased k seen)
    (tells : Tells p k x l) : Next p φ l (.leased k (.read x))
  | kept {l : SysLabel} (k : Pk) (seen : Seen) (h : φ = .leased k seen)
    (silent : ∀ x, ¬ Tells p k x l) : Next p φ l (.leased k seen)
  | cutOff {l : SysLabel} (k : Pk) (seen : Seen) (h : φ = .leased k seen) :
    Next p φ l (.leased k .unknown)
  | moved (pk : Pk) (old dest : Status) (h : φ = .tx ∨ φ = .free pk) :
    Next p φ (.answer p (.adminUpdate pk old dest) (.ok true)) (.written pk (some (old, dest)))
  | saved {l : SysLabel} (pk : Pk) (move : Status × Status) (h : φ = .written pk (some move)) :
    Next p φ l (.written pk (some move))

section Answers

variable {op : Req} {r : Except Exn op.Ans}

/-- The ways out of the phase outside. -/
theorem Phase.outNext_cases (p : Pid) :
    Phase.Next p .out (.answer p op r) (Phase.outNext op r) := by
  unfold Phase.outNext
  split
  · rename_i busy
    cases busy with
    | none => exact .checked _ _ rfl
    | some b => exact .plain rfl
  all_goals exact .plain rfl

/-- The ways out of the phase after the session check. -/
theorem Phase.checkedNext_cases (p : Pid) {a : Alias} (hp : op = .leaseUpsert k) :
    Phase.Next p (.checked k a) (.answer p op r) (Phase.checkedNext k op r) := by
  subst hp
  match r with
  | .ok true => exact .acquired k a rfl
  | .ok false => exact .plain rfl
  | .error e => exact .plain rfl

/-- What an answer to a leaseholder tells it: the status, or nothing about it. -/
theorem Phase.leasedNext_cases (p : Pid) {seen : Seen}
    (hp : Phase.leasedPermits maint k seen op) :
    Phase.Next p (.leased k seen) (.answer p op r) (Phase.leasedNext k seen op r) := by
  have hother : (∀ pk, op ≠ .load pk) → (∀ pk expected w, op ≠ .fencedCas pk expected w) →
      ∀ x, ¬ Tells p k x (.answer p op r) := by
    rintro hload hcas x (⟨row, hl, _⟩ | ⟨expected, w, hl, _⟩)
    · cases hl
      exact hload _ rfl
    · cases hl
      exact hcas _ _ _ rfl
  cases op with
  | load pk =>
    obtain ⟨rfl, _⟩ := hp
    match r with
    | .ok (some row) => exact .told pk seen row.status rfl (.inl ⟨row, rfl, rfl⟩)
    | .ok none => exact .cutOff pk seen rfl
    | .error e => exact .cutOff pk seen rfl
  | fencedCas pk expected w =>
    obtain ⟨rfl, _⟩ := hp
    match r with
    | .ok true => exact .told pk seen w.status rfl (.inr ⟨expected, w, rfl, rfl⟩)
    | .ok false =>
      refine .kept pk seen rfl ?_
      rintro x (⟨_, hl, _⟩ | ⟨_, _, hl, _⟩) <;> cases hl
    | .error e =>
      rw [Phase.leasedNext]
      split
      · exact .cutOff pk seen rfl
      · refine .kept pk seen rfl ?_
        rintro x (⟨_, hl, _⟩ | ⟨_, _, hl, _⟩) <;> cases hl
  | leaseRelease k' => exact .plain rfl
  | _ => exact .kept k seen rfl (hother nofun nofun)

/-- The ways out of an open transaction. -/
theorem Phase.txNext_cases (p : Pid) :
    Phase.Next p .tx (.answer p op r) (Phase.txNext op r) := by
  unfold Phase.txNext
  split
  all_goals first
    | exact .plain rfl
    | (rename_i found; cases found <;> exact .plain rfl)
    | (rename_i updated; cases updated; exacts [.plain rfl, .moved _ _ _ (.inl rfl)])

/-- The ways out of the phase after the insert of a lease row. -/
theorem Phase.insertedNext_cases (p : Pid) :
    Phase.Next p (.inserted k) (.answer p op r) (Phase.insertedNext k op r) := by
  unfold Phase.insertedNext
  split
  · split <;> exact .plain rfl
  all_goals exact .plain rfl

/-- The ways out of the phase with a free lease row. -/
theorem Phase.freeNext_cases (p : Pid) (hp : (Phase.free k).permits maint op) :
    Phase.Next p (.free k) (.answer p op r) (Phase.freeNext op r) := by
  rcases hp with rfl | ⟨old, rfl, _⟩
  · exact .plain (by cases r <;> rfl)
  · match r with
    | .ok true => exact .moved k old .maintenance (.inr rfl)
    | .ok false => exact .plain rfl
    | .error e => exact .plain rfl

/-- The ways out of the phase with a written row. -/
theorem Phase.writtenNext_cases (p : Pid) {move : Option (Status × Status)} :
    Phase.Next p (.written pk move) (.answer p op r) (Phase.writtenNext pk move op r) := by
  unfold Phase.writtenNext
  split
  · rename_i found
    cases found with
    | false => exact .plain rfl
    | true =>
      cases move with
      | none => exact .plain rfl
      | some move => exact .saved pk move rfl
  all_goals exact .plain rfl

/-- What an answer does to the phase of its process. -/
theorem Phase.next_cases (p : Pid) (hp : φ.permits maint op) :
    Phase.Next p φ (.answer p op r) (φ.next op r) := by
  cases φ with
  | out => exact Phase.outNext_cases p
  | checked k a => exact Phase.checkedNext_cases p hp
  | leased k seen => exact Phase.leasedNext_cases p hp
  | tx => exact Phase.txNext_cases p
  | inserted k => exact Phase.insertedNext_cases p
  | free k => exact Phase.freeNext_cases p hp
  | written pk move => exact Phase.writtenNext_cases p
  | bystander => exact .plain rfl
  | lost => exact .plain rfl
  | doomed => exact .plain rfl

end Answers

/-- What a step does to the phase of a process: it has not been answered, it is back where it
began, or it was answered. -/
theorem phase_of_move (p : Pid) (hm : Move machine (protocol maint) t s l s') :
    (phaseAt (protocol maint) p (⟨l, s, s'⟩ :: t) = phaseAt (protocol maint) p t ∧
      ∀ op r, l ≠ .answer p op r) ∨
    phaseAt (protocol maint) p (⟨l, s, s'⟩ :: t) = .out ∨
    ((phaseAt (protocol maint) p t).Next p l (phaseAt (protocol maint) p (⟨l, s, s'⟩ :: t))) := by
  cases hm.part p with
  | other hl hphase =>
    refine .inl ⟨hphase, ?_⟩
    rintro op r rfl
    exact hl rfl
  | start _ hphase => exact .inr (.inl hphase)
  | inner op hl hphase =>
    subst hl
    refine .inl ⟨hphase, ?_⟩
    intro op r h
    cases h
  | answer op r hl hphase hp _ =>
    subst hl
    rw [hphase]
    exact .inr (.inr (Phase.next_cases p hp))
  | kill _ hphase => exact .inr (.inl hphase)

end MtShards.Migrator
