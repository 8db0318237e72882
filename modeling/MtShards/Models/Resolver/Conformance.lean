import MtShards.Models.Resolver.Protocol

/-!
# The programs of the resolver keep to the automaton

`Spec` is what a part of a program does to the phase: where it leaves it when it returns, and
where when it raises. An answer that Redis does not give ends the matter. The parts are put
together by the rules for sequences and for `try`/`finally`.
-/

namespace MtShards.Resolver

open MtShards.Core Program

variable {cfg : Config} {kinds : Kind → Prop} {α β : Type} {φ : Phase}

/-- From phase `φ` the program keeps to the automaton, returns in a phase and with a value
satisfying `Q`, and raises only in a phase satisfying `E`. -/
def Spec (cfg : Config) (kinds : Kind → Prop) (φ : Phase) (x : Prog α) (Q : Phase → α → Prop)
    (E : Phase → Prop) : Prop :=
  x.Follows (protocol cfg kinds) φ fun φ' r => φ' = .lost ∨ onOutcome (Q φ') (fun _ => E φ') r

section Rules

variable {x : Prog α} {f : α → Prog β} {Q Q' : Phase → α → Prop} {R : Phase → β → Prop}
  {E E' : Phase → Prop} {op : Req}

/-- The conditions on where a program returns and raises can be loosened. -/
theorem Spec.mono (h : Spec cfg kinds φ x Q E) (hQ : ∀ φ' a, Q φ' a → Q' φ' a)
    (hE : ∀ φ', E φ' → E' φ') : Spec cfg kinds φ x Q' E' := by
  refine Follows.mono h fun φ' r hr => ?_
  rcases hr with hl | hr
  · exact .inl hl
  · cases r with
    | ok a => exact .inr (hQ φ' a hr)
    | error e => exact .inr (hE φ' hr)

/-- A process that has left the automaton is asked nothing more. -/
theorem Spec.lost (x : Prog α) : Spec cfg kinds .lost x Q E := by
  have hn : ∀ op r, (protocol cfg kinds).next .lost op r = .lost := by
    intro op r
    change Phase.next cfg.toSettings .lost op r = .lost
    exact if_pos rfl
  have h : x.Follows (protocol cfg kinds) .lost fun φ' _ => φ' = .lost :=
    (only_true x).follows fun op _ => ⟨.inl rfl, hn op⟩
  exact Follows.mono h fun φ' _ hl => .inl hl

/-- Returning a value keeps to the automaton. -/
theorem Spec.pure {a : α} (h : Q φ a) : Spec cfg kinds φ (Pure.pure a) Q E := .inr h

/-- Raising keeps to the automaton. -/
theorem Spec.raise {e : Exn} (h : E φ) : Spec cfg kinds φ (Program.raise e : Prog α) Q E := .inr h

/-- One request. -/
theorem Spec.call {Q : Phase → op.Ans → Prop} (hp : φ.Permits cfg kinds op)
    (hok : ∀ a, φ.after cfg.toSettings op a = .lost ∨ Q (φ.after cfg.toSettings op a) a)
    (herr : Phase.failed op = .lost ∨ E (Phase.failed op)) :
    Spec cfg kinds φ (Resolver.call op) Q E := by
  refine ⟨.inr hp, fun r => ?_⟩
  change _ ∨ _
  by_cases hl : φ = .lost
  · exact .inl (if_pos hl)
  · cases r with
    | ok a =>
      have hn : (protocol cfg kinds).next φ op (.ok a) = φ.after cfg.toSettings op a := if_neg hl
      rw [hn]
      exact hok a
    | error e =>
      have hn : (protocol cfg kinds).next φ op (.error e) = Phase.failed op := if_neg hl
      rw [hn]
      exact herr

/-- A sequence keeps to the automaton if its second part does from wherever the first returns. -/
theorem Spec.bind (hx : Spec cfg kinds φ x Q E) (hf : ∀ φ' a, Q φ' a → Spec cfg kinds φ' (f a) R E) :
    Spec cfg kinds φ (x >>= f) R E := by
  rw [Spec, follows_bind]
  refine Follows.mono hx fun φ' r hr => ?_
  rcases hr with rfl | hr
  · cases r with
    | ok a => exact Spec.lost (f a)
    | error e => exact .inl rfl
  · cases r with
    | ok a => exact hf φ' a hr
    | error e => exact .inr hr

/-- A program that is caught keeps to the automaton, and no longer raises. -/
theorem Spec.attempt (hx : Spec cfg kinds φ x Q E) :
    Spec cfg kinds φ x.attempt (fun φ' r => onOutcome (Q φ') (fun _ => E φ') r) E' := by
  rw [Spec, follows_attempt]
  exact Follows.mono hx fun φ' r hr => hr

/-- Dropping the value of a program keeps to the automaton. -/
theorem Spec.void {R : Phase → Prop} (hx : Spec cfg kinds φ x (fun φ' _ => R φ') E) :
    Spec cfg kinds φ x.void (fun φ' _ => R φ') E :=
  Spec.bind hx fun _ _ h => Spec.pure h

/-- A program with a cleanup keeps to the automaton if the cleanup does from wherever the program
ends. -/
theorem Spec.tryFinally {c : Prog Unit} (hx : Spec cfg kinds φ x Q E)
    (hok : ∀ φ' a, Q φ' a → Spec cfg kinds φ' c (fun φ'' _ => Q' φ'' a) E')
    (herr : ∀ φ', E φ' → Spec cfg kinds φ' c (fun φ'' _ => E' φ'') E') :
    Spec cfg kinds φ (Program.tryFinally x c) Q' E' := by
  rw [Spec, follows_tryFinally]
  refine Follows.mono hx fun φ' r hr => ?_
  have done {A : Phase → Prop} (hc : Spec cfg kinds φ' c (fun φ'' _ => A φ'') E')
      (hA : ∀ φ'', A φ'' → onOutcome (Q' φ'') (fun _ => E' φ'') r) :
      c.Follows (protocol cfg kinds) φ' fun φ'' => onOutcome
        (fun _ => φ'' = .lost ∨ onOutcome (Q' φ'') (fun _ => E' φ'') r) fun e =>
          φ'' = .lost ∨ onOutcome (Q' φ'') (fun _ => E' φ'') (.error e) := by
    refine Follows.mono hc fun φ'' r' hr' => ?_
    cases r' with
    | ok _ => exact hr'.imp_right (hA φ'')
    | error e => exact hr'
  rcases hr with rfl | hr
  · exact done (A := fun _ => False) (Spec.lost c) fun _ h => h.elim
  · cases r with
    | ok a => exact done (hok φ' a hr) fun _ h => h
    | error e => exact done (herr φ' hr) fun _ h => h

end Rules

/-! ### The cache -/

section Cache

variable {E : Phase → Prop} {o : Owed} {left : Nat} {before : Option Nat} {rows : List DomainRow}
  {added : List Host} {hostname : Host}

/-- Asking whether Redis is there leaves the phase. -/
theorem spec_redisAlive : Spec cfg kinds φ redisAlive (fun φ' b => φ' = φ ∧ b = true) E := by
  have hping : Spec cfg kinds φ (call .ping) (fun φ' b => φ' = φ ∧ b = true) (fun _ => False) := by
    refine Spec.call trivial (fun alive => ?_) (.inl rfl)
    cases alive with
    | false => exact .inl rfl
    | true => exact .inr ⟨rfl, rfl⟩
  refine Spec.bind hping.attempt fun φ' r hr => ?_
  cases r with
  | ok b => exact Spec.pure hr
  | error e => exact hr.elim

private theorem spec_setMany_tombstone (ks : List Key) :
    Spec cfg kinds (.owes o) (setMany (some cfg.holdSeconds) (ks.map fun k => (k, .tombstone)))
      (fun φ' _ => φ' = .owes { o with keys := o.keys.filter (· ∉ ks) }) E := by
  induction ks generalizing o with
  | nil =>
    refine Spec.pure ?_
    simp
  | cons k ks ih =>
    refine Spec.bind (Q := fun φ' _ => φ' = (Phase.owes o).held [k])
      (Spec.call (.inl ⟨o, rfl, rfl, rfl⟩) (fun _ => .inr rfl) (.inl rfl)) ?_
    rintro _ _ rfl
    refine ih.mono (fun φ' _ hφ => ?_) fun _ h => h
    rw [hφ]
    simp only [List.filter_filter, List.mem_cons, List.not_mem_nil, or_false, not_or]
    congr 2
    refine List.filter_congr fun x _ => ?_
    simp [Bool.and_comm]

/-- An invalidation settles the keys it names. -/
theorem spec_tombstoneKeys (ks : List Key) :
    Spec cfg kinds (.owes o) (tombstoneKeys cfg.toSettings ks)
      (fun φ' _ => φ' = .owes { o with keys := o.keys.filter (· ∉ ks) }) E := by
  unfold tombstoneKeys
  split
  · next h =>
    subst h
    refine Spec.pure ?_
    simp
  split
  · next h =>
    exact Spec.call (.inl ⟨o, rfl, h⟩) (fun _ => .inr rfl) (.inl rfl)
  · refine (spec_setMany_tombstone ks.eraseDups).mono (fun φ' _ hφ => ?_) fun _ h => h
    rw [hφ]
    simp only [List.mem_eraseDups]

/-- `forget_host` names the key of its host. -/
theorem spec_forgetHost (hφ : ∀ ks got, φ.looked ks got = φ) :
    Spec cfg kinds φ (forgetHost hostname) (fun φ' keys => φ' = φ ∧ Key.host hostname ∈ keys) E := by
  refine Spec.bind (Q := fun φ' _ => φ' = φ)
    (Spec.call trivial (fun a => .inr (hφ _ a)) (.inl rfl)) ?_
  rintro _ _ rfl
  refine Spec.pure ⟨rfl, ?_⟩
  simp

private theorem spec_forgetTenant {tenant : TenantSnapshot} :
    Spec cfg kinds (.changed tenant) (forgetTenant cfg.toSettings tenant)
      (fun φ' _ => φ'.MayStop) E := by
  refine Spec.bind (Q := fun φ' keys => ∃ hs, φ' = .owes (.ofTenant tenant hs) ∧
    keys = (Owed.ofTenant tenant hs).keys) ?_ ?_
  · refine Spec.bind (Q := fun φ' hs => φ' = .owes (.ofTenant tenant hs))
      (Spec.call ⟨tenant, rfl, rfl⟩ (fun _ => .inr rfl) (.inl rfl)) ?_
    rintro _ hs rfl
    exact Spec.pure ⟨hs, rfl, rfl⟩
  · rintro _ keys ⟨hs, rfl, rfl⟩
    refine (spec_tombstoneKeys _).mono (fun φ' _ hφ => ?_) fun _ h => h
    rw [hφ]
    refine ⟨?_, rfl, rfl⟩
    simp

private theorem spec_put {tenant : TenantSnapshot} :
    Spec cfg kinds (.read hostname (some tenant)) (put cfg.toSettings hostname tenant)
      (fun φ' _ => φ'.MayStop) E := by
  unfold put
  split
  · exact Spec.pure trivial
  · refine Spec.bind (Q := fun φ' _ => φ' = .filling tenant)
      (Spec.call (.inl ⟨hostname, some tenant, rfl, rfl, rfl⟩) (fun _ => .inr rfl) (.inl rfl)) ?_
    rintro _ _ rfl
    refine Spec.bind (Q := fun φ' _ => φ' = .idle)
      (Spec.call (.inr ⟨tenant, rfl, rfl, rfl⟩) (fun _ => .inr rfl) (.inl rfl)) ?_
    rintro _ _ rfl
    exact Spec.pure trivial

private theorem spec_storeMiss :
    Spec cfg kinds (.read hostname none) (storeMiss cfg.toSettings hostname)
      (fun φ' _ => φ'.MayStop) E := by
  unfold storeMiss
  split
  · exact Spec.pure trivial
  · refine Spec.void (Spec.call (.inl ⟨hostname, none, rfl, rfl, rfl⟩) (fun _ => .inr ?_) (.inl rfl))
    trivial

private theorem spec_setMany_positive {ttl : Option Nat} (kvs : List (Key × TenantSnapshot))
    (h : ∀ kv ∈ kvs, WritesSnap rows kv.1 kv.2) :
    Spec cfg kinds (.building left before rows added)
      (setMany ttl (kvs.map fun kv => (kv.1, .positive kv.2)))
      (fun φ' _ => φ' = .building left before rows added) E := by
  induction kvs with
  | nil => exact Spec.pure rfl
  | cons kv kvs ih =>
    refine Spec.bind (Q := fun φ' _ => φ' = .building left before rows added)
      (Spec.call (.inr ⟨left, before, rows, added, kv.2, rfl, rfl, h kv List.mem_cons_self⟩)
        (fun _ => .inr rfl) (.inl rfl)) ?_
    rintro _ _ rfl
    exact ih fun kv' h' => h kv' (List.mem_cons_of_mem _ h')

/-- Writing the snapshots of its rows leaves a round where it is. -/
theorem spec_putManyByTtl (keyed : List (Key × TenantSnapshot))
    (h : ∀ kv ∈ keyed, WritesSnap rows kv.1 kv.2) :
    Spec cfg kinds (.building left before rows added) (putManyByTtl cfg.toSettings keyed)
      (fun φ' _ => φ' = .building left before rows added) E := by
  have groups : ∀ ttls, Spec cfg kinds (.building left before rows added)
      (putGroups cfg.toSettings keyed ttls)
      (fun φ' _ => φ' = .building left before rows added) E := by
    intro ttls
    induction ttls with
    | nil => exact Spec.pure rfl
    | cons ttl ttls ih =>
      refine Spec.bind (spec_setMany_positive _ fun kv hkv => h kv (List.mem_of_mem_filter hkv)) ?_
      rintro _ _ rfl
      refine Spec.bind ih ?_
      rintro _ _ rfl
      exact Spec.pure rfl
  unfold putManyByTtl
  split
  · exact Spec.pure rfl
  · exact groups _

end Cache

/-! ### The host registry -/

section Registry

variable {E : Phase → Prop} {o : Owed} {left : Nat} {before : Option Nat} {rows : List DomainRow}
  {added : List Host} {hostname : Host} {R : Phase → Prop}

/-- A program that raises nothing is left alone by the handler for Redis. -/
theorem spec_catchRedis {x : Prog Unit} (hx : Spec cfg kinds φ x (fun φ' _ => R φ') fun _ => False) :
    Spec cfg kinds φ (catchRedis x) (fun φ' _ => R φ') E := by
  refine Spec.bind hx.attempt fun φ' r hr => ?_
  cases r with
  | ok _ => exact Spec.pure hr
  | error e => exact hr.elim

/-- Bumping the counter leaves a writer owing the rest. -/
theorem spec_bumpDirty (ho : o.bump = true) :
    Spec cfg kinds (.owes o) bumpDirty (fun φ' _ => φ' = .owes { o with bump := false }) E := by
  refine Spec.bind (Q := fun φ' _ => φ' = .owes { o with bump := false })
    (Spec.call ⟨o, rfl, ho⟩ (fun _ => .inr rfl) (.inl rfl)) ?_
  rintro _ _ rfl
  exact Spec.call ⟨_, rfl⟩ (fun _ => .inr rfl) (.inl rfl)

/-- Nothing was owed to the registry while the WARM stage is off. -/
theorem owes_bump_off (ho : o.bump = cfg.warmEnabled) (hw : (!cfg.warmEnabled) = true) :
    Phase.owes o = .owes { o with bump := false } := by
  have : o.bump = false := by rw [ho]; simpa using hw
  rw [← this]

private theorem spec_add (hb : o.bump = cfg.warmEnabled) (ha : o.arm = cfg.warmEnabled) :
    Spec cfg kinds (.owes o) (add cfg.toSettings hostname)
      (fun φ' _ => φ' = .owes { o with bump := false }) E := by
  unfold add
  split
  · next hw => exact Spec.pure (owes_bump_off hb hw)
  · next hw =>
    have hw : cfg.warmEnabled = true := by simpa using hw
    refine spec_catchRedis (Spec.bind (Q := fun φ' _ => φ' = .owes o)
      (Spec.call ⟨o, rfl⟩ (fun _ => .inr rfl) (.inl rfl)) ?_)
    rintro _ present rfl
    cases present with
    | false => exact spec_bumpDirty (hb.trans hw)
    | true =>
      refine Spec.bind (Q := fun φ' _ => φ' = .owes o)
        (Spec.call ⟨o, rfl, hb.trans hw, ha.trans hw⟩ (fun _ => .inr rfl) (.inl rfl)) ?_
      rintro _ _ rfl
      exact spec_bumpDirty (hb.trans hw)

private theorem spec_remove (hb : o.bump = cfg.warmEnabled) (ha : o.arm = cfg.warmEnabled) :
    Spec cfg kinds (.owes o) (remove cfg.toSettings hostname)
      (fun φ' _ => φ' = .owes { o with bump := false }) E := by
  unfold remove
  split
  · next hw => exact Spec.pure (owes_bump_off hb hw)
  · next hw =>
    have hw : cfg.warmEnabled = true := by simpa using hw
    refine spec_catchRedis (Spec.bind (Q := fun φ' _ => φ' = .owes o)
      (Spec.call ⟨o, rfl, hb.trans hw, ha.trans hw⟩ (fun _ => .inr rfl) (.inl rfl)) ?_)
    rintro _ _ rfl
    exact spec_bumpDirty (hb.trans hw)

/-- Arming the host set leaves a writer owing the rest. -/
theorem spec_arm (hb : o.bump = false) (ha : o.arm = cfg.warmEnabled) :
    Spec cfg kinds (.owes o) (arm cfg.toSettings) (fun φ' _ => φ' = .owes { o with arm := false }) E := by
  unfold arm
  split
  · next hw =>
    have : o.arm = false := by rw [ha]; simpa using hw
    exact Spec.pure (by rw [← this])
  · exact spec_catchRedis (Spec.call ⟨o, rfl, hb⟩ (fun _ => .inr rfl) (.inl rfl))

/-- Asking for a warm-up leaves a writer owing what it owed. -/
theorem spec_triggerWarm :
    Spec cfg kinds (.owes o) (triggerWarm cfg.toSettings) (fun φ' _ => φ' = .owes o) E := by
  unfold triggerWarm
  split
  · exact Spec.pure rfl
  · have hx : Spec cfg kinds (.owes o) (do
        if ← call (.setMarker cfg.warmPendingSeconds) then call .enqueue)
        (fun φ' _ => φ' = .owes o) (fun _ => False) := by
      refine Spec.bind (Q := fun φ' _ => φ' = .owes o)
        (Spec.call ⟨o, rfl⟩ (fun _ => .inr rfl) (.inl rfl)) ?_
      rintro _ fresh rfl
      cases fresh with
      | false => exact Spec.pure rfl
      | true => exact Spec.call ⟨o, rfl⟩ (fun _ => .inr rfl) (.inl rfl)
    refine Spec.bind hx.attempt fun φ' r hr => ?_
    cases r with
    | ok _ => exact Spec.pure hr
    | error e => exact hr.elim

/-- A chunk is added to the set that is built, and its snapshots are written. -/
theorem spec_flush (batch : List DomainRow) (h : ∀ d ∈ batch, d ∈ rows) :
    Spec cfg kinds (.building left before rows added) (flush cfg.toSettings batch)
      (fun φ' _ => φ' = .building left before rows (added ++ hostsOfRows batch)) E := by
  unfold flush
  split
  · next hb =>
    subst hb
    refine Spec.pure ?_
    simp
  · refine Spec.bind
      (Q := fun φ' _ => φ' = .building left before rows (added ++ hostsOfRows batch))
      (Spec.call ⟨left, before, rows, added, rfl⟩ (fun _ => .inr rfl) (.inl rfl)) ?_
    rintro _ _ rfl
    refine Spec.bind (spec_putManyByTtl _ ?_) ?_
    · intro kv hkv
      obtain ⟨d, hd, rfl⟩ := List.mem_map.1 hkv
      exact ⟨d, h d hd, rfl, .inl rfl⟩
    rintro _ _ rfl
    refine Spec.bind (spec_putManyByTtl _ ?_) ?_
    · intro kv hkv
      obtain ⟨tenant, ht, rfl⟩ := List.mem_map.1 hkv
      obtain ⟨n, _, hn⟩ := List.mem_filterMap.1 ht
      obtain ⟨d, hd, rfl⟩ := List.mem_map.1 (List.mem_reverse.1 (List.mem_of_find?_eq_some hn))
      exact ⟨d, h d hd, rfl, .inr rfl⟩
    rintro _ _ rfl
    exact Spec.pure rfl

/-- All rows that were read end up in the set. -/
theorem spec_rebuildRows (ds batch : List DomainRow) (h : ∀ d ∈ batch ++ ds, d ∈ rows) :
    Spec cfg kinds (.building left before rows added) (rebuildRows cfg.toSettings ds batch)
      (fun φ' _ => φ' = .building left before rows (added ++ hostsOfRows (batch ++ ds))) E := by
  induction ds generalizing batch added with
  | nil =>
    rw [List.append_nil] at h ⊢
    exact spec_flush batch h
  | cons d ds ih =>
    have happ : batch ++ d :: ds = (batch ++ [d]) ++ ds := by simp
    rw [happ] at h ⊢
    unfold rebuildRows
    split
    · refine Spec.bind (spec_flush _ fun x hx => h x (List.mem_append_left _ hx)) ?_
      rintro _ _ rfl
      refine Spec.bind (ih [] fun x hx => h x (List.mem_append_right _ hx)) ?_
      rintro _ _ rfl
      refine Spec.pure ?_
      simp [hostsOfRows]
    · exact ih (batch ++ [d]) h

/-- A round leaves the set in place, or it is cut off by a `RENAME` that fails. -/
theorem spec_rebuildOnce :
    Spec cfg kinds (.opened left before) (rebuildOnce cfg.toSettings)
      (fun φ' res => ∃ rows, φ' = .built left before rows ∧ res.2 = hostsOfRows rows)
      (fun φ' => φ' = .aborted) := by
  refine Spec.bind (Q := fun φ' _ => φ' = .cleared left before)
    (Spec.call ⟨left, before, rfl⟩ (fun _ => .inr rfl) (.inl rfl)) ?_
  rintro _ _ rfl
  refine Spec.bind (Q := fun φ' rows => φ' = .building left before rows [])
    (Spec.call ⟨left, before, rfl⟩ (fun _ => .inr rfl) (.inl rfl)) ?_
  rintro _ rows rfl
  refine Spec.bind (spec_rebuildRows rows [] fun _ hd => hd) ?_
  rintro _ _ rfl
  refine Spec.bind (Q := fun φ' present => φ' = if present then .swapping left before rows
    else .emptying left before rows)
    (Spec.call ⟨left, before, rows, rfl⟩ (fun _ => .inr rfl) (.inl rfl)) ?_
  rintro _ present rfl
  cases present with
  | false =>
    refine Spec.bind (Q := fun φ' _ => φ' = .built left before rows)
      (Spec.call ⟨left, before, rows, rfl⟩ (fun _ => .inr rfl) (.inl rfl)) ?_
    rintro _ _ rfl
    exact Spec.pure ⟨rows, rfl, rfl⟩
  | true =>
    refine Spec.bind (Q := fun φ' _ => φ' = .built left before rows)
      (Spec.call ⟨left, before, rows, rfl⟩ (fun _ => .inr rfl) (.inr rfl)) ?_
    rintro _ _ rfl
    exact Spec.pure ⟨rows, rfl, rfl⟩

/-- The rounds end with a sweep of what the last of them has read. -/
theorem spec_rounds (n : Nat) :
    Spec cfg kinds (.holding (n + 1)) (rounds cfg.toSettings (n + 1))
      (fun φ' res => ∃ rows, φ' = .sweeping rows 0 [] ∧ res.2 = hostsOfRows rows)
      (fun φ' => φ' = .aborted) := by
  induction n with
  | zero =>
    refine Spec.bind (Q := fun φ' b => φ' = .opened 0 b)
      (Spec.call (.inl ⟨0, rfl⟩) (fun _ => .inr rfl) (.inl rfl)) ?_
    rintro _ b rfl
    refine Spec.bind spec_rebuildOnce ?_
    rintro _ ⟨n, hs⟩ ⟨rows, rfl, hhs⟩
    refine Spec.bind (Q := fun φ' a => φ' = .sweeping rows 0 [])
      (Spec.call (.inr ⟨0, b, rows, rfl⟩) (fun a => .inr (if_pos (.inr rfl))) (.inl rfl)) ?_
    rintro _ a rfl
    rw [if_pos (.inr rfl)]
    exact Spec.pure ⟨rows, rfl, hhs⟩
  | succ m ih =>
    refine Spec.bind (Q := fun φ' b => φ' = .opened (m + 1) b)
      (Spec.call (.inl ⟨m + 1, rfl⟩) (fun _ => .inr rfl) (.inl rfl)) ?_
    rintro _ b rfl
    refine Spec.bind spec_rebuildOnce ?_
    rintro _ ⟨n, hs⟩ ⟨rows, rfl, hhs⟩
    refine Spec.bind (Q := fun φ' a => φ' = (Phase.built (m + 1) b rows).counted a)
      (Spec.call (.inr ⟨m + 1, b, rows, rfl⟩) (fun a => .inr rfl) (.inl rfl)) ?_
    rintro _ a rfl
    by_cases hc : a = b ∨ m + 1 = 0
    · rw [if_pos hc, Phase.counted, if_pos hc]
      exact Spec.pure ⟨rows, rfl, hhs⟩
    · rw [if_neg hc, Phase.counted, if_neg hc]
      exact ih

end Registry

/-! ### The sweep -/

section Sweep

variable {E : Phase → Prop} {rows : List DomainRow} {i : Nat} {found : List Host}

/-- A batch of names is dealt with. -/
theorem spec_sweepBatch (ks : List Key) :
    Spec cfg kinds (.sweeping rows i found) (sweepBatch ks)
      (fun φ' _ => ∃ found', φ' = .sweeping rows i found' ∧
        ∀ h ∈ found', h ∈ found ∧ Key.host h ∉ ks) E := by
  unfold sweepBatch
  split
  · next hk =>
    subst hk
    exact Spec.pure ⟨found, rfl, fun h hh => ⟨hh, List.not_mem_nil⟩⟩
  · refine Spec.bind (Q := fun φ' got => φ' = (Phase.sweeping rows i found).looked ks got)
      (Spec.call trivial (fun _ => .inr rfl) (.inl rfl)) ?_
    rintro _ got rfl
    dsimp only
    split
    · next ho =>
      refine Spec.pure ⟨_, rfl, fun h hh => ?_⟩
      simpa [ho] using hh
    · refine Spec.bind
        (Q := fun φ' _ => φ' = ((Phase.sweeping rows i found).looked ks got).deleted (orphansOf got))
        (Spec.call (.inr ⟨_, _, _, rfl⟩) (fun _ => .inr rfl) (.inl rfl)) ?_
      rintro _ _ rfl
      refine Spec.pure ⟨_, rfl, fun h hh => ?_⟩
      simp only [List.mem_filter, decide_eq_true_eq] at hh
      obtain ⟨⟨hf, hk⟩, ho⟩ := hh
      exact ⟨hf, hk.resolve_right ho⟩

/-- The names of a page are dealt with, but for the batch that is left open. -/
theorem spec_sweepNames (names batch : List Host)
    (h : ∀ x ∈ found, x ∈ batch ∨ x ∈ names ∧ x ∉ hostsOfRows rows) :
    Spec cfg kinds (.sweeping rows i found)
      (sweepNames cfg.toSettings .host (hostsOfRows rows) names batch)
      (fun φ' res => ∃ found', φ' = .sweeping rows i found' ∧ ∀ x ∈ found', x ∈ res.1) E := by
  induction names generalizing batch found with
  | nil =>
    refine Spec.pure ⟨found, rfl, fun x hx => ?_⟩
    exact (h x hx).resolve_right fun hn => List.not_mem_nil hn.1
  | cons name names ih =>
    unfold sweepNames
    split
    · next hv =>
      refine ih batch fun x hx => (h x hx).imp_right fun ⟨hn, hr⟩ => ⟨?_, hr⟩
      refine (List.mem_cons.1 hn).resolve_left ?_
      rintro rfl
      exact hr hv
    have hsplit : ∀ x ∈ found, x ∈ batch ++ [name] ∨ x ∈ names ∧ x ∉ hostsOfRows rows := by
      intro x hx
      rcases h x hx with hb | ⟨hn, hr⟩
      · exact .inl (List.mem_append_left _ hb)
      · rcases List.mem_cons.1 hn with rfl | hn
        · exact .inl (List.mem_append_right _ List.mem_cons_self)
        · exact .inr ⟨hn, hr⟩
    split
    · refine Spec.bind (spec_sweepBatch _) ?_
      rintro _ n ⟨found', rfl, hf⟩
      refine Spec.bind (ih [] fun x hx => ?_) ?_
      · obtain ⟨hx, hk⟩ := hf x hx
        refine .inr ((hsplit x hx).resolve_left fun hb => hk ?_)
        exact List.mem_map_of_mem hb
      · rintro _ ⟨rest, m⟩ hres
        exact Spec.pure hres
    · exact ih (batch ++ [name]) hsplit

/-- The hosts are swept: every page is scanned and no name is left. -/
theorem spec_sweepPages_host (m : Nat) (batch : List Host) (h : ∀ x ∈ found, x ∈ batch) :
    Spec cfg kinds (.sweeping rows i found)
      (sweepPages cfg.toSettings .host (fun j => call (.scanHosts j)) (hostsOfRows rows)
        (List.range' i m) batch)
      (fun φ' _ => φ' = .sweeping rows (i + m) []) E := by
  induction m generalizing i batch found with
  | zero =>
    refine (spec_sweepBatch _).mono (fun φ' _ ⟨found', hφ, hf⟩ => ?_) fun _ h => h
    have hnil : found' = [] := by
      refine List.eq_nil_iff_forall_not_mem.2 fun x hx => ?_
      exact (hf x hx).2 (List.mem_map_of_mem (h x (hf x hx).1))
    rw [hφ, hnil, Nat.add_zero]
  | succ m ih =>
    rw [List.range'_succ]
    refine Spec.bind (Q := fun φ' names => φ' = (Phase.sweeping rows i found).scanned names)
      (Spec.call ⟨rows, found, rfl⟩ (fun _ => .inr rfl) (.inl rfl)) ?_
    rintro _ names rfl
    refine Spec.bind (spec_sweepNames names batch fun x hx => ?_) ?_
    · rcases List.mem_append.1 hx with hx | hx
      · exact .inl (h x hx)
      · obtain ⟨hn, hr⟩ := List.mem_filter.1 hx
        exact .inr ⟨hn, of_decide_eq_true hr⟩
    rintro _ ⟨batch', n⟩ ⟨found', rfl, hf⟩
    refine Spec.bind (ih batch' hf) ?_
    rintro _ _ rfl
    refine Spec.pure ?_
    rw [Nat.add_right_comm, Nat.add_assoc]

/-- The schemas are swept without changing what is known of the hosts. -/
theorem spec_sweepPages_schema (valid : List SchemaName) (pages : List Nat)
    (batch : List SchemaName) :
    Spec cfg kinds (.sweeping rows i [])
      (sweepPages cfg.toSettings .schema (fun j => call (.scanSchemas j)) valid pages batch)
      (fun φ' _ => φ' = .sweeping rows i []) (fun φ' => φ' = .sweeping rows i []) := by
  have hbatch : ∀ ks, Spec cfg kinds (.sweeping rows i []) (sweepBatch ks)
      (fun φ' _ => φ' = .sweeping rows i []) (fun φ' => φ' = .sweeping rows i []) := by
    intro ks
    refine (spec_sweepBatch ks).mono (fun φ' _ ⟨found', hφ, hf⟩ => ?_) fun _ h => h
    rw [hφ, List.eq_nil_iff_forall_not_mem.2 fun x hx => List.not_mem_nil (hf x hx).1]
  have hnames : ∀ names batch, Spec cfg kinds (.sweeping rows i [])
      (sweepNames cfg.toSettings .schema valid names batch)
      (fun φ' _ => φ' = .sweeping rows i []) (fun φ' => φ' = .sweeping rows i []) := by
    intro names
    induction names with
    | nil => exact fun _ => Spec.pure rfl
    | cons name names ih =>
      intro batch
      unfold sweepNames
      split
      · exact ih batch
      split
      · refine Spec.bind (hbatch _) ?_
        rintro _ _ rfl
        refine Spec.bind (ih []) ?_
        rintro _ ⟨rest, m⟩ rfl
        exact Spec.pure rfl
      · exact ih _
  induction pages generalizing batch with
  | nil => exact hbatch _
  | cons j pages ih =>
    refine Spec.bind (Q := fun φ' _ => φ' = .sweeping rows i [])
      (Spec.call ⟨rows, i, [], rfl⟩ (fun _ => .inr rfl) (.inl rfl)) ?_
    rintro _ names rfl
    refine Spec.bind (hnames names batch) ?_
    rintro _ ⟨batch', n⟩ rfl
    refine Spec.bind (ih batch') ?_
    rintro _ _ rfl
    exact Spec.pure rfl

end Sweep

/-! ### Whole programs -/

/-- A reconcile that has ended: its sweep is complete, or its `RENAME` failed. -/
def Ended (cfg : Config) (φ : Phase) : Prop :=
  φ = .aborted ∨ ∃ rows, φ = .sweeping rows cfg.keyspace.pages []

private theorem spec_reconcile (hw : cfg.warmEnabled = true) :
    Spec cfg kinds (.holding 3) (reconcile cfg) (fun φ' _ => Ended cfg φ') (Ended cfg) := by
  unfold reconcile
  rw [if_neg (by simp [hw])]
  refine Spec.bind spec_redisAlive ?_
  rintro _ _ ⟨rfl, rfl⟩
  refine Spec.bind ((spec_rounds 2).mono (fun _ _ h => h) fun φ' h => .inl h) ?_
  rintro _ ⟨n, hs⟩ ⟨rows, rfl, rfl⟩
  refine Spec.bind (Q := fun φ' _ => φ' = .sweeping rows 0 [])
    (Spec.call ⟨rows, 0, [], rfl⟩ (fun _ => .inr rfl) (.inl rfl)) ?_
  rintro _ schemas rfl
  refine Spec.bind (Q := fun φ' _ => φ' = .sweeping rows cfg.keyspace.pages []) ?_ ?_
  · refine Spec.bind (Q := fun φ' _ => φ' = .sweeping rows cfg.keyspace.pages []) ?_ ?_
    · rw [List.range_eq_range']
      refine (spec_sweepPages_host cfg.keyspace.pages [] fun x hx => hx).mono (fun φ' _ hφ => ?_)
        fun _ h => h
      rw [hφ, Nat.zero_add]
    rintro _ _ rfl
    refine Spec.bind ((spec_sweepPages_schema schemas _ []).mono (fun _ _ h => h) ?_) ?_
    · rintro φ' rfl
      exact .inr ⟨rows, rfl⟩
    rintro _ _ rfl
    exact Spec.pure rfl
  rintro _ _ rfl
  exact Spec.pure (.inr ⟨rows, rfl⟩)

private theorem spec_runLocked (hk : kinds .reconcile) :
    Spec cfg kinds .idle (runLocked cfg) (fun φ' _ => φ' = .idle) (fun φ' => φ' = .idle) := by
  unfold runLocked
  split
  · exact Spec.pure rfl
  · next hw =>
    refine Spec.bind spec_redisAlive ?_
    rintro _ _ ⟨rfl, rfl⟩
    refine Spec.bind (Q := fun φ' got => φ' = if got then .holding 3 else .idle)
      (Spec.call ⟨rfl, hk⟩ (fun _ => .inr rfl) (.inl rfl)) ?_
    rintro _ got rfl
    have hrel : ∀ φ', Ended cfg φ' → Spec cfg kinds φ' (call .release).void (fun φ'' _ => φ'' = .idle)
        (fun φ'' => φ'' = .idle) := fun φ' h =>
      Spec.void (Spec.call h (fun _ => .inr rfl) (.inl rfl))
    cases got with
    | false => exact Spec.pure rfl
    | true =>
      refine Spec.tryFinally (Q := fun φ' _ => Ended cfg φ') (E := Ended cfg) ?_
        (fun φ' _ h => hrel φ' h) hrel
      exact Spec.bind (spec_reconcile (by simpa using hw)) fun _ _ h => Spec.pure h

private theorem spec_fill {hostname : Host} (hk : kinds .fill) :
    Spec cfg kinds .idle (fill cfg.toSettings hostname) (fun φ' _ => φ'.MayStop) Phase.MayStop := by
  refine Spec.bind (Q := fun φ' row => φ' = .read hostname row)
    (Spec.call ⟨rfl, hk⟩ (fun _ => .inr rfl) (.inl rfl)) ?_
  rintro _ row rfl
  cases row with
  | none => exact Spec.bind spec_storeMiss fun _ _ h => Spec.raise h
  | some tenant => exact Spec.bind spec_put fun _ _ h => Spec.pure h

private theorem spec_changeStatus {pk : Nat} {expected : List Status} {st : Status}
    (hk : kinds .status) :
    Spec cfg kinds .idle (changeStatus cfg.toSettings pk expected st) (fun φ' _ => φ'.MayStop)
      Phase.MayStop := by
  refine Spec.bind (Q := fun φ' tenant => φ' = tenant.elim .idle Phase.loaded)
    (Spec.call ⟨rfl, hk⟩ (fun _ => .inr rfl) (.inl rfl)) ?_
  rintro _ tenant rfl
  cases tenant with
  | none => exact Spec.pure trivial
  | some tenant =>
    refine Spec.bind (Q := fun φ' done => φ' = if done then .changed tenant else .loaded tenant)
      (Spec.call ⟨tenant, rfl, rfl⟩ (fun _ => .inr rfl) (.inl rfl)) ?_
    rintro _ done rfl
    cases done with
    | false => exact Spec.pure trivial
    | true => exact spec_forgetTenant

section Hooks

variable {E : Phase → Prop} {hs : List Host} {keys : List Key} {domain : Host}

/-- After the hooks of a saved domain, only tombstones on other hosts may still be owed. -/
theorem spec_domainSaved :
    Spec cfg kinds (.owes (.ofHosts cfg.toSettings hs)) (domainSaved cfg.toSettings keys domain)
      (fun φ' _ => φ' = .owes ⟨hs, (hs.map Key.host).filter (· ∉ keys), false, false⟩) E := by
  refine Spec.bind (spec_tombstoneKeys keys) ?_
  rintro _ _ rfl
  refine Spec.bind (spec_add rfl rfl) ?_
  rintro _ _ rfl
  refine Spec.bind (spec_arm rfl rfl) ?_
  rintro _ _ rfl
  exact spec_triggerWarm

private theorem spec_domainDeleted :
    Spec cfg kinds (.owes (.ofHosts cfg.toSettings hs)) (domainDeleted cfg.toSettings keys domain)
      (fun φ' _ => φ' = .owes ⟨hs, (hs.map Key.host).filter (· ∉ keys), false, false⟩) E := by
  refine Spec.bind (spec_tombstoneKeys keys) ?_
  rintro _ _ rfl
  refine Spec.bind (spec_remove rfl rfl) ?_
  rintro _ _ rfl
  refine Spec.bind (spec_arm rfl rfl) ?_
  rintro _ _ rfl
  exact spec_triggerWarm

end Hooks

private theorem spec_createDomain {d : Domain} (hc : kinds .create) :
    Spec cfg kinds .idle (createDomain cfg.toSettings d) (fun φ' _ => φ'.MayStop) Phase.MayStop := by
  refine Spec.bind (spec_forgetHost fun _ _ => rfl) ?_
  rintro _ keys ⟨rfl, hk⟩
  refine Spec.bind
    (Q := fun φ' done => φ' = if done then .owes (.ofHosts cfg.toSettings [d.domain]) else .idle)
    (Spec.call ⟨rfl, hc⟩ (fun _ => .inr rfl) (.inl rfl)) ?_
  rintro _ done rfl
  cases done with
  | false => exact Spec.raise trivial
  | true =>
    refine spec_domainSaved.mono (fun φ' _ hφ => ?_) fun _ h => h
    rw [hφ]
    refine ⟨?_, rfl, rfl⟩
    simp [hk]

private theorem spec_deleteDomain {pk : Nat} (hc : kinds .delete) :
    Spec cfg kinds .idle (deleteDomain cfg.toSettings pk) (fun φ' _ => φ'.MayStop) Phase.MayStop := by
  refine Spec.bind (Q := fun φ' _ => φ' = .idle) (Spec.call rfl (fun _ => .inr rfl) (.inl rfl)) ?_
  rintro _ d rfl
  cases d with
  | none => exact Spec.pure trivial
  | some d =>
    refine Spec.bind (spec_forgetHost fun _ _ => rfl) ?_
    rintro _ keys ⟨rfl, hk⟩
    refine Spec.bind (Q := fun φ' _ => φ' = .owes (.ofHosts cfg.toSettings [d.domain]))
      (Spec.call ⟨rfl, hc⟩ (fun _ => .inr rfl) (.inl rfl)) ?_
    rintro _ _ rfl
    refine spec_domainDeleted.mono (fun φ' _ hφ => ?_) fun _ h => h
    rw [hφ]
    refine ⟨?_, rfl, rfl⟩
    simp [hk]

private theorem spec_saveDomain {pk : Nat} {new : Host} (hc : kinds .repoint) :
    Spec cfg kinds .idle (saveDomain cfg.toSettings pk new) (fun φ' _ => φ'.MayStop) Phase.MayStop := by
  refine Spec.bind (Q := fun φ' _ => φ' = .idle) (Spec.call rfl (fun _ => .inr rfl) (.inl rfl)) ?_
  rintro _ d rfl
  cases d with
  | none => exact Spec.pure trivial
  | some d =>
    refine Spec.bind (spec_forgetHost fun _ _ => rfl) ?_
    rintro _ keys ⟨rfl, hk⟩
    refine Spec.bind (Q := fun φ' done =>
      φ' = if done then .owes (.ofHosts cfg.toSettings [new, d.domain]) else .idle)
      (Spec.call ⟨rfl, hc⟩ (fun _ => .inr rfl) (.inl rfl)) ?_
    rintro _ done rfl
    cases done with
    | false => exact Spec.raise trivial
    | true =>
      refine Spec.bind spec_domainSaved ?_
      rintro _ _ rfl
      split
      · refine Spec.bind (spec_forgetHost fun _ _ => rfl) ?_
        rintro _ keys' ⟨rfl, hk'⟩
        refine (spec_tombstoneKeys keys').mono (fun φ' _ hφ => ?_) fun _ h => h
        rw [hφ]
        refine ⟨?_, rfl, rfl⟩
        simp only [List.map_cons, List.map_nil, List.filter_filter, List.filter_eq_nil_iff,
          List.mem_cons, List.not_mem_nil, or_false, Bool.and_eq_true, decide_eq_true_eq]
        rintro _ (rfl | rfl) ⟨h₁, h₂⟩
        · exact h₂ hk
        · exact h₁ hk'
      · next heq =>
        have heq : d.domain = new := by simpa using heq
        refine Spec.pure ⟨?_, rfl, rfl⟩
        simp [heq, hk]

/-- Every program that may be started keeps to the automaton. -/
theorem system_follows : AllFollow (protocol cfg kinds) (Starts cfg kinds) := by
  have hend {x : Prog Unit} (h : Spec cfg kinds .idle x (fun φ' _ => φ'.MayStop) Phase.MayStop) :
      x.Follows (protocol cfg kinds) (protocol cfg kinds).init fun φ _ => (protocol cfg kinds).mayStop φ := by
    refine Follows.mono h fun φ' r hr => ?_
    rcases hr with rfl | hr
    · exact trivial
    · cases r <;> exact hr
  have hrun (hk : kinds .reconcile) :
      Spec cfg kinds .idle (runLocked cfg) (fun φ' _ => φ'.MayStop) Phase.MayStop := by
    refine (spec_runLocked hk).mono ?_ ?_
    · rintro _ _ rfl
      exact trivial
    · rintro _ rfl
      exact trivial
  rintro p prog ⟨k, hkind, hk⟩
  refine hend ?_
  cases hk with
  | fill h => exact (spec_fill hkind).void
  | status pk expected st => exact spec_changeStatus hkind
  | create d => exact spec_createDomain hkind
  | delete pk => exact spec_deleteDomain hkind
  | repoint pk h => exact spec_saveDomain hkind
  | command => exact (hrun hkind).void
  | task =>
    refine Spec.bind (Q := fun φ' _ => φ' = .idle)
      (Spec.call rfl (fun _ => .inr rfl) (.inl rfl)) ?_
    rintro _ _ rfl
    exact Spec.bind (hrun hkind) fun _ _ h => Spec.pure h

end MtShards.Resolver
