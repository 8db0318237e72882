import Mathlib.Algebra.GroupWithZero.Nat
import Mathlib.Algebra.BigOperators.Group.List.Basic
import Mathlib.Data.Finset.Lattice.Lemmas
import MtShards.Core.Solo
import MtShards.Models.Resolver.StatusRace

/-!
# A reconcile on its own

What one run of `reconcile` leaves when nothing else runs: an exact image of the tables, whatever
was cached before, however the rows are ordered and chunked, and whatever the scan yields besides
the keys that are there throughout.
-/

namespace MtShards.Resolver

open MtShards.Core

/-- The log of a program, newest request first. -/
abbrev Log := List (Taken Req Req.Ans Exn World)

/-- Nothing else runs: time passes between the requests, and a page of a scan names any keys. -/
def alone (p : Pid) : Semantics Req Req.Ans Exn World := fun op s r s' =>
  ∃ ks n, s.now ≤ n ∧ (machine ks).exec p op { s with now := n } r s'

/-- Every execution from here stops as the condition says. -/
abbrev Yields (p : Pid) {α : Type} (x : Prog α) (l : Log) (s : World)
    (Q : Log → World → Except Exn α → Prop) : Prop :=
  x.Ensures (alone p) (fun _ _ => True) l s Q

/-- The request is a page of the scan of a key's namespace. -/
def Scans : Req → Key → Prop
  | .scanHosts _, .host _ => True
  | .scanSchemas _, .schema _ => True
  | _, _ => False

/-- A request that is no page of a scan scans for no key. -/
theorem not_scans {op : Req} (hhosts : ∀ i, op ≠ .scanHosts i) (hschemas : ∀ i, op ≠ .scanSchemas i)
    (k : Key) : ¬ Scans op k := by
  cases op with
  | scanHosts i => exact absurd rfl (hhosts i)
  | scanSchemas i => exact absurd rfl (hschemas i)
  | _ => cases k <;> exact id

/-- A page of a scan named the key. -/
def Names (z : Taken Req Req.Ans Exn World) (k : Key) : Prop :=
  match z, k with
  | ⟨.scanHosts _, .ok names, _, _⟩, .host h => h ∈ names
  | ⟨.scanSchemas _, .ok names, _, _⟩, .schema n => n ∈ names
  | _, _ => False

/-- The scans name every key that is there throughout. -/
def ScansComplete (l : Log) : Prop :=
  ∀ k, (∀ z ∈ l, Scans z.op k → z.pre.snap k ≠ none ∧ z.post.snap k ≠ none) → ∃ z ∈ l, Names z k

/-- The requests that were added are no pages of a scan. -/
def Quiet (l l' : Log) : Prop := ∀ z ∈ l', z ∈ l ∨ ∀ k, ¬ Scans z.op k

/-- Nothing was added. -/
theorem Quiet.refl (l : Log) : Quiet l l := fun _ hz => .inl hz

/-- Requests that are no pages of a scan, added twice, are none. -/
theorem Quiet.trans {l l' l'' : Log} (h : Quiet l l') (h' : Quiet l' l'') : Quiet l l'' := by
  intro z hz
  rcases h' z hz with hz | hz
  · exact h z hz
  · exact .inr hz

/-- A request that is no page of a scan was added. -/
theorem Quiet.cons (l : Log) {z : Taken Req Req.Ans Exn World} (hz : ∀ k, ¬ Scans z.op k) :
    Quiet l (z :: l) := by
  intro y hy
  rcases List.mem_cons.mp hy with rfl | hy
  · exact .inr hz
  · exact .inl hy

/-- What follows a request that is no page of a scan. -/
theorem Quiet.after {l l' : Log} {z : Taken Req Req.Ans Exn World} (h : Quiet (z :: l) l')
    (hz : ∀ k, ¬ Scans z.op k) : Quiet l l' := (Quiet.cons l hz).trans h

section Requests

variable {p : Pid} {l : Log} {s : World}

/-- A request is answered after a while; `RENAME` alone can fail. -/
theorem yields_call {op : Req} {Q : Log → World → Except Exn op.Ans → Prop} (hop : op ≠ .rename)
    (h : ∀ n a ks, s.now ≤ n → op.Answers ks p { s with now := n } a →
      Q (⟨op, .ok a, s, op.apply p { s with now := n }⟩ :: l) (op.apply p { s with now := n })
        (.ok a)) : Yields p (call op) l s Q := by
  intro r s' hsem
  obtain ⟨ks, n, hn, hexec⟩ := hsem
  refine ⟨trivial, ?_⟩
  cases r with
  | error e => exact absurd hexec.1 hop
  | ok a =>
    obtain ⟨hanswers, _, rfl⟩ := hexec
    exact h n a ks hn hanswers

/-- The same in front of what follows. -/
theorem yields_call_bind {α : Type} {op : Req} {f : op.Ans → Prog α}
    {Q : Log → World → Except Exn α → Prop} (hop : op ≠ .rename)
    (h : ∀ n a ks, s.now ≤ n → op.Answers ks p { s with now := n } a →
      Yields p (f a) (⟨op, .ok a, s, op.apply p { s with now := n }⟩ :: l)
        (op.apply p { s with now := n }) Q) : Yields p (call op >>= f) l s Q := by
  rw [Yields, Program.ensures_bind]
  exact yields_call hop h

private theorem yields_rename {Q : Log → World → Except Exn Unit → Prop} (hnew : s.hostsNew ≠ ∅)
    (h : ∀ n, s.now ≤ n → Q (⟨.rename, .ok (), s, World.rename { s with now := n }⟩ :: l)
      (World.rename { s with now := n }) (.ok ())) : Yields p (call .rename) l s Q := by
  intro r s' hsem
  obtain ⟨ks, n, hn, hexec⟩ := hsem
  refine ⟨trivial, ?_⟩
  cases r with
  | error e => exact absurd hexec.2.1 hnew
  | ok a =>
    obtain ⟨_, _, rfl⟩ := hexec
    exact h n hn

end Requests

/-! ### Writing snapshots -/

section Writing

variable {cfg : Settings} {p : Pid} {l l' l'' : Log} {s s' s'' : World}
  {W W' : Key → TenantSnapshot → Prop}

/-- The snapshots `W` names were written with the time to live of their status, and no others. -/
structure Puts (cfg : Settings) (W : Key → TenantSnapshot → Prop) (s s' : World) : Prop where
  now : s.now ≤ s'.now
  key : ∀ k, (∃ t n, W k t ∧ s.now ≤ n ∧ n ≤ s'.now ∧
      s'.snaps k = some (.lasting n (.positive t) (cfg.ttlFor t))) ∨
    (∀ t, ¬ W k t) ∧ s'.snaps k = s.snaps k

/-- Where nothing was written, no snapshot was. -/
theorem Puts.nothing (hnow : s.now ≤ s'.now) (hsnaps : s'.snaps = s.snaps) (hW : ∀ k t, ¬ W k t) :
    Puts cfg W s s' :=
  ⟨hnow, fun k => .inr ⟨hW k, congrFun hsnaps k⟩⟩

/-- What was written twice are the snapshots of both times. -/
theorem Puts.trans (h : Puts cfg W s s') (h' : Puts cfg W' s' s'') :
    Puts cfg (fun k t => W k t ∨ W' k t) s s'' := by
  refine ⟨h.now.trans h'.now, fun k => ?_⟩
  rcases h'.key k with ⟨t, n, hW, hn, hn', hk⟩ | ⟨hnot', hk'⟩
  · exact .inl ⟨t, n, .inr hW, h.now.trans hn, hn', hk⟩
  · rcases h.key k with ⟨t, n, hW, hn, hn', hk⟩ | ⟨hnot, hk⟩
    · exact .inl ⟨t, n, .inl hW, hn, hn'.trans h'.now, hk'.trans hk⟩
    · refine .inr ⟨fun t ht => ht.elim (hnot t) (hnot' t), hk'.trans hk⟩

/-- It is enough that what was written is named, and that something was written under every key
that is named. -/
theorem Puts.adapt (h : Puts cfg W s s') (hW : ∀ k t, W k t → W' k t)
    (hW' : ∀ k t, W' k t → ∃ t', W k t') : Puts cfg W' s s' := by
  refine ⟨h.now, fun k => ?_⟩
  rcases h.key k with ⟨t, n, hk, hrest⟩ | ⟨hnot, hk⟩
  · exact .inl ⟨t, n, hW k t hk, hrest⟩
  · refine .inr ⟨fun t ht => ?_, hk⟩
    obtain ⟨t', ht'⟩ := hW' k t ht
    exact hnot t' ht'

/-- Snapshots were written and nothing else. -/
structure PutOnly (cfg : Settings) (W : Key → TenantSnapshot → Prop) (l : Log) (s : World) (l' : Log)
    (s' : World) : Prop where
  quiet : Quiet l l'
  puts : Puts cfg W s s'
  frame : s' = { s with now := s'.now, snaps := s'.snaps }

/-- What was written twice are the snapshots of both times, and nothing else. -/
theorem PutOnly.trans (h : PutOnly cfg W l s l' s') (h' : PutOnly cfg W' l' s' l'' s'') :
    PutOnly cfg (fun k t => W k t ∨ W' k t) l s l'' s'' := by
  refine ⟨h.quiet.trans h'.quiet, h.puts.trans h'.puts, ?_⟩
  rw [h'.frame, h.frame]

/-- Where nothing was done, no snapshot was written. -/
theorem PutOnly.nothing (hW : ∀ k t, ¬ W k t) : PutOnly cfg W l s l s :=
  ⟨.refl l, .nothing (Nat.le_refl _) rfl hW, rfl⟩

/-- The snapshots that were written can be named anew, as long as the keys are the same. -/
theorem PutOnly.adapt (h : PutOnly cfg W l s l' s') (hW : ∀ k t, W k t → W' k t)
    (hW' : ∀ k t, W' k t → ∃ t', W k t') : PutOnly cfg W' l s l' s' :=
  ⟨h.quiet, h.puts.adapt hW hW', h.frame⟩

/-- The snapshots that were written can be named by an equivalent condition. -/
theorem PutOnly.congr (h : PutOnly cfg W l s l' s') (hW : ∀ k t, W' k t ↔ W k t) :
    PutOnly cfg W' l s l' s' :=
  h.adapt (fun k t => (hW k t).2) fun k t ht => ⟨t, (hW k t).1 ht⟩

/-- One `SET`. -/
theorem PutOnly.set {k : Key} {t : TenantSnapshot} {n : Nat} (hn : s.now ≤ n) :
    PutOnly cfg (fun k' t' => (k', t') = (k, t)) l s
      (⟨.set k (.positive t) (cfg.ttlFor t), .ok (), s,
        Req.apply p { s with now := n } (.set k (.positive t) (cfg.ttlFor t))⟩ :: l)
      (Req.apply p { s with now := n } (.set k (.positive t) (cfg.ttlFor t))) where
  quiet := .cons l (not_scans nofun nofun)
  puts := by
    refine ⟨hn, fun k' => ?_⟩
    by_cases hk : k' = k
    · subst hk
      exact .inl ⟨t, n, rfl, hn, Nat.le_refl _, TtlStore.set_self⟩
    · refine .inr ⟨fun t' ht' => hk (congrArg Prod.fst ht'), TtlStore.set_of_ne hk⟩
  frame := rfl

private theorem setMany_yields {ttl : Option Nat} (kts : List (Key × TenantSnapshot))
    (httl : ∀ kt ∈ kts, cfg.ttlFor kt.2 = ttl) :
    Yields p (setMany ttl (kts.map fun kt => (kt.1, .positive kt.2))) l s fun l' s' r =>
      r = .ok () ∧ PutOnly cfg (fun k t => (k, t) ∈ kts) l s l' s' := by
  induction kts generalizing l s with
  | nil => exact ⟨rfl, .nothing fun _ _ => List.not_mem_nil⟩
  | cons kt kts ih =>
    obtain ⟨k, t⟩ := kt
    obtain rfl := httl (k, t) List.mem_cons_self
    refine yields_call_bind nofun fun n _ ks hn _ => ?_
    refine (ih fun kt hkt => httl kt (List.mem_cons_of_mem _ hkt)).mono ?_
    rintro l' s' r ⟨rfl, hput⟩
    refine ⟨rfl, ((PutOnly.set hn).trans hput).congr fun k' t' => ?_⟩
    exact List.mem_cons

private theorem nodup_eraseDups {κ : Type} [BEq κ] [LawfulBEq κ] (ks : List κ) : ks.eraseDups.Nodup := by
  induction hlen : ks.length using Nat.strong_induction_on generalizing ks with
  | _ n ih =>
    cases ks with
    | nil => exact List.nodup_nil
    | cons k ks =>
      rw [List.eraseDups_cons]
      refine List.nodup_cons.mpr ⟨?_, ih _ ?_ _ rfl⟩
      · rw [List.mem_eraseDups, List.mem_filter]
        rintro ⟨_, hk⟩
        simp at hk
      · rw [← hlen, List.length_cons]
        exact Nat.lt_succ_of_le (List.length_filter_le _ _)

private theorem sum_indicator {κ : Type} [DecidableEq κ] {ks : List κ} (hks : ks.Nodup) {k : κ}
    (hk : k ∈ ks) : (ks.map fun j => if k = j then 1 else 0).sum = 1 := by
  induction ks with
  | nil => cases hk
  | cons j ks ih =>
    obtain ⟨hj, hks⟩ := List.nodup_cons.mp hks
    rw [List.map_cons, List.sum_cons]
    rcases List.mem_cons.mp hk with rfl | hk
    · have hzero : ks.map (fun j => if k = j then 1 else 0) = ks.map fun _ => 0 := by
        refine List.map_congr_left fun j hjs => if_neg ?_
        rintro rfl
        exact hj hjs
      simp [hzero]
    · have hne : k ≠ j := fun h => hj (h ▸ hk)
      rw [if_neg hne, ih hks hk]

/-- The sizes of the groups of a list by a key add up to its length. -/
theorem sum_groups {α κ : Type} [DecidableEq κ] (f : α → κ) {ks : List κ} (hks : ks.Nodup)
    (xs : List α) (hall : ∀ x ∈ xs, f x ∈ ks) :
    (ks.map fun k => (xs.filter fun x => f x = k).length).sum = xs.length := by
  induction xs with
  | nil => simp
  | cons x xs ih =>
    have hsize : ∀ k, ((x :: xs).filter fun y => f y = k).length =
        (xs.filter fun y => f y = k).length + if f x = k then 1 else 0 := by
      intro k
      by_cases hk : f x = k <;> simp [hk]
    simp only [hsize]
    rw [List.sum_map_add, ih fun y hy => hall y (List.mem_cons_of_mem _ hy),
      sum_indicator hks (hall x List.mem_cons_self), List.length_cons]

private theorem putGroups_yields (keyed : List (Key × TenantSnapshot)) (ttls : List (Option Nat)) :
    Yields p (putGroups cfg keyed ttls) l s fun l' s' r =>
      r = .ok (ttls.map fun ttl => (keyed.filter fun kt => cfg.ttlFor kt.2 = ttl).length).sum ∧
        PutOnly cfg (fun k t => (k, t) ∈ keyed ∧ cfg.ttlFor t ∈ ttls) l s l' s' := by
  induction ttls generalizing l s with
  | nil => exact ⟨rfl, .nothing fun _ _ h => List.not_mem_nil h.2⟩
  | cons ttl ttls ih =>
    rw [putGroups, Yields, Program.ensures_bind]
    have httl : ∀ kt ∈ keyed.filter fun kt => cfg.ttlFor kt.2 = ttl, cfg.ttlFor kt.2 = ttl :=
      fun kt hkt => of_decide_eq_true (List.mem_filter.mp hkt).2
    refine (setMany_yields _ httl).mono ?_
    rintro l₁ s₁ _ ⟨rfl, hput₁⟩
    rw [Program.onOutcome_ok, Program.ensures_bind]
    refine ih.mono ?_
    rintro l₂ s₂ _ ⟨rfl, hput₂⟩
    refine ⟨rfl, (hput₁.trans hput₂).congr fun k t => ?_⟩
    simp only [List.mem_filter, List.mem_cons, decide_eq_true_eq]
    constructor
    · rintro ⟨hkt, ht | ht⟩
      · exact .inl ⟨hkt, ht⟩
      · exact .inr ⟨hkt, ht⟩
    · rintro (⟨hkt, ht⟩ | ⟨hkt, ht⟩)
      · exact ⟨hkt, .inl ht⟩
      · exact ⟨hkt, .inr ht⟩

/-- `_put_many_by_ttl` writes every item, and counts it. -/
theorem putManyByTtl_yields (hwarm : cfg.warmEnabled = true) (keyed : List (Key × TenantSnapshot)) :
    Yields p (putManyByTtl cfg keyed) l s fun l' s' r =>
      r = .ok keyed.length ∧ PutOnly cfg (fun k t => (k, t) ∈ keyed) l s l' s' := by
  have hon : cfg.positiveOff = false := by simp [Settings.positiveOff, hwarm]
  rw [putManyByTtl, hon, if_neg Bool.false_ne_true]
  refine (putGroups_yields keyed _).mono ?_
  rintro l' s' _ ⟨rfl, hput⟩
  have hall : ∀ kt ∈ keyed, cfg.ttlFor kt.2 ∈ (keyed.map fun kt => cfg.ttlFor kt.2).eraseDups :=
    fun kt hkt => List.mem_eraseDups.mpr (List.mem_map_of_mem hkt)
  refine ⟨?_, hput.congr fun k t => ?_⟩
  · rw [sum_groups (fun kt : Key × TenantSnapshot => cfg.ttlFor kt.2) (nodup_eraseDups _) keyed hall]
  · exact ⟨fun hkt => ⟨hkt, hall (k, t) hkt⟩, And.left⟩

/-- Every tenant of a batch has its schema among the distinct ones, and there are no others. -/
theorem mem_distinctTenants {ts : List TenantSnapshot} {t : TenantSnapshot}
    (ht : t ∈ distinctTenants ts) : t ∈ ts := by
  obtain ⟨n, _, hn⟩ := List.mem_filterMap.mp ht
  exact List.mem_reverse.mp (List.mem_of_find?_eq_some hn)

private theorem exists_distinctTenants {ts : List TenantSnapshot} {t : TenantSnapshot} (ht : t ∈ ts) :
    ∃ u ∈ distinctTenants ts, u.schemaName = t.schemaName := by
  cases hu : ts.reverse.find? (·.schemaName = t.schemaName) with
  | none =>
    have := List.find?_eq_none.mp hu t (List.mem_reverse.mpr ht)
    simp at this
  | some u =>
    refine ⟨u, List.mem_filterMap.mpr ⟨t.schemaName, ?_, hu⟩, ?_⟩
    · exact List.mem_eraseDups.mpr (List.mem_map_of_mem ht)
    · have hname := List.find?_some hu
      exact of_decide_eq_true hname

end Writing

/-! ### The rounds -/

section Rounds

variable {cfg : Settings} {p : Pid} {l l' l'' : Log} {s s' s'' : World} {rows rows' : List DomainRow}

/-- Rows were added to the set that is built, and their snapshots were written. -/
structure Built (cfg : Settings) (rows : List DomainRow) (l : Log) (s : World) (l' : Log)
    (s' : World) : Prop where
  quiet : Quiet l l'
  puts : Puts cfg (WritesSnap rows) s s'
  frame : s' = { s with
    now := s'.now
    snaps := s'.snaps
    hostsNew := s.hostsNew ∪ (hostsOfRows rows).toFinset }

/-- Two lists of rows write the snapshots of both. -/
theorem writesSnap_append {k : Key} {t : TenantSnapshot} :
    WritesSnap (rows ++ rows') k t ↔ WritesSnap rows k t ∨ WritesSnap rows' k t := by
  simp only [WritesSnap, List.mem_append, or_and_right, exists_or]

/-- No rows were added. -/
theorem Built.nothing : Built cfg [] l s l s where
  quiet := .refl l
  puts := .nothing (Nat.le_refl _) rfl fun k t h => by
    obtain ⟨r, hr, _⟩ := h
    cases hr
  frame := by
    change s = { s with hostsNew := s.hostsNew ∪ ∅ }
    rw [Finset.union_empty]

/-- Rows that were added twice were added together. -/
theorem Built.trans (h : Built cfg rows l s l' s') (h' : Built cfg rows' l' s' l'' s'') :
    Built cfg (rows ++ rows') l s l'' s'' where
  quiet := h.quiet.trans h'.quiet
  puts := (h.puts.trans h'.puts).adapt (fun _ _ => writesSnap_append.2)
    fun _ t ht => ⟨t, writesSnap_append.1 ht⟩
  frame := by
    rw [h'.frame, h.frame]
    simp only [hostsOfRows, List.map_append, List.toFinset_append, Finset.union_assoc]

/-- The keys of a batch are those its two calls of `_put_many_by_ttl` write. -/
theorem puts_batch {batch : List DomainRow} {k : Key} {t : TenantSnapshot} :
    ((k, t) ∈ batch.map (fun d => (Key.host d.domain, d.tenant)) ∨
      (k, t) ∈ (distinctTenants (batch.map DomainRow.tenant)).map fun t => (Key.schema t.schemaName, t)) →
      WritesSnap batch k t := by
  rintro (h | h)
  · obtain ⟨d, hd, he⟩ := List.mem_map.mp h
    cases he
    exact ⟨d, hd, rfl, .inl rfl⟩
  · obtain ⟨u, hu, he⟩ := List.mem_map.mp h
    cases he
    obtain ⟨d, hd, rfl⟩ := List.mem_map.mp (mem_distinctTenants hu)
    exact ⟨d, hd, rfl, .inr rfl⟩

private theorem batch_puts {batch : List DomainRow} {k : Key} {t : TenantSnapshot}
    (h : WritesSnap batch k t) : ∃ u,
      (k, u) ∈ batch.map (fun d => (Key.host d.domain, d.tenant)) ∨
      (k, u) ∈ (distinctTenants (batch.map DomainRow.tenant)).map fun t => (Key.schema t.schemaName, t) := by
  obtain ⟨d, hd, rfl, rfl | rfl⟩ := h
  · exact ⟨d.tenant, .inl (List.mem_map_of_mem hd)⟩
  · obtain ⟨u, hu, hname⟩ := exists_distinctTenants (List.mem_map_of_mem (f := DomainRow.tenant) hd)
    refine ⟨u, .inr (List.mem_map.mpr ⟨u, hu, ?_⟩)⟩
    rw [hname]

/-- Flushing a batch returns its size, and adds its rows. -/
theorem flush_yields (hwarm : cfg.warmEnabled = true) (batch : List DomainRow) :
    Yields p (flush cfg batch) l s fun l' s' r =>
      r = .ok batch.length ∧ Built cfg batch l s l' s' := by
  unfold flush
  split
  · rename_i hnil
    subst hnil
    exact ⟨rfl, .nothing⟩
  · refine yields_call_bind nofun fun n _ _ hn _ => ?_
    rw [Yields, Program.ensures_bind]
    refine (putManyByTtl_yields hwarm _).mono ?_
    rintro l₁ s₁ _ ⟨rfl, hput₁⟩
    rw [Program.onOutcome_ok, Program.ensures_bind]
    refine (putManyByTtl_yields hwarm _).mono ?_
    rintro l₂ s₂ _ ⟨rfl, hput₂⟩
    have hput := hput₁.trans hput₂
    refine ⟨?_, ?_, ?_, ?_⟩
    · simp
    · exact hput.quiet.after (not_scans nofun nofun)
    · have hadd : Puts cfg (fun _ _ => False) s
          (Req.apply p { s with now := n } (.saddNew (batch.map DomainRow.domain))) :=
        .nothing hn rfl fun _ _ => id
      refine (hadd.trans hput.puts).adapt (fun k t ht => ?_) fun k t ht => ?_
      · exact puts_batch (ht.resolve_left id)
      · obtain ⟨u, hu⟩ := batch_puts ht
        exact ⟨u, .inr hu⟩
    · rw [hput.frame]
      rfl

/-- The loop of `_rebuild_once` handles every row, in whatever chunks. -/
theorem rebuildRows_yields (hwarm : cfg.warmEnabled = true) (rows batch : List DomainRow) :
    Yields p (rebuildRows cfg rows batch) l s fun l' s' r =>
      r = .ok (batch.length + rows.length) ∧ Built cfg (batch ++ rows) l s l' s' := by
  induction rows generalizing batch l s with
  | nil =>
    rw [rebuildRows, List.append_nil]
    exact flush_yields hwarm batch
  | cons d rows ih =>
    rw [rebuildRows]
    split
    · rw [Yields, Program.ensures_bind]
      refine (flush_yields hwarm _).mono ?_
      rintro l₁ s₁ _ ⟨rfl, hbuilt₁⟩
      rw [Program.onOutcome_ok, Program.ensures_bind]
      refine (ih []).mono ?_
      rintro l₂ s₂ _ ⟨rfl, hbuilt₂⟩
      refine ⟨?_, ?_⟩
      · simp
        omega
      · have hboth := hbuilt₁.trans hbuilt₂
        rwa [List.append_assoc, List.nil_append] at hboth
    · refine (ih (batch ++ [d])).mono ?_
      rintro l₁ s₁ _ ⟨rfl, hbuilt⟩
      refine ⟨?_, ?_⟩
      · simp
        omega
      · rwa [List.append_assoc] at hbuilt

/-- The snapshots that a rebuild from a database writes. -/
def Database.Caches (db : Database) : Key → TenantSnapshot → Prop
  | .host h, t => db.rowOf h = some t
  | .schema n, t => t.schemaName = n ∧ t ∈ db.tenants ∧ ∃ d ∈ db.domains, d.tenantId = t.id

/-- The rows of the tables write the snapshots that a rebuild from them does. -/
theorem writesSnap_iff {db : Database} (hrows : rows.Perm db.domainRows) {k : Key}
    {t : TenantSnapshot} : WritesSnap rows k t ↔ db.Caches k t := by
  have hrow : ∀ r, r ∈ rows ↔ db.rowOf r.domain = some r.tenant :=
    fun r => hrows.mem_iff.trans Database.mem_domainRows
  constructor
  · rintro ⟨r, hr, rfl, rfl | rfl⟩
    · exact (hrow r).1 hr
    · obtain ⟨d, hd, _, ht, hid⟩ := Database.rowOf_eq_some.1 ((hrow r).1 hr)
      exact ⟨rfl, ht, d, hd, hid.symm⟩
  · intro hc
    cases k with
    | host h => exact ⟨⟨h, t⟩, (hrow _).2 hc, rfl, .inl rfl⟩
    | schema n =>
      obtain ⟨rfl, ht, d, hd, hid⟩ := hc
      have hmem : db.rowOf d.domain = some t :=
        Database.rowOf_eq_some.2 ⟨d, hd, rfl, ht, hid.symm⟩
      exact ⟨⟨d.domain, t⟩, (hrow _).2 hmem, rfl, .inr rfl⟩

/-- `treg:hosts` as a rebuild leaves it. -/
def hostsCell (S : Finset Host) : Option (Cell (Finset Host)) :=
  if S = ∅ then none else some ⟨S, none⟩

/-- A rebuild from rows is complete. -/
structure Rebuilt (cfg : Settings) (rows : List DomainRow) (l : Log) (s : World) (l' : Log)
    (s' : World) : Prop where
  quiet : Quiet l l'
  puts : Puts cfg s.db.Caches s s'
  frame : s' = { s with
    now := s'.now
    snaps := s'.snaps
    hosts := hostsCell (hostsOfRows rows).toFinset
    hostsNew := ∅ }

/-- The set that was built is put in place. -/
theorem swap_yields {α : Type} {present : Bool} {f : Unit → Prog α}
    {Q : Log → World → Except Exn α → Prop} (hpresent : present = decide (s.hostsNew ≠ ∅))
    (h : ∀ l' s', Quiet l l' → s.now ≤ s'.now → s' = { s with
        now := s'.now
        hosts := hostsCell s.hostsNew
        hostsNew := ∅ } → Yields p (f ()) l' s' Q) :
    Yields p (if present then call .rename >>= f else call .deleteHosts >>= f) l s Q := by
  by_cases hnew : s.hostsNew = ∅
  · rw [hpresent, decide_eq_false (not_not_intro hnew), if_neg Bool.false_ne_true]
    refine yields_call_bind nofun fun n _ _ hn _ => h _ _ (.cons l (not_scans nofun nofun)) hn ?_
    rw [hostsCell, if_pos hnew]
    change _ = { s with now := n, hosts := none, hostsNew := ∅ }
    rw [← hnew]
    rfl
  · rw [hpresent, decide_eq_true hnew, if_pos rfl, Yields, Program.ensures_bind]
    refine yields_rename hnew fun n hn => h _ _ (.cons l (not_scans nofun nofun)) hn ?_
    rw [hostsCell, if_neg hnew]
    rfl

private theorem rebuildOnce_yields (hwarm : cfg.warmEnabled = true) :
    Yields p (rebuildOnce cfg) l s fun l' s' r => ∃ rows, rows.Perm s.db.domainRows ∧
      r = .ok (rows.length, hostsOfRows rows) ∧ Rebuilt cfg rows l s l' s' := by
  unfold rebuildOnce
  refine yields_call_bind nofun fun n₁ _ _ hn₁ _ => ?_
  refine yields_call_bind nofun fun n₂ rows ks hn₂ hrows => ?_
  rw [Yields, Program.ensures_bind]
  refine (rebuildRows_yields hwarm rows []).mono ?_
  rintro l₁ s₁ _ ⟨rfl, hbuilt⟩
  rw [Program.onOutcome_ok]
  refine yields_call_bind nofun fun n₃ present _ hn₃ hpresent => ?_
  refine swap_yields hpresent fun l₂ s₂ hquiet hnow hs₂ => ?_
  have hnew : s₁.hostsNew = (hostsOfRows rows).toFinset := by
    rw [hbuilt.frame]
    exact Finset.empty_union _
  refine ⟨rows, hrows, ?_, ?_, ?_, ?_⟩
  · simp
  · have hread := hbuilt.quiet.trans (hquiet.after (not_scans nofun nofun))
    exact (hread.after (not_scans nofun nofun)).after (not_scans nofun nofun)
  · have hbefore : Puts cfg (fun _ _ => False) s (Req.apply p { s with now := n₂ } .deleteNew) :=
      .nothing (hn₁.trans hn₂) rfl fun _ _ => id
    have hafter : Puts cfg (fun _ _ => False) s₁ s₂ :=
      .nothing (hn₃.trans hnow) (by rw [hs₂]; rfl) fun _ _ => id
    refine ((hbefore.trans hbuilt.puts).trans hafter).adapt (fun k t ht => ?_) fun k t ht => ?_
    · rcases ht with (ht | ht) | ht
      · exact ht.elim
      · exact (writesSnap_iff hrows).1 ht
      · exact ht.elim
    · exact ⟨t, .inl (.inr ((writesSnap_iff hrows).2 ht))⟩
  · rw [hs₂]
    simp only [Req.apply]
    rw [hnew, hbuilt.frame]
    rfl

/-- A round that follows another leaves what it would have left alone. -/
theorem Rebuilt.trans (h : Rebuilt cfg rows l s l' s') (h' : Rebuilt cfg rows' l' s' l'' s'') :
    Rebuilt cfg rows' l s l'' s'' where
  quiet := h.quiet.trans h'.quiet
  puts := by
    have hdb : s'.db = s.db := by rw [h.frame]
    have hputs' := h'.puts
    rw [hdb] at hputs'
    exact (h.puts.trans hputs').adapt (fun k t ht => ht.elim id id) fun k t ht => ⟨t, .inl ht⟩
  frame := by rw [h'.frame, h.frame]

/-- The counter is read before and after. -/
theorem Rebuilt.counted {n n' : Nat} {z : Taken Req Req.Ans Exn World}
    (h : Rebuilt cfg rows (z :: l) { s with now := n } l' s') (z' : Taken Req Req.Ans Exn World)
    (hn : s.now ≤ n) (hn' : s'.now ≤ n') (hz : ∀ k, ¬ Scans z.op k) (hz' : ∀ k, ¬ Scans z'.op k) :
    Rebuilt cfg rows l s (z' :: l') { s' with now := n' } where
  quiet := ((Quiet.cons l hz).trans h.quiet).trans (.cons l' hz')
  puts := by
    have hbefore : Puts cfg (fun _ _ => False) s { s with now := n } :=
      .nothing hn rfl fun _ _ => id
    have hafter : Puts cfg (fun _ _ => False) s' { s' with now := n' } :=
      .nothing hn' rfl fun _ _ => id
    refine ((hbefore.trans h.puts).trans hafter).adapt (fun k t ht => ?_) fun k t ht => ?_
    · exact (ht.resolve_right id).resolve_left id
    · exact ⟨t, .inl (.inr ht)⟩
  frame := by rw [h.frame]

/-- What the rounds leave. -/
def RoundsLeave (cfg : Settings) (l : Log) (s : World) (l' : Log) (s' : World)
    (r : Except Exn (Nat × List Host)) : Prop :=
  ∃ rows, rows.Perm s.db.domainRows ∧ r = .ok (rows.length, hostsOfRows rows) ∧
    Rebuilt cfg rows l s l' s'

/-- A round leaves the image of the tables, whether or not others follow. -/
theorem round_yields (hwarm : cfg.warmEnabled = true) (left : Nat)
    (hmore : left ≠ 0 → ∀ l s, Yields p (rounds cfg left) l s (RoundsLeave cfg l s)) :
    Yields p (rounds cfg (left + 1)) l s (RoundsLeave cfg l s) := by
  rw [rounds]
  refine yields_call_bind nofun fun n₁ before _ hn₁ _ => ?_
  rw [Yields, Program.ensures_bind]
  refine (rebuildOnce_yields hwarm).mono ?_
  rintro l₁ s₁ _ ⟨rows, hrows, rfl, hbuilt⟩
  rw [Program.onOutcome_ok]
  refine yields_call_bind nofun fun n₂ after _ hn₂ _ => ?_
  have hround := hbuilt.counted ⟨.getDirty, .ok after, s₁, { s₁ with now := n₂ }⟩ hn₁ hn₂
    (not_scans nofun nofun) (not_scans nofun nofun)
  split
  · exact ⟨rows, hrows, rfl, hround⟩
  · rename_i hgo
    refine (hmore (fun hleft => hgo (.inr hleft)) _ _).mono ?_
    rintro l₂ s₂ _ ⟨rows', hrows', rfl, hrest⟩
    have hdb : s₁.db = s.db := by
      rw [hbuilt.frame]
      rfl
    refine ⟨rows', ?_, rfl, hround.trans hrest⟩
    rw [← hdb]
    exact hrows'

private theorem rounds_yields (hwarm : cfg.warmEnabled = true) (left : Nat) :
    Yields p (rounds cfg (left + 1)) l s (RoundsLeave cfg l s) := by
  induction left generalizing l s with
  | zero => exact round_yields hwarm 0 fun h => absurd rfl h
  | succ left ih => exact round_yields hwarm (left + 1) fun _ l s => ih

end Rounds

/-! ### The sweep -/

section Sweep

variable {cfg : Settings} {p : Pid} {l l' l'' : Log} {s s' s'' : World} {V : Key → Prop}
  {pending pending' : List Key}

/-- What a sweep does: positive snapshots outside `V` are dropped and nothing else. -/
structure Swept (V : Key → Prop) (s s' : World) : Prop where
  now : s.now ≤ s'.now
  key : ∀ k, s'.snaps k = s.snaps k ∨
    s'.snaps k = none ∧ ¬ V k ∧ ∃ c t, s.snaps k = some c ∧ c.value = .positive t
  frame : s' = { s with now := s'.now, snaps := s'.snaps }

/-- Nothing was swept. -/
theorem Swept.refl (s : World) : Swept V s s := ⟨Nat.le_refl _, fun _ => .inl rfl, rfl⟩

/-- What is swept twice is swept. -/
theorem Swept.trans (h : Swept V s s') (h' : Swept V s' s'') : Swept V s s'' where
  now := h.now.trans h'.now
  key k := by
    rcases h'.key k with hk' | ⟨hnone, hV, c, t, hc, ht⟩
    · rcases h.key k with hk | ⟨hnone, hrest⟩
      · exact .inl (hk'.trans hk)
      · exact .inr ⟨hk'.trans hnone, hrest⟩
    · rcases h.key k with hk | ⟨hnone', _⟩
      · exact .inr ⟨hnone, hV, c, t, hk.symm.trans hc, ht⟩
      · rw [hnone'] at hc
        cases hc
  frame := by rw [h'.frame, h.frame]

/-- Waiting sweeps nothing. -/
theorem Swept.wait {n : Nat} (hn : s.now ≤ n) : Swept V s { s with now := n } :=
  ⟨hn, fun _ => .inl rfl, rfl⟩

/-- A sweep makes no snapshot visible. -/
theorem Swept.snap (h : Swept V s s') {k : Key} {e : Cached TenantSnapshot}
    (he : s'.snap k = some e) : s.snap k = some e := by
  rcases h.key k with hk | ⟨hnone, _⟩
  · have hlater : Cell.peek s'.now (s.snaps k) = some e := by
      rw [← hk]
      exact he
    exact Cell.peek_of_later h.now hlater
  · rw [World.snap, TtlStore.get, hnone] at he
    cases he

/-- Every positive snapshot outside `V` was there during the scans so far, and if one of them
named it, it is still to be dealt with. -/
def Tidy (V : Key → Prop) (pending : List Key) (l : Log) (s : World) : Prop :=
  ∀ k t, ¬ V k → s.snap k = some (.positive t) → ∀ z ∈ l, Scans z.op k →
    z.pre.snap k ≠ none ∧ z.post.snap k ≠ none ∧ (Names z k → k ∈ pending)

/-- The sweep goes on without a scan: what is no longer pending is no longer positive. -/
theorem Tidy.step (h : Tidy V pending l s) (hs : Swept V s s') (hl : Quiet l l')
    (hdone : ∀ k ∈ pending, ¬ V k → k ∉ pending' → ∀ t, s'.snap k ≠ some (.positive t)) :
    Tidy V pending' l' s' := by
  intro k t hV hk z hz hscan
  rcases hl z hz with hz | hz
  · obtain ⟨hpre, hpost, hnames⟩ := h k t hV (hs.snap hk) z hz hscan
    refine ⟨hpre, hpost, fun hnamed => ?_⟩
    by_contra hnot
    exact hdone k (hnames hnamed) hV hnot t hk
  · exact absurd hscan (hz k)

/-- A page of a scan is answered: what it names is pending. -/
theorem Tidy.scan {n : Nat} {z : Taken Req Req.Ans Exn World} (h : Tidy V pending l s)
    (hn : s.now ≤ n) (hpre : z.pre = s) (hpost : z.post = { s with now := n })
    (hold : ∀ k ∈ pending, k ∈ pending') (hnamed : ∀ k, ¬ V k → Names z k → k ∈ pending') :
    Tidy V pending' (z :: l) { s with now := n } := by
  intro k t hV hk y hy hscan
  have hbefore : s.snap k = some (.positive t) := (Swept.wait (V := V) hn).snap hk
  rcases List.mem_cons.mp hy with rfl | hy
  · refine ⟨?_, ?_, hnamed k hV⟩
    · rw [hpre, hbefore]
      exact Option.some_ne_none _
    · rw [hpost, hk]
      exact Option.some_ne_none _
  · obtain ⟨h₁, h₂, h₃⟩ := h k t hV hbefore y hy hscan
    exact ⟨h₁, h₂, fun hy => hold k (h₃ hy)⟩

/-- The orphans are the keys with a positive snapshot. -/
theorem mem_orphansOf {found : List (Key × Cached TenantSnapshot)} {k : Key} :
    k ∈ orphansOf found ↔ ∃ t, (k, Cached.positive t) ∈ found := by
  simp only [orphansOf, List.mem_map, List.mem_filter]
  constructor
  · rintro ⟨⟨k', e⟩, ⟨hmem, hpos⟩, rfl⟩
    cases e with
    | positive t => exact ⟨t, hmem⟩
    | negative | tombstone | corrupt => cases hpos
  · rintro ⟨t, hmem⟩
    exact ⟨(k, .positive t), ⟨hmem, rfl⟩, rfl⟩

/-- A bulk read finds the entries of its keys. -/
theorem mem_getMany {ks : List Key} {k : Key} {e : Cached TenantSnapshot} :
    (k, e) ∈ s.getMany ks ↔ k ∈ ks ∧ s.snap k = some e := by
  simp only [World.getMany, List.mem_filterMap, Option.map_eq_some_iff, Prod.mk.injEq]
  constructor
  · rintro ⟨k', hk', e', he', rfl, rfl⟩
    exact ⟨hk', he'⟩
  · rintro ⟨hk, he⟩
    exact ⟨k, hk, e, he, rfl, rfl⟩

/-- Dropping keys that are positive and outside `V`. -/
theorem Swept.erase {n : Nat} {ks : List Key} (hn : s.now ≤ n)
    (hks : ∀ k ∈ ks, ¬ V k ∧ ∃ t, s.snap k = some (.positive t)) :
    Swept V s (Req.apply p { s with now := n } (.deleteMany ks)) where
  now := hn
  key k := by
    by_cases hk : k ∈ ks
    · obtain ⟨hV, t, ht⟩ := hks k hk
      obtain ⟨e, hc, _⟩ := Cell.peek_eq_some.1 ht
      exact .inr ⟨TtlStore.erase_of_mem hk, hV, ⟨.positive t, e⟩, t, hc, rfl⟩
    · exact .inl (TtlStore.erase_of_notMem hk)
  frame := rfl

/-- What a part of the sweep leaves. -/
def SweepLeaves (V : Key → Prop) (s : World) (pending : List Key) (l' : Log) (s' : World) : Prop :=
  Swept V s s' ∧ Tidy V pending l' s'

/-- A batch of the sweep deals with its own keys and leaves the others pending. -/
theorem sweepBatch_yields {keys more : List Key} (hV : ∀ k ∈ keys, ¬ V k)
    (h : Tidy V (keys ++ more) l s) :
    Yields p (sweepBatch keys) l s fun l' s' r =>
      (∃ n, r = .ok n) ∧ SweepLeaves V s more l' s' := by
  unfold sweepBatch
  split
  · rename_i hnil
    subst hnil
    exact ⟨⟨0, rfl⟩, .refl s, h⟩
  · refine yields_call_bind nofun fun n found _ hn hfound => ?_
    obtain rfl : found = World.getMany { s with now := n } keys := hfound
    have horphan : ∀ k, k ∈ orphansOf (World.getMany { s with now := n } keys) ↔
        k ∈ keys ∧ ∃ t, World.snap { s with now := n } k = some (.positive t) := by
      intro k
      simp only [mem_orphansOf, mem_getMany, exists_and_left]
    dsimp only
    split
    · rename_i hnone
      refine ⟨⟨0, rfl⟩, .wait hn, h.step (.wait hn) (.cons l (not_scans nofun nofun)) ?_⟩
      intro k hk _ hmore t ht
      have hkey := (List.mem_append.mp hk).resolve_right hmore
      have hmem := (horphan k).2 ⟨hkey, t, ht⟩
      rw [hnone] at hmem
      cases hmem
    · refine yields_call_bind nofun fun n' _ _ hn' _ => ?_
      have herase : Swept V { s with now := n } _ := Swept.erase (p := p) hn' fun k hk => by
        obtain ⟨hmem, t, ht⟩ := (horphan k).1 hk
        exact ⟨hV k hmem, t, ht⟩
      have hswept := (Swept.wait hn).trans herase
      refine ⟨⟨_, rfl⟩, hswept, h.step hswept ?_ ?_⟩
      · refine Quiet.after (.cons _ ?_) ?_ <;> exact not_scans nofun nofun
      · intro k hk _ hmore t ht
        have hkey := (List.mem_append.mp hk).resolve_right hmore
        have hgone := (horphan k).2 ⟨hkey, t, herase.snap ht⟩
        rw [World.snap, TtlStore.get] at ht
        simp only [Req.apply, TtlStore.erase_of_mem hgone] at ht
        cases ht

/-- The names of a page are dealt with, or are left in the open batch. -/
theorem sweepNames_yields {keyFn : String → Key} {valid : List String}
    (hV : ∀ name, V (keyFn name) ↔ name ∈ valid) (names batch : List String)
    (hbatch : ∀ name ∈ batch, name ∉ valid)
    (h : Tidy V ((batch ++ names.filter (· ∉ valid)).map keyFn) l s) :
    Yields p (sweepNames cfg keyFn valid names batch) l s fun l' s' r =>
      ∃ rest n, r = .ok (rest, n) ∧ (∀ name ∈ rest, name ∉ valid) ∧
        SweepLeaves V s (rest.map keyFn) l' s' := by
  induction names generalizing batch l s with
  | nil =>
    rw [List.filter_nil, List.append_nil] at h
    exact ⟨batch, 0, rfl, hbatch, .refl s, h⟩
  | cons name names ih =>
    rw [sweepNames]
    by_cases hname : name ∈ valid
    · rw [if_pos hname]
      rw [List.filter_cons_of_neg (by simpa using hname)] at h
      exact ih batch hbatch h
    · rw [if_neg hname]
      rw [List.filter_cons_of_pos (by simpa using hname), List.append_cons] at h
      have hbatch' : ∀ x ∈ batch ++ [name], x ∉ valid := by
        intro x hx
        rcases List.mem_append.mp hx with hx | hx
        · exact hbatch x hx
        · rw [List.mem_singleton.mp hx]
          exact hname
      split
      · rw [List.map_append] at h
        rw [Yields, Program.ensures_bind]
        refine (sweepBatch_yields ?_ h).mono ?_
        · intro k hk
          obtain ⟨x, hx, rfl⟩ := List.mem_map.mp hk
          exact fun hVx => hbatch' x hx ((hV x).1 hVx)
        · rintro l₁ s₁ _ ⟨⟨n, rfl⟩, hswept₁, htidy₁⟩
          rw [Program.onOutcome_ok, Program.ensures_bind]
          refine (ih [] (fun x hx => absurd hx List.not_mem_nil) htidy₁).mono ?_
          rintro l₂ s₂ _ ⟨rest, m, rfl, hrest, hswept₂, htidy₂⟩
          exact ⟨rest, n + m, rfl, hrest, hswept₁.trans hswept₂, htidy₂⟩
      · exact ih (batch ++ [name]) hbatch' h

/-- A page of a scan leaves its names pending. -/
def ScanLeaves (V : Key → Prop) (keyFn : String → Key) (valid : List String)
    (scan : Nat → Prog (List String)) : Prop :=
  ∀ p i l s batch, Tidy V (batch.map keyFn) l s →
    Yields p (scan i) l s fun l' s' r => ∃ names, r = .ok names ∧
      SweepLeaves V s ((batch ++ names.filter (· ∉ valid)).map keyFn) l' s'

private theorem scanHosts_leaves {valid : List Host} (hV : ∀ name, V (.host name) ↔ name ∈ valid) :
    ScanLeaves V .host valid fun i => call (.scanHosts i) := by
  intro p i l s batch h
  refine yields_call nofun fun n names ks hn _ => ⟨names, rfl, .wait hn, ?_⟩
  refine h.scan hn rfl rfl (fun k hk => ?_) fun k hk hnamed => ?_
  · rw [List.map_append]
    exact List.mem_append_left _ hk
  · cases k with
    | schema m => exact hnamed.elim
    | host m =>
      refine List.mem_map_of_mem (List.mem_append_right _ (List.mem_filter.mpr ⟨hnamed, ?_⟩))
      exact decide_eq_true fun hm => hk ((hV m).2 hm)

private theorem scanSchemas_leaves {valid : List SchemaName}
    (hV : ∀ name, V (.schema name) ↔ name ∈ valid) :
    ScanLeaves V .schema valid fun i => call (.scanSchemas i) := by
  intro p i l s batch h
  refine yields_call nofun fun n names ks hn _ => ⟨names, rfl, .wait hn, ?_⟩
  refine h.scan hn rfl rfl (fun k hk => ?_) fun k hk hnamed => ?_
  · rw [List.map_append]
    exact List.mem_append_left _ hk
  · cases k with
    | host m => exact hnamed.elim
    | schema m =>
      refine List.mem_map_of_mem (List.mem_append_right _ (List.mem_filter.mpr ⟨hnamed, ?_⟩))
      exact decide_eq_true fun hm => hk ((hV m).2 hm)

/-- `_sweep_namespace` leaves no positive snapshot of what its scan named. -/
theorem sweepPages_yields {keyFn : String → Key} {valid : List String}
    {scan : Nat → Prog (List String)} (hV : ∀ name, V (keyFn name) ↔ name ∈ valid)
    (hscan : ScanLeaves V keyFn valid scan) (pages : List Nat) (batch : List String)
    (hbatch : ∀ name ∈ batch, name ∉ valid) (h : Tidy V (batch.map keyFn) l s) :
    Yields p (sweepPages cfg keyFn scan valid pages batch) l s fun l' s' r =>
      (∃ n, r = .ok n) ∧ SweepLeaves V s [] l' s' := by
  induction pages generalizing batch l s with
  | nil =>
    rw [sweepPages]
    refine sweepBatch_yields ?_ (by rwa [List.append_nil])
    intro k hk
    obtain ⟨x, hx, rfl⟩ := List.mem_map.mp hk
    exact fun hVx => hbatch x hx ((hV x).1 hVx)
  | cons i pages ih =>
    rw [sweepPages, Yields, Program.ensures_bind]
    refine (hscan p i l s batch h).mono ?_
    rintro l₁ s₁ _ ⟨names, rfl, hswept₁, htidy₁⟩
    rw [Program.onOutcome_ok, Program.ensures_bind]
    refine (sweepNames_yields hV names batch hbatch htidy₁).mono ?_
    rintro l₂ s₂ _ ⟨rest, n, rfl, hrest, hswept₂, htidy₂⟩
    rw [Program.onOutcome_ok, Program.ensures_bind]
    refine (ih rest hrest htidy₂).mono ?_
    rintro l₃ s₃ _ ⟨⟨m, rfl⟩, hswept₃, htidy₃⟩
    exact ⟨⟨n + m, rfl⟩, (hswept₁.trans hswept₂).trans hswept₃, htidy₃⟩

/-- The names that the sweep keeps. -/
def Listed (hosts : List Host) (schemas : List SchemaName) : Key → Prop
  | .host h => h ∈ hosts
  | .schema n => n ∈ schemas

private theorem sweepOrphans_yields {cfg : Config} {hosts : List Host} {schemas : List SchemaName}
    (h : Tidy (Listed hosts schemas) [] l s) :
    Yields p (sweepOrphans cfg hosts schemas) l s fun l' s' r =>
      (∃ n, r = .ok n) ∧ SweepLeaves (Listed hosts schemas) s [] l' s' := by
  unfold sweepOrphans
  have hnil : ∀ {valid : List String}, ∀ name ∈ ([] : List String), name ∉ valid :=
    fun name hname => absurd hname List.not_mem_nil
  rw [Yields, Program.ensures_bind]
  refine (sweepPages_yields (fun _ => Iff.rfl) (scanHosts_leaves fun _ => Iff.rfl) _ [] hnil h).mono ?_
  rintro l₁ s₁ _ ⟨⟨n, rfl⟩, hswept₁, htidy₁⟩
  rw [Program.onOutcome_ok, Program.ensures_bind]
  refine (sweepPages_yields (fun _ => Iff.rfl) (scanSchemas_leaves fun _ => Iff.rfl) _ [] hnil
    htidy₁).mono ?_
  rintro l₂ s₂ _ ⟨⟨m, rfl⟩, hswept₂, htidy₂⟩
  exact ⟨⟨n + m, rfl⟩, hswept₁.trans hswept₂, htidy₂⟩

/-- Once the scans are complete, no positive snapshot of an unknown name is left. -/
theorem Tidy.no_orphan (h : Tidy V [] l s) (hl : ScansComplete l) {k : Key} (hk : ¬ V k)
    (t : TenantSnapshot) : s.snap k ≠ some (.positive t) := by
  intro ht
  obtain ⟨z, hz, hnamed⟩ := hl k fun z hz hscan => by
    obtain ⟨hpre, hpost, _⟩ := h k t hk ht z hz hscan
    exact ⟨hpre, hpost⟩
  have hscan : Scans z.op k := by
    obtain ⟨op, a, s₁, s₂⟩ := z
    cases op with
    | scanHosts i =>
      cases k with
      | host m => trivial
      | schema m => cases a <;> exact hnamed.elim
    | scanSchemas i =>
      cases k with
      | schema m => trivial
      | host m => cases a <;> exact hnamed.elim
    | _ => cases k <;> exact hnamed.elim
  exact absurd ((h k t hk ht z hz hscan).2.2 hnamed) List.not_mem_nil

end Sweep

/-! ### The image -/

/-- Every domain row has its tenant joined in. -/
theorem Database.domainRows_hosts (db : Database) :
    hostsOfRows db.domainRows = db.domains.map Domain.domain := by
  have hall : ∀ ds : List Domain, (∀ d ∈ ds, d ∈ db.domains) → hostsOfRows (ds.filterMap fun d =>
      (db.tenantOf d.tenantId).map fun t => ⟨d.domain, t⟩) = ds.map Domain.domain := by
    intro ds hds
    induction ds with
    | nil => rfl
    | cons d ds ih =>
      obtain ⟨t, ht, hid⟩ := db.foreign_key d (hds d List.mem_cons_self)
      have htenant := Database.tenantOf_eq_some.2 ⟨ht, hid⟩
      have hrest := ih fun d hd => hds d (List.mem_cons_of_mem _ hd)
      simp only [List.filterMap_cons, htenant, Option.map_some, hostsOfRows, List.map_cons] at hrest ⊢
      rw [hrest]
  exact hall db.domains fun _ => id

/-- The caches are an exact image of the tables, made between two states of the world. -/
structure Exact (cfg : Settings) (s₀ s : World) : Prop where
  /-- The set holds the hostnames and does not expire; without any it is absent. -/
  members : s.hosts = if s₀.db.domains = [] then none
    else some ⟨(s₀.db.domains.map Domain.domain).toFinset, none⟩
  hostSnap : ∀ h t, s₀.db.rowOf h = some t → ∃ n, s₀.now ≤ n ∧ n ≤ s.now ∧
    s.snaps (.host h) = some (.lasting n (.positive t) (cfg.ttlForStatus t.status))
  schemaSnap : ∀ t ∈ s₀.db.tenants, (∃ d ∈ s₀.db.domains, d.tenantId = t.id) →
    ∃ n, s₀.now ≤ n ∧ n ≤ s.now ∧
      s.snaps (.schema t.schemaName) = some (.lasting n (.positive t) (cfg.ttlForStatus t.status))
  /-- Nothing positive is left under an unknown name. -/
  hostOrphan : ∀ h, ¬ s₀.db.HasRow h → ∀ t, s.snap (.host h) ≠ some (.positive t)
  schemaOrphan : ∀ n, (∀ t ∈ s₀.db.tenants, t.schemaName ≠ n) →
    ∀ t, s.snap (.schema n) ≠ some (.positive t)
  /-- What a tenant without a domain has is left alone. -/
  domainless : ∀ t ∈ s₀.db.tenants, (∀ d ∈ s₀.db.domains, d.tenantId ≠ t.id) →
    s.snaps (.schema t.schemaName) = s₀.snaps (.schema t.schemaName)
  /-- What is not positive is left alone under the names of no domain. -/
  hostOther : ∀ h, ¬ s₀.db.HasRow h → (∀ c t, s₀.snaps (.host h) = some c → c.value ≠ .positive t) →
    s.snaps (.host h) = s₀.snaps (.host h)
  schemaOther : ∀ n, (∀ t ∈ s₀.db.tenants, t.schemaName ≠ n) →
    (∀ c t, s₀.snaps (.schema n) = some c → c.value ≠ .positive t) →
    s.snaps (.schema n) = s₀.snaps (.schema n)
  /-- The scratch set is gone, and the other keys and the tables are as they were. -/
  frame : s = { s₀ with
    now := s.now
    snaps := s.snaps
    hosts := s.hosts
    hostsNew := ∅ }

section Image

variable {cfg : Settings} {p : Pid} {l l' : Log} {s₀ s₁ s : World} {rows : List DomainRow}

/-- What a rebuild wrote survives the sweep. -/
theorem Swept.kept {V : Key → Prop} (h : Swept V s₁ s) {k : Key} (hk : V k) :
    s.snaps k = s₁.snaps k := by
  rcases h.key k with hsame | ⟨_, hnot, _⟩
  · exact hsame
  · exact absurd hk hnot

/-- The sweep leaves alone what is not positive. -/
theorem Swept.other {V : Key → Prop} (h : Swept V s₁ s) {k : Key}
    (hk : ∀ c t, s₁.snaps k = some c → c.value ≠ .positive t) : s.snaps k = s₁.snaps k := by
  rcases h.key k with hsame | ⟨_, _, c, t, hc, ht⟩
  · exact hsame
  · exact absurd ht (hk c t hc)

/-- A key without a snapshot to write keeps what it has. -/
theorem Puts.untouched {W : Key → TenantSnapshot → Prop} (h : Puts cfg W s₀ s₁) {k : Key}
    (hk : ∀ t, ¬ W k t) : s₁.snaps k = s₀.snaps k := by
  rcases h.key k with ⟨t, _, ht, _⟩ | ⟨_, hsame⟩
  · exact absurd ht (hk t)
  · exact hsame

/-- A key that a rebuild writes holds what it wrote. -/
theorem Puts.written {W : Key → TenantSnapshot → Prop} (h : Puts cfg W s₀ s₁) {k : Key}
    {t : TenantSnapshot} (ht : W k t) (huniq : ∀ u, W k u → u = t) :
    ∃ n, s₀.now ≤ n ∧ n ≤ s₁.now ∧
      s₁.snaps k = some (.lasting n (.positive t) (cfg.ttlFor t)) := by
  rcases h.key k with ⟨u, n, hu, hn, hn', hk⟩ | ⟨hnot, _⟩
  · rw [huniq u hu] at hk
    exact ⟨n, hn, hn', hk⟩
  · exact absurd ht (hnot t)

/-- A rebuild and a sweep after it leave the image of the tables. -/
theorem exact_of_rebuilt (hwarm : cfg.warmEnabled = true) (hrows : rows.Perm s₀.db.domainRows)
    (hbuilt : Rebuilt cfg rows l s₀ l' s₁)
    (hswept : Swept (Listed (hostsOfRows rows) (s₀.db.tenants.map TenantSnapshot.schemaName)) s₁ s)
    (horphan : ∀ k, ¬ Listed (hostsOfRows rows) (s₀.db.tenants.map TenantSnapshot.schemaName) k →
      ∀ t, s.snap k ≠ some (.positive t)) : Exact cfg s₀ s := by
  have hhosts : (hostsOfRows rows).Perm (s₀.db.domains.map Domain.domain) := by
    rw [← Database.domainRows_hosts]
    exact hrows.map _
  have hrow : ∀ h, h ∈ hostsOfRows rows ↔ s₀.db.HasRow h := by
    intro h
    rw [hhosts.mem_iff, ← Database.domainRows_hosts]
    exact Database.mem_domainRows_domain
  have hschema : ∀ n, n ∈ s₀.db.tenants.map TenantSnapshot.schemaName ↔
      ∃ t ∈ s₀.db.tenants, t.schemaName = n := fun n => List.mem_map
  have httl : ∀ t, cfg.ttlFor t = cfg.ttlForStatus t.status := fun t => if_pos hwarm
  refine ⟨?_, ?_, ?_, ?_, ?_, ?_, ?_, ?_, ?_⟩
  · have hcell : s.hosts = hostsCell (hostsOfRows rows).toFinset := by
      rw [hswept.frame, hbuilt.frame]
    rw [hcell, List.toFinset_eq_of_perm _ _ hhosts, hostsCell]
    simp only [List.toFinset_eq_empty_iff, List.map_eq_nil_iff]
  · intro h t ht
    obtain ⟨n, hn, hn', hk⟩ := hbuilt.puts.written (k := .host h) ht fun u hu =>
      Option.some.inj (hu.symm.trans ht)
    have hknown : h ∈ hostsOfRows rows := (hrow h).2 (Database.rowOf_isSome.1 (by rw [ht]; rfl))
    rw [httl, ← hswept.kept (k := .host h) hknown] at hk
    exact ⟨n, hn, hn'.trans hswept.now, hk⟩
  · intro t ht hdomain
    obtain ⟨n, hn, hn', hk⟩ := hbuilt.puts.written (k := .schema t.schemaName) ⟨rfl, ht, hdomain⟩
      fun u hu => List.inj_on_of_nodup_map s₀.db.tenant_schema hu.2.1 ht hu.1
    have hknown := (hschema t.schemaName).2 ⟨t, ht, rfl⟩
    rw [httl, ← hswept.kept (k := .schema t.schemaName) hknown] at hk
    exact ⟨n, hn, hn'.trans hswept.now, hk⟩
  · intro h hh
    exact horphan (.host h) fun hk => hh ((hrow h).1 hk)
  · intro n hn
    refine horphan (.schema n) fun hk => ?_
    obtain ⟨t, ht, hname⟩ := (hschema n).1 hk
    exact hn t ht hname
  · intro t ht hnone
    have hknown := (hschema t.schemaName).2 ⟨t, ht, rfl⟩
    rw [hswept.kept (k := .schema t.schemaName) hknown]
    refine hbuilt.puts.untouched ?_
    rintro u ⟨hname, hu, d, hd, hid⟩
    obtain rfl := List.inj_on_of_nodup_map s₀.db.tenant_schema hu ht hname
    exact hnone d hd hid
  · intro h hh hother
    have hsame : s₁.snaps (.host h) = s₀.snaps (.host h) := hbuilt.puts.untouched fun t ht =>
      hh (Database.rowOf_isSome.1 (by rw [show s₀.db.rowOf h = some t from ht]; rfl))
    rw [← hsame] at hother ⊢
    exact hswept.other hother
  · intro n hn hother
    have hsame : s₁.snaps (.schema n) = s₀.snaps (.schema n) := hbuilt.puts.untouched fun t ht =>
      hn t ht.2.1 ht.1
    rw [← hsame] at hother ⊢
    exact hswept.other hother
  · rw [hswept.frame, hbuilt.frame]

/-- Redis answers. -/
theorem redisAlive_yields {α : Type} {f : Bool → Prog α} {Q : Log → World → Except Exn α → Prop}
    (h : ∀ n, s₀.now ≤ n → Yields p (f true)
      (⟨.ping, .ok true, s₀, { s₀ with now := n }⟩ :: l) { s₀ with now := n } Q) :
    Yields p (redisAlive >>= f) l s₀ Q := by
  unfold redisAlive
  rw [Yields, Program.ensures_bind, Program.ensures_bind, Program.ensures_attempt]
  refine yields_call nofun fun n alive _ hn halive => ?_
  obtain rfl : alive = true := halive
  exact h n hn

/-- What `reconcile` leaves when nothing else runs. -/
theorem reconcile_yields {cfg : Config} (hwarm : cfg.warmEnabled = true) :
    Yields p (reconcile cfg) [] s₀ fun l' s r => r = .ok s₀.db.domains.length ∧
      (ScansComplete l' → Exact cfg.toSettings s₀ s) := by
  unfold reconcile
  rw [hwarm, Bool.not_true, if_neg Bool.false_ne_true]
  refine redisAlive_yields fun n₁ hn₁ => ?_
  rw [Bool.not_true, if_neg Bool.false_ne_true, Yields, Program.ensures_bind]
  refine (rounds_yields hwarm 2).mono ?_
  rintro l₁ s₁ _ ⟨rows, hrows, rfl, hbuilt⟩
  rw [Program.onOutcome_ok]
  refine yields_call_bind nofun fun n₂ schemas _ hn₂ hschemas => ?_
  have hbuilt' := hbuilt.counted ⟨.readSchemas, .ok schemas, s₁, { s₁ with now := n₂ }⟩
    hn₁ hn₂ (not_scans nofun nofun) (not_scans nofun nofun)
  have hdb : s₁.db = s₀.db := by
    rw [hbuilt.frame]
  obtain rfl : schemas = s₀.db.tenants.map TenantSnapshot.schemaName := by
    rw [← hdb]
    exact hschemas
  have htidy : Tidy (Listed (hostsOfRows rows) (s₀.db.tenants.map TenantSnapshot.schemaName)) []
      (⟨.readSchemas, .ok (s₀.db.tenants.map TenantSnapshot.schemaName), s₁, { s₁ with now := n₂ }⟩ ::
        l₁) { s₁ with now := n₂ } := by
    intro k t _ _ z hz hscan
    rcases hbuilt'.quiet z hz with hz | hz
    · cases hz
    · exact absurd hscan (hz k)
  rw [Yields, Program.ensures_bind]
  refine (sweepOrphans_yields htidy).mono ?_
  rintro l₂ s₂ _ ⟨⟨m, rfl⟩, hswept, htidy₂⟩
  refine ⟨?_, fun hscans => ?_⟩
  · have hlength := hrows.length_eq
    have hmap : (s₀.db.domainRows.map DomainRow.domain).length = s₀.db.domainRows.length :=
      List.length_map _
    rw [← hmap] at hlength
    have hhosts := Database.domainRows_hosts s₀.db
    simp only [hostsOfRows] at hhosts
    rw [hhosts, List.length_map] at hlength
    exact congrArg Except.ok hlength
  · exact exact_of_rebuilt hwarm hrows hbuilt' hswept fun k hk => htidy₂.no_orphan hscans hk

/-- A reconcile without concurrency is exact. Whatever the tables and the caches held, however
the rows were ordered and the work was cut into chunks and batches, and in whatever order and how
often the scans named keys, as long as they named those that were there throughout: it returns
the number of domain rows and leaves an exact image of the tables. -/
theorem reconcile_exact {cfg : Config} (hwarm : cfg.warmEnabled = true) {r : Except Exn Nat}
    (hexec : Exec (alone p) (reconcile cfg) s₀ l (.done r) s) (hscans : ScansComplete l) :
    r = .ok s₀.db.domains.length ∧ Exact cfg.toSettings s₀ s := by
  obtain ⟨hr, hexact⟩ := hexec.outcome trivial (reconcile_yields hwarm)
  exact ⟨hr, hexact hscans⟩

end Image

/-! ### One tenant and a stray snapshot -/

/-- A hostname that is gone has left its snapshot behind. -/
def strayWorld : World :=
  { acmeWorld with snaps := TtlStore.set (fun _ => none) (.host "gone") ⟨.positive acme, none⟩ }

/-- The snapshots when the scans begin. -/
def strayBuilt : TtlStore Key (Cached TenantSnapshot) :=
  (strayWorld.snaps.set (.host "old") ⟨.positive acme, none⟩).set (.schema "acme")
    ⟨.positive acme, none⟩

/-- The snapshots when the scans begin are those of two hostnames and of the tenant. -/
theorem key_of_strayBuilt {k : Key} (hk : strayBuilt.get 0 k ≠ none) :
    k = .host "old" ∨ k = .host "gone" ∨ k = .schema "acme" := by
  have hpresent : strayBuilt k ≠ none := fun hnone => hk (by rw [TtlStore.get, hnone]; rfl)
  rcases TtlStore.present_of_set hpresent with rfl | hpresent
  · exact .inr (.inr rfl)
  · rcases TtlStore.present_of_set hpresent with rfl | hpresent
    · exact .inl rfl
    · change TtlStore.set (fun _ => none) (.host "gone") ⟨Cached.positive acme, none⟩ k ≠ none
        at hpresent
      rcases TtlStore.present_of_set hpresent with rfl | hpresent
      · exact .inr (.inl rfl)
      · exact absurd rfl hpresent

/-- Two hostnames have a snapshot when the scans begin. -/
theorem host_of_strayBuilt {h : Host} (hk : strayBuilt.get 0 (.host h) ≠ none) :
    h ∈ ["gone", "old", "gone"] := by
  rcases key_of_strayBuilt hk with h | h | h <;> cases h <;> decide

/-- One schema may have a snapshot when the schemas are scanned. -/
theorem schema_of_strayBuilt {ks : List Key} {n : SchemaName}
    (hk : (strayBuilt.erase ks).get 0 (.schema n) ≠ none) : n ∈ ["acme"] := by
  have hk' : strayBuilt.get 0 (.schema n) ≠ none := by
    intro hnone
    refine hk ?_
    by_cases hmem : Key.schema n ∈ ks
    · rw [TtlStore.get, TtlStore.erase_of_mem hmem]
      rfl
    · rw [TtlStore.get, TtlStore.erase_of_notMem hmem]
      exact hnone
  rcases key_of_strayBuilt hk' with h | h | h <;> cases h
  exact List.mem_cons_self

/-- One page that names all that is there is enough. -/
theorem ScansComplete.of_pages {l : Log} {z y : Taken Req Req.Ans Exn World} (hz : z ∈ l) (hy : y ∈ l)
    (hhosts : ∀ h, Scans z.op (.host h) ∧ (z.pre.snap (.host h) ≠ none → Names z (.host h)))
    (hschemas : ∀ n, Scans y.op (.schema n) ∧ (y.pre.snap (.schema n) ≠ none → Names y (.schema n))) :
    ScansComplete l := by
  intro k hthere
  cases k with
  | host h => exact ⟨z, hz, (hhosts h).2 (hthere z hz (hhosts h).1).1⟩
  | schema n => exact ⟨y, hy, (hschemas n).2 (hthere y hy (hschemas n).1).1⟩

/-- A request may be answered at once. -/
theorem alone_now {p : Pid} {op : Req} {s s' : World} {a : op.Ans}
    (h : op.Answers warmPage.keyspace p s a ∧ op.Enabled s ∧ s' = op.apply p s) :
    alone p op s (.ok a) s' := ⟨warmPage.keyspace, s.now, Nat.le_refl _, h⟩

/-- A reconcile drops the one snapshot that was left behind, and leaves an exact image. -/
theorem reconcile_exact_stray : ∃ l s,
    Exec (alone 1) (reconcile warmPage) strayWorld l (.done (.ok 1)) s ∧ ScansComplete l ∧
      Exact warmPage.toSettings strayWorld s := by
  have e0 : Exec (alone 1) (reconcile warmPage) strayWorld [] _ strayWorld := .start
  have e1 := e0.answer .ping (.ok true) _ (alone_now ⟨rfl, trivial, rfl⟩) rfl
  have e2 := e1.answer .getDirty (.ok none) _ (alone_now ⟨rfl, trivial, rfl⟩) rfl
  have e3 := e2.answer .deleteNew (.ok ()) _ (alone_now ⟨trivial, trivial, rfl⟩) rfl
  have e4 := e3.answer .readDomains (.ok [⟨"old", acme⟩]) _ (alone_now ⟨.refl _, trivial, rfl⟩) rfl
  have e5 := e4.answer (.saddNew ["old"]) (.ok ()) _ (alone_now ⟨trivial, trivial, rfl⟩) rfl
  have e6 := e5.answer (.set (.host "old") (.positive acme) none) (.ok ()) _
    (alone_now ⟨trivial, trivial, rfl⟩) rfl
  have e7 := e6.answer (.set (.schema "acme") (.positive acme) none) (.ok ()) _
    (alone_now ⟨trivial, trivial, rfl⟩) rfl
  have e8 := e7.answer .existsNew (.ok true) _ (alone_now ⟨rfl, trivial, rfl⟩) rfl
  have e9 := e8.answer .rename (.ok ()) _
    (alone_now ⟨trivial, (by decide : (∅ ∪ ["old"].toFinset : Finset Host) ≠ ∅), rfl⟩) rfl
  have e10 := e9.answer .getDirty (.ok none) _ (alone_now ⟨rfl, trivial, rfl⟩) rfl
  have e11 := e10.answer .readSchemas (.ok ["acme"]) _ (alone_now ⟨rfl, trivial, rfl⟩) rfl
  have e12 := e11.answer (.scanHosts 0) (.ok ["gone", "old", "gone"]) _
    (alone_now ⟨fun _ _ hk => host_of_strayBuilt hk, trivial, rfl⟩) rfl
  have e13 := e12.answer (.getMany [.host "gone", .host "gone"])
    (.ok [(.host "gone", .positive acme), (.host "gone", .positive acme)]) _
    (alone_now ⟨rfl, trivial, rfl⟩) rfl
  have e14 := e13.answer (.deleteMany [.host "gone", .host "gone"]) (.ok ()) _
    (alone_now ⟨trivial, trivial, rfl⟩) rfl
  have e15 := e14.answer (.scanSchemas 0) (.ok ["acme"]) _
    (alone_now ⟨fun _ _ hk => schema_of_strayBuilt hk, trivial, rfl⟩) rfl
  refine ⟨_, _, e15, ?_, (reconcile_exact rfl e15 ?_).2⟩ <;>
  · refine .of_pages (.tail _ (.tail _ (.tail _ (.head _)))) (.head _) ?_ ?_
    · exact fun _ => ⟨trivial, host_of_strayBuilt⟩
    · exact fun _ => ⟨trivial, schema_of_strayBuilt⟩

end MtShards.Resolver
