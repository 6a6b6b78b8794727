import Kyria.Store.Sharded
import Kyria.Store.Eviction
import Kyria.Lib.Runs

/-!
The sharded store under concurrent use.

A call about one key holds the lock of its shard from beginning to end and is one step. `Range`,
`Size` and the sweep of the janitor take the locks of the shards one after the other, so that writes
land between the shards they visit. Nothing is assumed about the policy.
-/

namespace Kyria.Store.Concurrent

open Std (ExtTreeMap)
open Kyria.Lib.Cursor Kyria.Lib.MapOrder Kyria.Lib.Runs
open Kyria.Store MapStore

variable {σ : Type}

/-- A `Range` or a `Size` on its way: the number of shards it has visited, the entries it has
reported and the sizes it has added up. -/
structure Scan where
  next : ℕ := 0
  seen : List (Bytes × Bytes) := []
  count : ℕ := 0

/-- The visit of one shard, under its lock. -/
def Scan.visit (scan : Scan) (x : MapStore σ) (now : ℕ) (o : EntryOrder) : Scan where
  next := scan.next + 1
  seen := scan.seen ++ x.range o now
  count := scan.count + x.size

structure State (σ : Type) where
  store : ShardedStore σ
  scans : List Scan

/-- The store with another shard in place of the one with number `i`. -/
def setShard (s : ShardedStore σ) (i : ℕ) (x : MapStore σ) : ShardedStore σ :=
  { s with shards := s.shards.set i x, pos := by rw [List.length_set]; exact s.pos }

inductive Action
  | call (now : ℕ) (key : Bytes) (op : Op)
  | reap (i now : ℕ) (o : EntryOrder)
  | begin
  | visit (k now : ℕ) (o : EntryOrder)

/-- The number of the shard of a key. -/
def slot (s : ShardedStore σ) (key : Bytes) : ℕ := (s.hash key).toNat % s.shards.length

def step (s : State σ) : Action → Option (State σ)
  | .call now key op =>
    if op.key = some key then
      (s.store.shards[slot s.store key]?).map fun x =>
        { s with store := setShard s.store (slot s.store key) (x.call now op).2 }
    else none
  | .reap i now o =>
    (s.store.shards[i]?).map fun x =>
      { s with store := setShard s.store i (x.reapExpired o now).2 }
  | .begin => some { s with scans := s.scans ++ [{}] }
  | .visit k now o =>
    match s.scans[k]? with
    | none => none
    | some scan => (s.store.shards[scan.next]?).map fun x =>
        { s with scans := s.scans.set k (scan.visit x now o) }

/-! ### What a step can do -/

/-- The store keeps its shards, and one of them changes by what a call or a sweep does to it. -/
inductive Changed (s : ShardedStore σ) : ShardedStore σ → Prop
  | same : Changed s s
  | call (now : ℕ) (key : Bytes) (op : Op) (x : MapStore σ) (hop : op.key = some key)
      (hx : s.shards[slot s key]? = some x) : Changed s (setShard s (slot s key) (x.call now op).2)
  | reap (i now : ℕ) (o : EntryOrder) (x : MapStore σ) (hx : s.shards[i]? = some x) :
      Changed s (setShard s i (x.reapExpired o now).2)

lemma step_cases {s t : State σ} {a : Action} (h : step s a = some t) :
    Changed s.store t.store ∧
      (t.scans = s.scans ∨ t.scans = s.scans ++ [({} : Scan)] ∨
        ∃ k now o scan x, a = .visit k now o ∧ s.scans[k]? = some scan ∧
          s.store.shards[scan.next]? = some x ∧ t.store = s.store ∧
          t.scans = s.scans.set k (scan.visit x now o)) := by
  cases a with
  | call now key op =>
    simp only [step] at h
    split_ifs at h with hop
    obtain ⟨x, hx, rfl⟩ := Option.map_eq_some_iff.mp h
    exact ⟨.call now key op x hop hx, .inl rfl⟩
  | reap i now o =>
    obtain ⟨x, hx, rfl⟩ := Option.map_eq_some_iff.mp h
    exact ⟨.reap i now o x hx, .inl rfl⟩
  | begin =>
    cases h
    exact ⟨.same, .inr (.inl rfl)⟩
  | visit k now o =>
    simp only [step] at h
    split at h
    · cases h
    · next scan hk =>
      obtain ⟨x, hx, rfl⟩ := Option.map_eq_some_iff.mp h
      exact ⟨.same, .inr (.inr ⟨k, now, o, scan, x, rfl, hk, hx, rfl, rfl⟩)⟩

/-! ### Where the keys are -/

/-- Every key is in the shard it hashes to. -/
def Placed (s : ShardedStore σ) : Prop :=
  ∀ (i : ℕ) (x : MapStore σ), s.shards[i]? = some x → ∀ k ∈ x.data, slot s k = i

lemma setEntry_mem {m : MapStore σ} {o : EntryOrder} {key value k : Bytes} {expiresAt : ℕ}
    {bypass : Bool} (h : k ∈ (m.setEntry o key value expiresAt bypass).2.data) :
    k ∈ m.data ∨ k = key := by
  by_cases hk : k = key
  · exact .inr hk
  refine .inl ?_
  by_cases hacc : m.Accepts key value
  · obtain ⟨adm, m', hset, hst⟩ := setEntry_of_accepts hacc o expiresAt bypass
    rw [hset, ← ExtTreeMap.isSome_getElem?_iff_mem] at h
    rcases hst.others k hk with heq | ⟨-, hnone⟩
    · rwa [heq, ExtTreeMap.isSome_getElem?_iff_mem] at h
    · rw [hnone] at h
      cases h
  · obtain ⟨err, hset⟩ := setEntry_of_not_accepts hacc o expiresAt bypass
    rwa [hset] at h

lemma call_mem {m : MapStore σ} {now : ℕ} {op : Op} {key k : Bytes} (hop : op.key = some key)
    (h : k ∈ (m.call now op).2.data) : k ∈ m.data ∨ k = key := by
  have hget : ∀ {k}, k ∈ (m.get now key).2.data → k ∈ m.data := fun h =>
    (get_keeps m now key _).mem_iff.mp h
  cases op with
  | get key' =>
    cases hop
    exact .inl (hget h)
  | set o key' value =>
    cases hop
    exact setEntry_mem h
  | setWithTTL o key' value ttl =>
    cases hop
    simp only [MapStore.call, setWithTTL] at h
    split_ifs at h
    · exact .inl h
    · exact setEntry_mem h
  | updateReplica o key' fn =>
    cases hop
    simp only [MapStore.call, updateReplicaWith] at h
    exact (setEntry_mem h).imp_left hget
  | delete key' =>
    cases hop
    exact .inl (ExtTreeMap.mem_of_mem_erase h)
  | deleteIf key' pred =>
    cases hop
    simp only [MapStore.call] at h
    rcases deleteIf_snd m now key pred with heq | heq
    · rw [heq] at h
      exact .inl (hget h)
    · rw [heq] at h
      exact .inl (hget (ExtTreeMap.mem_of_mem_erase h))
  | _ => cases hop

lemma reapExpired_mem {m : MapStore σ} {o : EntryOrder} {now : ℕ} {k : Bytes}
    (h : k ∈ (m.reapExpired o now).2.data) : k ∈ m.data := by
  rw [← ExtTreeMap.isSome_getElem?_iff_mem, getElem?_reapExpired] at h
  rw [← ExtTreeMap.isSome_getElem?_iff_mem]
  exact Option.isSome_of_isSome_filter _ _ h

lemma slot_setShard (s : ShardedStore σ) (i : ℕ) (x : MapStore σ) (key : Bytes) :
    slot (setShard s i x) key = slot s key := by
  simp only [slot, setShard, List.length_set]

lemma Changed.slot {s t : ShardedStore σ} (h : Changed s t) (key : Bytes) :
    slot t key = slot s key := by
  cases h with
  | same => rfl
  | call => exact slot_setShard ..
  | reap => exact slot_setShard ..

lemma Changed.length {s t : ShardedStore σ} (h : Changed s t) :
    t.shards.length = s.shards.length := by
  cases h with
  | same => rfl
  | call => exact List.length_set
  | reap => exact List.length_set

lemma placed_setShard {s : ShardedStore σ} (hs : Placed s) {i : ℕ} {x : MapStore σ}
    (hx : ∀ k ∈ x.data, slot s k = i) : Placed (setShard s i x) := by
  intro j y hy k hk
  rw [slot_setShard]
  simp only [setShard, List.getElem?_set] at hy
  split_ifs at hy with hij
  · cases hy
    exact (hx k hk).trans hij
  · exact hs j y hy k hk

lemma Changed.placed {s t : ShardedStore σ} (h : Changed s t) (hs : Placed s) : Placed t := by
  cases h with
  | same => exact hs
  | call now key op x hop hx =>
    refine placed_setShard hs fun k hk => ?_
    rcases call_mem hop hk with hk | rfl
    · exact hs _ x hx k hk
    · rfl
  | reap i now o x hx => exact placed_setShard hs fun k hk => hs i x hx k (reapExpired_mem hk)

/-! ### What a scan reads -/

/-- Any step may follow any other. -/
abbrev Run (s t : State σ) : Prop := Steps step (fun _ _ => True) s t

/-- The store holds the value under the key, not expired at `now`. -/
def Live (s : ShardedStore σ) (now : ℕ) (key value : Bytes) : Prop :=
  ∃ x e, s.shards[slot s key]? = some x ∧ x.data[key]? = some e ∧ e.expired now = false ∧
    e.value = value

/-- Between `s` and `t`, scan `k` has read the key at one moment: of this key it reports just what
the store held then. -/
def ReadOnce (s t : State σ) (k : ℕ) (key : Bytes) (seen : List (Bytes × Bytes)) : Prop :=
  ∃ u now o u', Run s u ∧ step u (.visit k now o) = some u' ∧ Run u' t ∧
    ∀ v, (key, v) ∈ seen ↔ Live u.store now key v

/-- How far scan `k` has come. -/
structure Scanned (s t : State σ) (k : ℕ) (scan : Scan) : Prop where
  held : t.scans[k]? = some scan
  behind : ∀ key, slot t.store key < scan.next → ReadOnce s t k key scan.seen
  ahead : ∀ key v, scan.next ≤ slot t.store key → (key, v) ∉ scan.seen
  nodup : (scan.seen.map Prod.fst).Nodup

lemma ReadOnce.tail {s t u : State σ} {k : ℕ} {key : Bytes} {seen : List (Bytes × Bytes)}
    (h : ReadOnce s t k key seen) {a : Action} (hstep : step t a = some u) :
    ReadOnce s u k key seen := by
  obtain ⟨v, now, o, v', hv, hvisit, hrest, hread⟩ := h
  exact ⟨v, now, o, v', hv, hvisit, .tail a hrest trivial hstep, hread⟩

lemma Scanned.keep {s t u : State σ} {k : ℕ} {scan : Scan} (h : Scanned s t k scan) {a : Action}
    (hstep : step t a = some u) (hheld : u.scans[k]? = some scan) : Scanned s u k scan := by
  have hslot := (step_cases hstep).1.slot
  refine ⟨hheld, fun key hlt => ?_, fun key v hle => ?_, h.nodup⟩
  · exact (h.behind key (hslot key ▸ hlt)).tail hstep
  · exact h.ahead key v (hslot key ▸ hle)

lemma mem_range_shard {s : ShardedStore σ} (hs : Placed s) {i : ℕ} {x : MapStore σ}
    (hx : s.shards[i]? = some x) {now : ℕ} {o : EntryOrder} {key v : Bytes} :
    (key, v) ∈ x.range o now ↔ slot s key = i ∧ Live s now key v := by
  rw [mem_range_iff]
  constructor
  · rintro ⟨e, he, hexp, hv⟩
    have hi := hs i x hx key (ExtTreeMap.getElem?_eq_some_iff.mp he).1
    exact ⟨hi, x, e, hi ▸ hx, he, hexp, hv⟩
  · rintro ⟨rfl, y, e, hy, he, hexp, hv⟩
    cases hx.symm.trans hy
    exact ⟨e, he, hexp, hv⟩

lemma Scanned.visit {s t u : State σ} {k now : ℕ} {o : EntryOrder} {scan : Scan} {x : MapStore σ}
    (h : Scanned s t k scan) (hplaced : Placed t.store) (hrun : Run s t)
    (hstep : step t (.visit k now o) = some u) (hx : t.store.shards[scan.next]? = some x)
    (hstore : u.store = t.store) (hscans : u.scans = t.scans.set k (scan.visit x now o)) :
    Scanned s u k (scan.visit x now o) := by
  have hmem : ∀ key v, (key, v) ∈ x.range o now ↔
      slot t.store key = scan.next ∧ Live t.store now key v := fun key v =>
    mem_range_shard hplaced hx
  have hlen : k < t.scans.length := (List.getElem?_eq_some_iff.mp h.held).1
  refine ⟨by rw [hscans, List.getElem?_set_self hlen], fun key hlt => ?_, fun key v hle => ?_, ?_⟩
  · rw [hstore] at hlt
    rcases Nat.lt_succ_iff_lt_or_eq.mp hlt with hlt | heq
    · obtain ⟨w, now', o', w', hw, hvisit, hrest, hread⟩ := h.behind key hlt
      refine ⟨w, now', o', w', hw, hvisit, .tail (.visit k now o) hrest trivial hstep, fun v => ?_⟩
      rw [← hread v]
      simp only [Scan.visit, List.mem_append, hmem]
      exact or_iff_left fun hnew => absurd hnew.1 hlt.ne
    · refine ⟨t, now, o, u, hrun, hstep, .refl, fun v => ?_⟩
      simp only [Scan.visit, List.mem_append, hmem, heq, true_and]
      exact or_iff_right (h.ahead key v heq.ge)
  · rw [hstore] at hle
    simp only [Scan.visit, List.mem_append, hmem, not_or] at hle ⊢
    exact ⟨h.ahead key v (by omega), fun hnew => absurd hnew.1 (by omega)⟩
  · simp only [Scan.visit, List.map_append]
    refine List.Nodup.append h.nodup (nodup_keys_range x o now) fun key hold hnew => ?_
    obtain ⟨p, hp, rfl⟩ := List.mem_map.mp hold
    obtain ⟨q, hq, heq⟩ := List.mem_map.mp hnew
    have hslot := ((hmem q.1 q.2).mp hq).1
    exact h.ahead p.1 p.2 (by rw [← heq, hslot]) hp

lemma Scanned.step {s t u : State σ} {k : ℕ} {scan : Scan} (h : Scanned s t k scan)
    (hplaced : Placed t.store) (hrun : Run s t) {a : Action} (hstep : step t a = some u) :
    ∃ scan', Scanned s u k scan' := by
  rcases (step_cases hstep).2 with
    hscans | hscans | ⟨j, now, o, scan', x, rfl, hj, hx, hstore, hscans⟩
  · exact ⟨scan, h.keep hstep (by rw [hscans, h.held])⟩
  · refine ⟨scan, h.keep hstep ?_⟩
    rw [hscans, List.getElem?_append_left (List.getElem?_eq_some_iff.mp h.held).1, h.held]
  · by_cases hjk : j = k
    · subst hjk
      cases h.held.symm.trans hj
      exact ⟨_, h.visit hplaced hrun hstep hx hstore hscans⟩
    · exact ⟨scan, h.keep hstep (by rw [hscans, List.getElem?_set_ne hjk, h.held])⟩

lemma placed_of_run {s t : State σ} (h : Run s t) (hs : Placed s.store) : Placed t.store :=
  h.invariant (I := fun t => Placed t.store) hs fun _ _ _ ht _ hstep =>
    (step_cases hstep).1.placed ht

lemma placed_newSharded (shardCount : ℤ) (hash : Bytes → UInt64) {new : MapStore σ}
    (hnew : new.data = ∅) : Placed (newSharded shardCount hash new) := by
  intro i x hx k hk
  have hx : x = new := List.eq_of_mem_replicate (List.mem_of_getElem? hx)
  rw [hx, hnew] at hk
  simp at hk

/-- **A sweep over the shards reads every key at one moment.** Whatever calls and sweeps are made
meanwhile, a `Range` that has come to its end reports no key twice; and for every key there is a
moment between its beginning and its end such that it reports just what the store held under the key
at that moment, if anything. -/
theorem range_reads_each_key_once {shardCount : ℤ} {hash : Bytes → UInt64} {new : MapStore σ}
    (hnew : new.data = ∅) {s s' t : State σ} {scan : Scan}
    (h₀ : Run ⟨newSharded shardCount hash new, []⟩ s) (hbegin : step s .begin = some s')
    (hrun : Run s' t) (hscan : t.scans[s.scans.length]? = some scan)
    (hdone : scan.next = t.store.shards.length) :
    (scan.seen.map Prod.fst).Nodup ∧ ∀ key, ReadOnce s' t s.scans.length key scan.seen := by
  have hplaced := placed_of_run h₀ (placed_newSharded shardCount hash hnew)
  have hstart : Scanned s' s' s.scans.length {} := by
    cases hbegin
    refine ⟨by simp, fun key hlt => ?_, fun key v _ => List.not_mem_nil, List.nodup_nil⟩
    exact absurd hlt (Nat.not_lt_zero _)
  have hinv := hrun.invariant
    (I := fun u => Run s' u ∧ Placed u.store ∧ ∃ scan', Scanned s' u s.scans.length scan')
    ⟨.refl, (step_cases hbegin).1.placed hplaced, _, hstart⟩
    fun u a w hu hok hstep => by
      obtain ⟨hto, hpl, scan', hsc⟩ := hu
      exact ⟨.tail a hto hok hstep, (step_cases hstep).1.placed hpl, hsc.step hpl hto hstep⟩
  obtain ⟨-, -, scan', hinv⟩ := hinv
  cases hscan.symm.trans hinv.held
  refine ⟨hinv.nodup, fun key => hinv.behind key ?_⟩
  rw [hdone]
  exact Nat.mod_lt _ t.store.pos

/-- A store of two shards, by the parity of the last byte of the key. -/
def twoShards : ShardedStore Unit :=
  newSharded 2 (fun key => (key.getLast?.getD 0).toUInt64) ({ state := () } : MapStore Unit)

/-- Between the visits of its two shards, one key of the first is overwritten and one of the second
added. -/
def sweep : List Action :=
  [.visit 0 5 default, .call 5 [2] (.set default [2] [8]), .call 5 [3] (.set default [3] [9]),
    .visit 0 5 default]

/-- The sweep reports the old value of the key it had passed, and the new key. -/
theorem range_reads_each_key_once_between :
    ∃ (s s' t : State Unit) (scan : Scan),
      Run ⟨twoShards, []⟩ s ∧ step s .begin = some s' ∧ Run s' t ∧ t.scans[0]? = some scan ∧
      scan.next = t.store.shards.length ∧ scan.seen = [([2], [7]), ([3], [9])] ∧
      ∀ key, ReadOnce s' t 0 key scan.seen := by
  have heval : ((step ⟨twoShards, []⟩ (.call 0 [2] (.set default [2] [7]))).any fun s =>
      (step s .begin).any fun s' => (exec step (fun _ _ => true) s' sweep).any fun t =>
        s.scans.length == 0 && t.store.shards.length == 2 && t.scans.map Scan.next == [2] &&
          t.scans.map Scan.seen == [[([2], [7]), ([3], [9])]]) = true := by
    decide +kernel
  obtain ⟨s, hs, heval⟩ := (Option.any_eq_true _ _).mp heval
  obtain ⟨s', hs', heval⟩ := (Option.any_eq_true _ _).mp heval
  obtain ⟨t, ht, heval⟩ := (Option.any_eq_true _ _).mp heval
  simp only [Bool.and_eq_true, beq_iff_eq] at heval
  obtain ⟨⟨⟨hlen, hshards⟩, hnext⟩, hseen⟩ := heval
  obtain ⟨scan, hscans, hscan⟩ := List.map_eq_singleton_iff.mp hnext
  have hrun : Run s' t := Steps.of_exec_true ht
  have hheld : t.scans[s.scans.length]? = some scan := by rw [hlen, hscans]; rfl
  have hdone : scan.next = t.store.shards.length := hscan.trans hshards.symm
  have hmain := range_reads_each_key_once rfl (.tail _ .refl trivial hs) hs' hrun hheld hdone
  rw [hlen] at hheld hmain
  refine ⟨s, s', t, scan, .tail _ .refl trivial hs, hs', hrun, hheld, hdone, ?_, hmain.2⟩
  simpa [hscans] using hseen

/-! ### How large the store can grow -/

/-- Every shard keeps its limits and stays within the cap, and so does what the scans have added
up. -/
structure Within (m : MapStore σ) (s : State σ) : Prop where
  limits : ∀ x ∈ s.store.shards, SameLimits m x
  shards : ∀ x ∈ s.store.shards, x.size ≤ m.maxEntries
  next : ∀ scan ∈ s.scans, scan.next ≤ s.store.shards.length
  count : ∀ scan ∈ s.scans, scan.count ≤ scan.next * m.maxEntries

lemma Changed.shards {P : MapStore σ → Prop} {s t : ShardedStore σ} (h : Changed s t)
    (hs : ∀ x ∈ s.shards, P x) (hcall : ∀ x now op, P x → P (x.call now op).2) :
    ∀ x ∈ t.shards, P x := by
  have hset : ∀ {i x} now (op : Op), s.shards[i]? = some x →
      ∀ y ∈ (setShard s i (x.call now op).2).shards, P y := by
    intro i x now op hx y hy
    rcases List.mem_or_eq_of_mem_set hy with hy | rfl
    · exact hs y hy
    · exact hcall x now op (hs x (List.mem_of_getElem? hx))
  cases h with
  | same => exact hs
  | call now key op x hop hx => exact hset now op hx
  | reap i now o x hx => exact hset now (.reapExpired o) hx

lemma Within.step {p : Policy σ} {m : MapStore σ} (hp : m.policy = some p)
    (hcap : 1 ≤ m.maxEntries) {s t : State σ} (h : Within m s) {a : Action}
    (hstep : step s a = some t) : Within m t := by
  obtain ⟨hchanged, hscans⟩ := step_cases hstep
  have hshards : ∀ x ∈ t.store.shards, SameLimits m x ∧ x.size ≤ m.maxEntries := by
    refine hchanged.shards (fun x hx => ⟨h.limits x hx, h.shards x hx⟩) fun x now op hx => ?_
    obtain ⟨hlim, hsize⟩ := hx
    refine ⟨hlim.trans (call_sameLimits x now op), ?_⟩
    rw [← hlim.maxEntries] at hcap hsize ⊢
    exact (keepsCap_call (hlim.policy.trans hp) hcap hsize now op).size_le
  have hscans : ∀ scan ∈ t.scans,
      scan.next ≤ s.store.shards.length ∧ scan.count ≤ scan.next * m.maxEntries := by
    rcases hscans with hscans | hscans | ⟨k, now, o, scan, x, -, hk, hx, -, hscans⟩
    · rw [hscans]
      exact fun scan hmem => ⟨h.next scan hmem, h.count scan hmem⟩
    · rw [hscans]
      intro scan hmem
      rcases List.mem_append.mp hmem with hmem | hmem
      · exact ⟨h.next scan hmem, h.count scan hmem⟩
      · cases List.mem_singleton.mp hmem
        exact ⟨Nat.zero_le _, Nat.zero_le _⟩
    · rw [hscans]
      intro scan' hmem
      rcases List.mem_or_eq_of_mem_set hmem with hmem | rfl
      · exact ⟨h.next scan' hmem, h.count scan' hmem⟩
      · obtain ⟨hlt, -⟩ := List.getElem?_eq_some_iff.mp hx
        have hcount := h.count scan (List.mem_of_getElem? hk)
        have hsize := h.shards x (List.mem_of_getElem? hx)
        refine ⟨hlt, ?_⟩
        simp only [Scan.visit, Nat.succ_mul]
        omega
  exact ⟨fun x hx => (hshards x hx).1, fun x hx => (hshards x hx).2,
    fun scan hmem => hchanged.length ▸ (hscans scan hmem).1, fun scan hmem => (hscans scan hmem).2⟩

/-- **The store never outgrows its shards.** In a store with an eviction policy and a cap per shard,
whatever calls and sweeps are interleaved, the entries never exceed the number of shards times the
cap; nor does what a `Size` reports, although it adds up shards at different moments. -/
theorem size_within_caps {p : Policy σ} {shardCount : ℤ} {hash : Bytes → UInt64}
    {new : MapStore σ} (hnew : new.data = ∅) (hp : new.policy = some p)
    (hcap : 1 ≤ new.maxEntries) {t : State σ}
    (h : Run ⟨newSharded shardCount hash new, []⟩ t) :
    t.store.size ≤ t.store.shards.length * new.maxEntries ∧
      ∀ scan ∈ t.scans, scan.count ≤ t.store.shards.length * new.maxEntries := by
  have hstart : Within new ⟨newSharded shardCount hash new, []⟩ := by
    refine ⟨fun x hx => ?_, fun x hx => ?_, fun _ h => absurd h List.not_mem_nil,
      fun _ h => absurd h List.not_mem_nil⟩
    · cases List.eq_of_mem_replicate hx
      exact .refl new
    · cases List.eq_of_mem_replicate hx
      simp [size, hnew]
  have hinv := h.invariant (I := Within new) hstart fun _ _ _ hs _ hstep => hs.step hp hcap hstep
  constructor
  · have hsum := List.sum_le_card_nsmul (t.store.shards.map MapStore.size) new.maxEntries
      fun n hn => by
        obtain ⟨x, hx, rfl⟩ := List.mem_map.mp hn
        exact hinv.shards x hx
    simpa [ShardedStore.size] using hsum
  · intro scan hscan
    calc scan.count ≤ scan.next * new.maxEntries := hinv.count scan hscan
      _ ≤ t.store.shards.length * new.maxEntries :=
        Nat.mul_le_mul_right _ (hinv.next scan hscan)

/-- Two shards for one entry each are full after four writes. -/
theorem size_within_caps_full :
    ∃ t : State CountMinSketch,
      Run ⟨newSharded 2 (fun key => (key.getLast?.getD 0).toUInt64) tinyStore, []⟩ t ∧
      t.store.size = 2 ∧ t.store.size ≤ t.store.shards.length * tinyStore.maxEntries := by
  have heval : ((exec step (fun _ _ => true)
      (⟨newSharded 2 (fun key => (key.getLast?.getD 0).toUInt64) tinyStore, []⟩ :
        State CountMinSketch)
      [.call 0 [1] (.set default [1] [7]), .call 0 [2] (.set default [2] [7]),
        .call 0 [3] (.set default [3] [7]), .call 0 [4] (.set default [4] [7])]).any
      fun t => t.store.size == 2) = true := by
    decide +kernel
  obtain ⟨t, ht, hsize⟩ := (Option.any_eq_true _ _).mp heval
  have hrun : Run _ t := Steps.of_exec_true ht
  have hsize : t.store.size = 2 := by simpa using hsize
  exact ⟨t, hrun, hsize, (size_within_caps rfl rfl le_rfl hrun).1⟩

end Kyria.Store.Concurrent
