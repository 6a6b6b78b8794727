import Kyria.Store.Ops

/-!
The sharded store (`internal/store/sharded_store.go`): the key space split by a hash over
stores of their own, each behind its lock, so that a call is one step.

Without an eviction policy it cannot be told from a single store.
-/

namespace Kyria.Store

open Std (ExtTreeMap)
open Kyria.Lib.Cursor Kyria.Lib.MapOrder
open MapStore (SameLimits)

variable {σ : Type}

/-- `hash` is the hash of the seed chosen at the start. -/
structure ShardedStore (σ : Type) where
  shards : List (MapStore σ)
  hash : Bytes → UInt64
  pos : 0 < shards.length

/-- `NewSharded`; `New` of the options is the same store for every shard. -/
def newSharded (shardCount : ℤ) (hash : Bytes → UInt64) (new : MapStore σ) : ShardedStore σ where
  shards := List.replicate (if shardCount < 1 then 1 else shardCount).toNat new
  hash := hash
  pos := by
    rw [List.length_replicate]
    split_ifs <;> omega

namespace ShardedStore

def shardFor (s : ShardedStore σ) (key : Bytes) : Fin s.shards.length :=
  ⟨(s.hash key).toNat % s.shards.length, Nat.mod_lt _ s.pos⟩

/-- A call on the shard of a key, under its lock. -/
def onShard {α : Type} (s : ShardedStore σ) (key : Bytes) (f : MapStore σ → α × MapStore σ) :
    α × ShardedStore σ :=
  let r := f (s.shards.get (s.shardFor key))
  (r.1, { s with
    shards := s.shards.set (s.shardFor key) r.2
    pos := by rw [List.length_set]; exact s.pos })

def size (s : ShardedStore σ) : ℕ := (s.shards.map MapStore.size).sum

def range (s : ShardedStore σ) (o : EntryOrder) (now : ℕ) : List (Bytes × Bytes) :=
  s.shards.flatMap fun x => x.range o now

def reapExpired (s : ShardedStore σ) (o : EntryOrder) (now : ℕ) : ℕ × ShardedStore σ :=
  ((s.shards.map fun x => (x.reapExpired o now).1).sum,
    { s with
      shards := s.shards.map fun x => (x.reapExpired o now).2
      pos := by rw [List.length_map]; exact s.pos })

/-- `Get`, `Set`, `SetWithTTL`, `UpdateReplica`, `Delete` and `DeleteIf` go to the key's shard,
the others to all of them in turn. -/
def call (s : ShardedStore σ) (now : ℕ) (op : Op) : Reply × ShardedStore σ :=
  match op with
  | .get key | .set _ key _ | .setWithTTL _ key _ _ | .updateReplica _ key _ | .delete key
  | .deleteIf key _ => s.onShard key fun x => x.call now op
  | .size => (.count s.size, s)
  | .range o => (.visited (s.range o now), s)
  | .reapExpired o => (.count (s.reapExpired o now).1, (s.reapExpired o now).2)

def replies (s : ShardedStore σ) : History → List Reply
  | [] => []
  | c :: calls => (s.call c.1 c.2).1 :: replies (s.call c.1 c.2).2 calls

end ShardedStore

/-! ### Stores that agree on some of the keys -/

/-- The two stores hold the same under every key of `K`. -/
structure AgreeOn (K : Set Bytes) (m x : MapStore σ) : Prop where
  limits : SameLimits m x
  policy : m.policy = none
  entry : ∀ k ∈ K, x.data[k]? = m.data[k]?

/-- The key a call is about. -/
def Op.key : Op → Option Bytes
  | .get key | .set _ key _ | .setWithTTL _ key _ _ | .updateReplica _ key _ | .delete key
  | .deleteIf key _ => some key
  | .size | .range _ | .reapExpired _ => none

namespace AgreeOn

variable {K : Set Bytes} {m x : MapStore σ}

lemma policy' (h : AgreeOn K m x) : x.policy = none := h.limits.policy.trans h.policy

lemma get_fst (h : AgreeOn K m x) {key : Bytes} (hk : key ∈ K) (now : ℕ) :
    (x.get now key).1 = (m.get now key).1 := by
  rw [MapStore.get_eq h.policy', MapStore.get_eq h.policy, h.entry key hk]

lemma insert (h : AgreeOn K m x) (key : Bytes) (e : Entry) :
    AgreeOn K { m with data := m.data.insert key e } { x with data := x.data.insert key e } where
  limits := ⟨h.limits.maxKeySize, h.limits.maxValueSize, h.limits.maxEntries, h.limits.policy⟩
  policy := h.policy
  entry k hk := by simp only [ExtTreeMap.getElem?_insert, h.entry k hk]

lemma erase (h : AgreeOn K m x) (key : Bytes) :
    AgreeOn K { m with data := m.data.erase key } { x with data := x.data.erase key } where
  limits := ⟨h.limits.maxKeySize, h.limits.maxValueSize, h.limits.maxEntries, h.limits.policy⟩
  policy := h.policy
  entry k hk := by simp only [ExtTreeMap.getElem?_erase, h.entry k hk]

lemma setEntry (h : AgreeOn K m x) (o : EntryOrder) (key value : Bytes) (expiresAt : ℕ)
    (bypass : Bool) :
    (x.setEntry o key value expiresAt bypass).1 = (m.setEntry o key value expiresAt bypass).1 ∧
      AgreeOn K (m.setEntry o key value expiresAt bypass).2
        (x.setEntry o key value expiresAt bypass).2 := by
  rw [MapStore.setEntry_eq h.policy', MapStore.setEntry_eq h.policy, h.limits.rejection_eq]
  rcases m.rejection key value with _ | err
  · exact ⟨rfl, h.insert key _⟩
  · exact ⟨rfl, h⟩

lemma delete (h : AgreeOn K m x) {key : Bytes} (hk : key ∈ K) :
    (x.delete key).1 = (m.delete key).1 ∧ AgreeOn K (m.delete key).2 (x.delete key).2 := by
  refine ⟨?_, h.erase key⟩
  simp only [MapStore.delete]
  rw [Bool.eq_iff_iff, ExtTreeMap.contains_iff_mem, ExtTreeMap.contains_iff_mem,
    ← ExtTreeMap.isSome_getElem?_iff_mem, ← ExtTreeMap.isSome_getElem?_iff_mem, h.entry key hk]

lemma deleteIf (h : AgreeOn K m x) {key : Bytes} (hk : key ∈ K) (now : ℕ) (pred : Bytes → Bool) :
    (x.deleteIf now key pred).1 = (m.deleteIf now key pred).1 ∧
      AgreeOn K (m.deleteIf now key pred).2 (x.deleteIf now key pred).2 := by
  unfold MapStore.deleteIf
  rw [MapStore.get_eq h.policy', MapStore.get_eq h.policy, h.entry key hk]
  rcases (Option.filter (fun e : Entry => !e.expired now) m.data[key]?).map Entry.value with _ | b
  · exact ⟨rfl, h⟩
  · simp only
    split_ifs
    · exact h.delete hk
    · exact ⟨rfl, h⟩

/-- **A call about a key** that both stores agree on is answered alike. -/
lemma call (h : AgreeOn K m x) {op : Op} {key : Bytes} (hop : op.key = some key) (hk : key ∈ K)
    (now : ℕ) :
    (x.call now op).1 = (m.call now op).1 ∧ AgreeOn K (m.call now op).2 (x.call now op).2 := by
  have hget := MapStore.get_eq h.policy now key
  have hget' := MapStore.get_eq h.policy' now key
  cases op with
  | get key' =>
    cases hop
    simp only [MapStore.call, hget, hget', h.entry key hk]
    exact ⟨trivial, h⟩
  | set o key' value =>
    obtain ⟨hr, hs⟩ := h.setEntry o key' value 0 false
    simp only [MapStore.call, MapStore.set, hr]
    exact ⟨trivial, hs⟩
  | setWithTTL o key' value ttl =>
    simp only [MapStore.call, MapStore.setWithTTL]
    split_ifs
    · exact ⟨rfl, h⟩
    · obtain ⟨hr, hs⟩ := h.setEntry o key' value (now + ttl.toNat) false
      rw [hr]
      exact ⟨rfl, hs⟩
  | updateReplica o key' fn =>
    cases hop
    obtain ⟨hr, hs⟩ := h.setEntry o key (fn (m.get now key).1) 0 true
    simp only [MapStore.call, MapStore.updateReplicaWith, h.get_fst hk]
    rw [hget, hget'] at *
    simp only [hr]
    exact ⟨trivial, hs⟩
  | delete key' =>
    cases hop
    obtain ⟨hr, hs⟩ := h.delete hk
    simp only [MapStore.call, hr]
    exact ⟨trivial, hs⟩
  | deleteIf key' pred =>
    cases hop
    obtain ⟨hr, hs⟩ := h.deleteIf hk now pred
    simp only [MapStore.call, hr, h.get_fst hk]
    exact ⟨trivial, hs⟩
  | _ => cases hop

end AgreeOn

/-! ### What a call about one key leaves alone -/

section Frame

variable {m : MapStore σ} (hp : m.policy = none)

include hp

lemma setEntry_frame (o : EntryOrder) (key value : Bytes) (expiresAt : ℕ) (bypass : Bool)
    {k : Bytes} (hk : k ≠ key) :
    (m.setEntry o key value expiresAt bypass).2.data[k]? = m.data[k]? := by
  rw [MapStore.setEntry_eq hp]
  rcases m.rejection key value with _ | err
  · simp [ExtTreeMap.getElem?_insert, Ne.symm hk]
  · rfl

lemma call_frame {op : Op} {key : Bytes} (hop : op.key = some key) (now : ℕ) {k : Bytes}
    (hk : k ≠ key) : (m.call now op).2.data[k]? = m.data[k]? := by
  cases op with
  | get key' =>
    cases hop
    exact MapStore.get_of_ne m now hk
  | set o key' value =>
    cases hop
    exact setEntry_frame hp o key value 0 false hk
  | setWithTTL o key' value ttl =>
    cases hop
    simp only [MapStore.call, MapStore.setWithTTL]
    split_ifs
    · rfl
    · exact setEntry_frame hp o key value _ false hk
  | updateReplica o key' fn =>
    cases hop
    simp only [MapStore.call, MapStore.updateReplicaWith]
    rw [MapStore.get_eq hp now key]
    exact setEntry_frame hp o key _ 0 true hk
  | delete key' =>
    cases hop
    simp [MapStore.call, MapStore.delete, ExtTreeMap.getElem?_erase, Ne.symm hk]
  | deleteIf key' pred =>
    cases hop
    exact MapStore.deleteIf_of_ne m now pred hk
  | _ => cases hop

end Frame

/-! ### The shards and the single store -/

/-- The shards hold what the single store holds, each the keys that hash to it. -/
structure Refines (s : ShardedStore σ) (m : MapStore σ) : Prop where
  policy : m.policy = none
  agree : ∀ (i : ℕ) (x : MapStore σ), s.shards[i]? = some x → AgreeOn {k | s.shardFor k = i} m x
  placed : ∀ (i : ℕ) (x : MapStore σ), s.shards[i]? = some x → ∀ k ∈ x.data, s.shardFor k = i

namespace Refines

variable {s : ShardedStore σ} {m : MapStore σ}

lemma getElem?_shard (h : Refines s m) {i : ℕ} {x : MapStore σ} (hx : s.shards[i]? = some x)
    (k : Bytes) (e : Entry) :
    x.data[k]? = some e ↔ (s.shardFor k : ℕ) = i ∧ m.data[k]? = some e := by
  constructor
  · intro he
    have hi := h.placed i x hx k (ExtTreeMap.getElem?_eq_some_iff.mp he).1
    rw [(h.agree i x hx).entry k hi] at he
    exact ⟨hi, he⟩
  · rintro ⟨hi, he⟩
    rw [(h.agree i x hx).entry k hi, he]

lemma getElem?_shardFor (s : ShardedStore σ) (key : Bytes) :
    s.shards[(s.shardFor key : ℕ)]? = some (s.shards.get (s.shardFor key)) :=
  List.getElem?_eq_getElem (s.shardFor key).isLt

lemma perm (h : Refines s m) :
    (s.shards.flatMap fun x => x.data.toList).Perm m.data.toList := by
  have hnd : ∀ d : ExtTreeMap Bytes Entry, d.toList.Nodup := fun d => by
    have hkeys := d.nodup_keys
    rw [← ExtTreeMap.map_fst_toList_eq_keys] at hkeys
    exact hkeys.of_map Prod.fst
  have hdisj : s.shards.Pairwise fun x y => List.Disjoint x.data.toList y.data.toList := by
    rw [List.pairwise_iff_getElem]
    rintro i j hi hj hij ⟨k, e⟩ hx hy
    rw [ExtTreeMap.mem_toList_iff_getElem?_eq_some] at hx hy
    have hi := ((h.getElem?_shard (List.getElem?_eq_getElem hi) k e).mp hx).1
    have hj := ((h.getElem?_shard (List.getElem?_eq_getElem hj) k e).mp hy).1
    omega
  refine (List.perm_ext_iff_of_nodup (List.nodup_flatMap.mpr ⟨fun x _ => hnd x.data, hdisj⟩)
    (hnd m.data)).mpr ?_
  rintro ⟨k, e⟩
  rw [List.mem_flatMap, ExtTreeMap.mem_toList_iff_getElem?_eq_some]
  constructor
  · rintro ⟨x, hx, he⟩
    obtain ⟨i, hi⟩ := List.mem_iff_getElem?.mp hx
    exact ((h.getElem?_shard hi k e).mp (ExtTreeMap.mem_toList_iff_getElem?_eq_some.mp he)).2
  · intro he
    exact ⟨_, List.get_mem s.shards (s.shardFor k), ExtTreeMap.mem_toList_iff_getElem?_eq_some.mpr
      ((h.getElem?_shard (getElem?_shardFor s k) k e).mpr ⟨rfl, he⟩)⟩

lemma size_eq (h : Refines s m) : s.size = m.size := by
  have hlen := h.perm.length_eq
  rw [List.length_flatMap, ExtTreeMap.length_toList] at hlen
  rw [ShardedStore.size, MapStore.size, ← hlen]
  simp only [ExtTreeMap.length_toList]
  rfl

lemma range_perm (h : Refines s m) (o : EntryOrder) (now : ℕ) :
    (s.range o now).Perm (m.range o now) := by
  -- leaving out the order, visiting is a filter and a map over the entries
  have hvisit : ∀ x : MapStore σ, (x.range o now).Perm
      ((x.data.toList.filter fun p => !p.2.expired now).map fun p => (p.1, p.2.value)) := fun x =>
    ((o.perm 0 x.data.toList).filter _).map _
  calc s.range o now
      _ |>.Perm (s.shards.flatMap fun x => (x.data.toList.filter fun p => !p.2.expired now).map
            fun p => (p.1, p.2.value)) := List.Perm.flatMap_left _ fun x _ => hvisit x
      _ |>.Perm (((s.shards.flatMap fun x => x.data.toList).filter fun p => !p.2.expired now).map
            fun p => (p.1, p.2.value)) := by
          rw [List.filter_flatMap, List.map_flatMap]
      _ |>.Perm ((m.data.toList.filter fun p => !p.2.expired now).map
            fun p => (p.1, p.2.value)) := (h.perm.filter _).map _
      _ |>.Perm (m.range o now) := (hvisit m).symm

lemma reaped_eq (h : Refines s m) (o : EntryOrder) (now : ℕ) :
    (s.reapExpired o now).1 = (m.reapExpired o now).1 := by
  simp only [ShardedStore.reapExpired, MapStore.reapExpired_count]
  rw [← h.perm.countP_eq, List.countP_flatMap]
  rfl

lemma onShard (h : Refines s m) {op : Op} {key : Bytes} (hop : op.key = some key) (now : ℕ) :
    (s.onShard key fun x => x.call now op).1 = (m.call now op).1 ∧
      Refines (s.onShard key fun x => x.call now op).2 (m.call now op).2 := by
  have hshard := getElem?_shardFor s key
  obtain ⟨hr, hs⟩ := (h.agree _ _ hshard).call hop rfl now
  have hplaced : ∀ k : Bytes, ((s.onShard key fun x => x.call now op).2.shardFor k : ℕ) =
      s.shardFor k := fun k => by simp [ShardedStore.onShard, ShardedStore.shardFor]
  refine ⟨hr, ⟨hs.policy, fun i x hx => ?_, fun i x hx k hk => ?_⟩⟩
  · simp only [hplaced]
    simp only [ShardedStore.onShard, List.getElem?_set] at hx
    split_ifs at hx with hi
    · cases hx
      exact hi ▸ hs
    · -- the other shards are left as they are, and so are their keys in the single store
      have hold := h.agree i x hx
      refine ⟨?_, hs.policy, fun k hk => ?_⟩
      · exact (MapStore.call_sameLimits m now op).symm.trans hold.limits
      · have hne : k ≠ key := fun heq => hi (heq ▸ hk)
        rw [call_frame h.policy hop now hne]
        exact hold.entry k hk
  · rw [hplaced]
    simp only [ShardedStore.onShard, List.getElem?_set] at hx
    split_ifs at hx with hi
    · cases hx
      by_cases hkey : k = key
      · rw [hkey, hi]
      · have hin : k ∈ (s.shards.get (s.shardFor key)).data := by
          rw [← ExtTreeMap.isSome_getElem?_iff_mem] at hk ⊢
          rwa [call_frame (h.agree _ _ hshard).policy' hop now hkey] at hk
        exact (h.placed _ _ hshard k hin).trans hi
    · exact h.placed i x hx k hk

lemma reapExpired (h : Refines s m) (o : EntryOrder) (now : ℕ) :
    Refines (s.reapExpired o now).2 (m.reapExpired o now).2 := by
  have hlim := MapStore.reapExpired_sameLimits m o now
  have hplaced : ∀ k : Bytes, ((s.reapExpired o now).2.shardFor k : ℕ) = s.shardFor k :=
    fun k => by simp [ShardedStore.reapExpired, ShardedStore.shardFor]
  have hshard : ∀ (i : ℕ) (x : MapStore σ), (s.reapExpired o now).2.shards[i]? = some x →
      ∃ y : MapStore σ, s.shards[i]? = some y ∧ x = (y.reapExpired o now).2 := by
    intro i x hx
    simp only [ShardedStore.reapExpired, List.getElem?_map, Option.map_eq_some_iff] at hx
    obtain ⟨y, hy, rfl⟩ := hx
    exact ⟨y, hy, rfl⟩
  refine ⟨hlim.policy.trans h.policy, fun i x hx => ?_, fun i x hx k hk => ?_⟩
  · obtain ⟨y, hy, rfl⟩ := hshard i x hx
    have hold := h.agree i y hy
    have hlim' := MapStore.reapExpired_sameLimits y o now
    refine ⟨(hlim.symm.trans hold.limits).trans hlim', hlim.policy.trans h.policy, fun k hk => ?_⟩
    rw [MapStore.getElem?_reapExpired, MapStore.getElem?_reapExpired]
    rw [hold.entry k (by simpa [hplaced] using hk)]
  · obtain ⟨y, hy, rfl⟩ := hshard i x hx
    rw [hplaced]
    refine h.placed i y hy k ?_
    rw [← ExtTreeMap.isSome_getElem?_iff_mem] at hk ⊢
    rw [MapStore.getElem?_reapExpired] at hk
    exact Option.isSome_of_isSome_filter _ _ hk

/-- **One call**: the same reply, and the shards still hold what the single store holds. -/
lemma call (h : Refines s m) (now : ℕ) (op : Op) :
    Reply.Same (s.call now op).1 (m.call now op).1 ∧
      Refines (s.call now op).2 (m.call now op).2 := by
  rcases hop : op.key with _ | key
  · cases op with
    | size =>
      simp only [ShardedStore.call, MapStore.call, h.size_eq]
      exact ⟨.refl _, h⟩
    | range o => exact ⟨.visited (h.range_perm o now), h⟩
    | reapExpired o =>
      simp only [ShardedStore.call, MapStore.call, h.reaped_eq]
      exact ⟨.refl _, h.reapExpired o now⟩
    | _ => cases hop
  · have hcall : s.call now op = s.onShard key fun x => x.call now op := by
      cases op with
      | size | range | reapExpired => cases hop
      | _ => cases hop; rfl
    obtain ⟨hr, hs⟩ := h.onShard hop now
    rw [hcall, hr]
    exact ⟨.refl _, hs⟩

lemma replies (h : Refines s m) (calls : History) :
    List.Forall₂ Reply.Same (s.replies calls) (m.replies calls) := by
  induction calls generalizing s m with
  | nil => exact .nil
  | cons c calls ih =>
    obtain ⟨hsame, hnext⟩ := h.call c.1 c.2
    exact .cons hsame (ih hnext)

end Refines

lemma refines_newSharded (shardCount : ℤ) (hash : Bytes → UInt64) {new : MapStore σ}
    (hp : new.policy = none) (hempty : new.data = ∅) :
    Refines (newSharded shardCount hash new) new := by
  have hnew : ∀ (i : ℕ) (x : MapStore σ),
      (newSharded shardCount hash new).shards[i]? = some x → x = new := by
    intro i x hx
    exact List.eq_of_mem_replicate (List.mem_of_getElem? hx)
  refine ⟨hp, fun i x hx => ?_, fun i x hx k hk => ?_⟩
  · rw [hnew i x hx]
    exact ⟨.refl new, hp, fun _ _ => rfl⟩
  · rw [hnew i x hx, hempty] at hk
    simp at hk

/-- **Sharding is transparent**: whatever the number of shards and the hash, every history is
answered as by one store with the same limits. -/
theorem sharding_transparent (shardCount : ℤ) (hash : Bytes → UInt64)
    (maxKeySize maxValueSize maxEntries : ℕ) (state : σ) (calls : History) :
    List.Forall₂ Reply.Same
      ((newSharded shardCount hash { maxKeySize, maxValueSize, maxEntries, state }).replies calls)
      (({ maxKeySize, maxValueSize, maxEntries, state } : MapStore σ).replies calls) :=
  (refines_newSharded shardCount hash rfl rfl).replies calls

end Kyria.Store
