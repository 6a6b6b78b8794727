import Kyria.Store

/-!
Histories of a store: the calls clients and the janitor make one after the other, each at a
time, and what they are answered.
-/

namespace Kyria.Store

open Std (ExtTreeMap)
open Kyria.Lib.Cursor Kyria.Lib.MapOrder

variable {σ : Type}

namespace MapStore

/-- `UpdateReplica` for a function that can tell a missing value from an empty one. -/
def updateReplicaWith (m : MapStore σ) (o : EntryOrder) (now : ℕ) (key : Bytes)
    (fn : Option Bytes → Bytes) : Except StoreError Unit × MapStore σ :=
  let (old, m') := m.get now key
  let (admitted, m'') := m'.setEntry o key (fn old) 0 true
  (admitted.map fun _ => (), m'')

/-- The sweep of the janitor over the entries of one store. -/
def reapExpired (m : MapStore σ) (o : EntryOrder) (now : ℕ) : ℕ × MapStore σ :=
  (o.visit 0 m.data.toList).foldl (fun (removed, m) (k, e) =>
    if e.expired now then (removed + 1, { m with data := m.data.erase k }) else (removed, m)) (0, m)

end MapStore

/-- The calls of the `Store` interface, and the sweep. -/
inductive Op where
  | get (key : Bytes)
  | set (o : EntryOrder) (key value : Bytes)
  | setWithTTL (o : EntryOrder) (key value : Bytes) (ttl : ℤ)
  | updateReplica (o : EntryOrder) (key : Bytes) (fn : Option Bytes → Bytes)
  | delete (key : Bytes)
  | deleteIf (key : Bytes) (pred : Bytes → Bool)
  | size
  | range (o : EntryOrder)
  | reapExpired (o : EntryOrder)

/-- What a call is answered. `handed` is what the function of the call got to see. -/
inductive Reply where
  | value (v : Option Bytes)
  | stored (r : Except StoreError Bool)
  | updated (handed : Option Bytes) (r : Except StoreError Unit)
  | deleted (b : Bool)
  | deletedIf (handed : Option Bytes) (b : Bool)
  | count (n : ℕ)
  | visited (entries : List (Bytes × Bytes))

/-- Equal, but for the order in which entries were visited. -/
inductive Reply.Same : Reply → Reply → Prop where
  | refl (r : Reply) : Same r r
  | visited {l l' : List (Bytes × Bytes)} (h : l.Perm l') : Same (.visited l) (.visited l')

def MapStore.call (m : MapStore σ) (now : ℕ) : Op → Reply × MapStore σ
  | .get key => (.value (m.get now key).1, (m.get now key).2)
  | .set o key value => (.stored (m.set o key value).1, (m.set o key value).2)
  | .setWithTTL o key value ttl =>
    (.stored (m.setWithTTL o now key value ttl).1, (m.setWithTTL o now key value ttl).2)
  | .updateReplica o key fn =>
    (.updated (m.get now key).1 (m.updateReplicaWith o now key fn).1,
      (m.updateReplicaWith o now key fn).2)
  | .delete key => (.deleted (m.delete key).1, (m.delete key).2)
  | .deleteIf key pred =>
    (.deletedIf (m.get now key).1 (m.deleteIf now key pred).1, (m.deleteIf now key pred).2)
  | .size => (.count m.size, m)
  | .range o => (.visited (m.range o now), m)
  | .reapExpired o => (.count (m.reapExpired o now).1, (m.reapExpired o now).2)

/-- A history: the calls with the times they are made at. -/
abbrev History := List (ℕ × Op)

/-- The store after a history. -/
def MapStore.after (m : MapStore σ) (calls : History) : MapStore σ :=
  calls.foldl (fun m c => (m.call c.1 c.2).2) m

/-- The replies to a history. -/
def MapStore.replies (m : MapStore σ) : History → List Reply
  | [] => []
  | c :: calls => (m.call c.1 c.2).1 :: MapStore.replies (m.call c.1 c.2).2 calls

/-! ### What a sweep does -/

namespace MapStore

variable {m : MapStore σ}

lemma mem_range_iff (o : EntryOrder) (now : ℕ) {key value : Bytes} :
    (key, value) ∈ m.range o now ↔
      ∃ e, m.data[key]? = some e ∧ e.expired now = false ∧ e.value = value := by
  simp only [range, List.mem_map, List.mem_filter, VisitOrder.mem_visit, Prod.exists,
    ExtTreeMap.mem_toList_iff_getElem?_eq_some, Bool.not_eq_true', Prod.mk.injEq]
  constructor
  · rintro ⟨k, e, ⟨hk, he⟩, rfl, hv⟩
    exact ⟨e, hk, he, hv⟩
  · rintro ⟨e, hk, he, hv⟩
    exact ⟨key, e, ⟨hk, he⟩, rfl, hv⟩

lemma nodup_keys_range (m : MapStore σ) (o : EntryOrder) (now : ℕ) :
    ((m.range o now).map Prod.fst).Nodup := by
  have hsub : ((m.range o now).map Prod.fst).Sublist ((o.visit 0 m.data.toList).map Prod.fst) := by
    rw [range, List.map_map]
    exact List.filter_sublist.map Prod.fst
  exact (o.nodup_keys 0 m.data).sublist hsub

lemma nodup_range (m : MapStore σ) (o : EntryOrder) (now : ℕ) : (m.range o now).Nodup :=
  (nodup_keys_range m o now).of_map Prod.fst

lemma reapExpired_loop (now : ℕ) (l : List (Bytes × Entry)) (removed : ℕ) (m : MapStore σ) :
    l.foldl (fun (removed, m) (k, e) =>
      if e.expired now then (removed + 1, ({ m with data := m.data.erase k } : MapStore σ))
      else (removed, m)) (removed, m) =
    (removed + l.countP fun p => p.2.expired now,
      { m with
        data := (l.filter fun p => p.2.expired now).foldl (fun d p => d.erase p.1) m.data }) := by
  induction l generalizing removed m with
  | nil => simp
  | cons p l ih =>
    by_cases hp : p.2.expired now = true
    · simp only [List.foldl_cons, hp, if_true, ih, List.countP_cons, List.filter_cons,
        Nat.add_assoc, Nat.add_comm 1]
    · simp only [List.foldl_cons, hp, if_false, ih, List.countP_cons, List.filter_cons,
        Bool.false_eq_true, Nat.add_zero]

lemma getElem?_foldl_erase (l : List (Bytes × Entry)) (d : ExtTreeMap Bytes Entry) (k : Bytes) :
    (l.foldl (fun d p => d.erase p.1) d)[k]? = if k ∈ l.map Prod.fst then none else d[k]? := by
  induction l generalizing d with
  | nil => simp
  | cons p l ih =>
    rw [List.foldl_cons, ih, List.map_cons, ExtTreeMap.getElem?_erase]
    by_cases hk : k = p.1
    · simp [hk]
    · have hiff : k ∈ p.1 :: l.map Prod.fst ↔ k ∈ l.map Prod.fst :=
        ⟨fun h => (List.mem_cons.mp h).resolve_left hk, List.mem_cons_of_mem _⟩
      have hcmp : ¬ compare p.1 k = .eq := by simpa using Ne.symm hk
      rw [if_neg hcmp]
      exact if_congr hiff.symm rfl rfl

/-- **A sweep removes exactly what has expired.** -/
lemma getElem?_reapExpired (m : MapStore σ) (o : EntryOrder) (now : ℕ) (k : Bytes) :
    (m.reapExpired o now).2.data[k]? = (m.data[k]?).filter fun e => !e.expired now := by
  rw [reapExpired, reapExpired_loop, getElem?_foldl_erase]
  have hmem : k ∈ ((o.visit 0 m.data.toList).filter fun p => p.2.expired now).map Prod.fst ↔
      ∃ e, m.data[k]? = some e ∧ e.expired now = true := by
    simp only [List.mem_map, List.mem_filter, VisitOrder.mem_visit, Prod.exists,
      ExtTreeMap.mem_toList_iff_getElem?_eq_some]
    constructor
    · rintro ⟨k', e, ⟨hk, he⟩, rfl⟩
      exact ⟨e, hk, he⟩
    · rintro ⟨e, hk, he⟩
      exact ⟨k, e, ⟨hk, he⟩, rfl⟩
  rcases hk : m.data[k]? with _ | e
  · simp
  · rw [hk] at hmem
    by_cases he : e.expired now = true
    · rw [if_pos (hmem.mpr ⟨e, rfl, he⟩), Option.filter_some_neg (by simp [he])]
    · have hkeep : ¬ ∃ e', some e = some e' ∧ e'.expired now = true := by
        rintro ⟨e', heq, he'⟩
        cases heq
        exact he he'
      rw [if_neg (mt hmem.mp hkeep), Option.filter_some_pos (by simp [he])]

lemma reapExpired_count (m : MapStore σ) (o : EntryOrder) (now : ℕ) :
    (m.reapExpired o now).1 = m.data.toList.countP fun p => p.2.expired now := by
  rw [reapExpired, reapExpired_loop, Nat.zero_add]
  exact (o.perm 0 m.data.toList).countP_eq _

lemma reapExpired_sameLimits (m : MapStore σ) (o : EntryOrder) (now : ℕ) :
    SameLimits m (m.reapExpired o now).2 := by
  rw [reapExpired, reapExpired_loop]
  exact ⟨rfl, rfl, rfl, rfl⟩

/-! ### Limits -/

lemma setEntry_sameLimits (m : MapStore σ) (o : EntryOrder) (key value : Bytes) (expiresAt : ℕ)
    (bypass : Bool) : SameLimits m (m.setEntry o key value expiresAt bypass).2 := by
  by_cases hacc : m.Accepts key value
  · obtain ⟨_, m', hset, hst⟩ := setEntry_of_accepts hacc o expiresAt bypass
    rw [hset]
    exact hst.limits
  · obtain ⟨err, hset⟩ := setEntry_of_not_accepts hacc o expiresAt bypass
    rw [hset]
    exact .refl m

lemma call_sameLimits (m : MapStore σ) (now : ℕ) (op : Op) : SameLimits m (m.call now op).2 := by
  have hget := fun key => get_sameLimits m now key
  cases op with
  | get key => exact hget key
  | set o key value => exact setEntry_sameLimits m o key value 0 false
  | setWithTTL o key value ttl =>
    simp only [call, setWithTTL]
    split_ifs
    · exact .refl m
    · exact setEntry_sameLimits m o key value _ false
  | updateReplica o key fn => exact (hget key).trans (setEntry_sameLimits _ o key _ 0 true)
  | delete key => exact ⟨rfl, rfl, rfl, rfl⟩
  | deleteIf key pred => exact deleteIf_sameLimits m now key pred
  | size => exact .refl m
  | range o => exact .refl m
  | reapExpired o => exact reapExpired_sameLimits m o now

end MapStore

/-! ### Stores without a policy -/

namespace MapStore

/-- The size check a pair fails, if any. -/
def rejection (m : MapStore σ) (key value : Bytes) : Option StoreError :=
  if key.length = 0 then some .errEmptyKey
  else if key.length > m.maxKeySize then some .errKeyTooLarge
  else if value.length > m.maxValueSize then some .errValueTooLarge
  else none

lemma SameLimits.rejection_eq {m m' : MapStore σ} (h : SameLimits m m') (key value : Bytes) :
    m'.rejection key value = m.rejection key value := by
  rw [rejection, rejection, h.maxKeySize, h.maxValueSize]

section NoPolicy

variable {m : MapStore σ} (hp : m.policy = none)

include hp

lemma setEntry_eq (o : EntryOrder) (key value : Bytes) (expiresAt : ℕ) (bypass : Bool) :
    m.setEntry o key value expiresAt bypass =
      match m.rejection key value with
      | some err => (.error err, m)
      | none => (.ok true, { m with data := m.data.insert key ⟨value, expiresAt, 0⟩ }) := by
  unfold setEntry rejection
  split_ifs <;> simp only [hp]

lemma get_eq (now : ℕ) (key : Bytes) :
    m.get now key = (((m.data[key]?).filter fun e => !e.expired now).map Entry.value, m) := by
  unfold get
  rcases hk : m.data[key]? with _ | e
  · rfl
  · by_cases he : e.expired now = true
    · simp [he]
    · simp [he, hp]

end NoPolicy

end MapStore

end Kyria.Store
