import Kyria.Store.Ops

/-!
What a call records with the eviction policy of a store.

A call looks up at most one key and stores at most one pair, under the same key; each of the
two is recorded with the policy. Whatever else it does to the store is to take entries out.
-/

namespace Kyria.Store

open Std (ExtTreeMap)
open Kyria.Lib.Cursor Kyria.Lib.MapOrder

variable {σ : Type}

namespace MapStore

/-- The entry a lookup finds. -/
def lookup (m : MapStore σ) (now : ℕ) (key : Bytes) : Option Entry :=
  (m.data[key]?).filter fun e => !e.expired now

/-- A lookup that finds the entry. -/
def access (m : MapStore σ) (p : Policy σ) (key : Bytes) (e : Entry) : MapStore σ :=
  let (state, hint) := p.recordAccess m.state key e.hint
  { m with state, data := m.data.insert key { e with hint } }

end MapStore

/-- The key a call looks up. -/
def Op.looksUp : Op → Option Bytes
  | .get key | .updateReplica _ key _ | .deleteIf key _ => some key
  | _ => none

namespace MapStore

/-- The key a call finds, with its entry. -/
def found (m : MapStore σ) (now : ℕ) (op : Op) : Option (Bytes × Entry) :=
  op.looksUp.bind fun key => (m.lookup now key).map fun e => (key, e)

/-- The pair a call stores, with its expiry: one that is within the limits. -/
def written (m : MapStore σ) (now : ℕ) : Op → Option (Bytes × Bytes × ℕ)
  | .set _ key value => if m.Accepts key value then some (key, value, 0) else none
  | .setWithTTL _ key value ttl =>
    if 0 < ttl ∧ m.Accepts key value then some (key, value, now + ttl.toNat) else none
  | .updateReplica _ key fn =>
    let value := fn (m.get now key).1
    if m.Accepts key value then some (key, value, 0) else none
  | _ => none

/-- The key a call touches. -/
def touched (m : MapStore σ) (now : ℕ) (op : Op) : Option Bytes :=
  ((m.written now op).map Prod.fst).or ((m.found now op).map Prod.fst)

/-- The number of times the call turns to the policy. -/
def touches (m : MapStore σ) (now : ℕ) (op : Op) : ℕ :=
  (m.found now op).toList.length + (m.written now op).toList.length

/-- The store with the lookup of a call recorded. -/
def looked (m : MapStore σ) (p : Policy σ) (now : ℕ) (op : Op) : MapStore σ :=
  (m.found now op).elim m fun (key, e) => m.access p key e

/-- The store with all of the call recorded, before anything is taken out. -/
def recorded (m : MapStore σ) (p : Policy σ) (now : ℕ) (op : Op) : MapStore σ :=
  (m.written now op).elim (m.looked p now op) fun (key, value, expiresAt) =>
    (m.looked p now op).put p key value expiresAt

lemma recorded_of_written {m : MapStore σ} (p : Policy σ) {now : ℕ} {op : Op}
    {key value : Bytes} {expiresAt : ℕ} (h : m.written now op = some (key, value, expiresAt)) :
    m.recorded p now op = (m.looked p now op).put p key value expiresAt := by
  rw [recorded, h]
  rfl

/-- `m'` is `m` without some of its entries. -/
structure Shrinks (m m' : MapStore σ) : Prop where
  state : m'.state = m.state
  data : ∀ k : Bytes, m'.data[k]? = m.data[k]? ∨ m'.data[k]? = none

lemma Shrinks.refl (m : MapStore σ) : Shrinks m m := ⟨rfl, fun _ => .inl rfl⟩

lemma Shrinks.entry {m m' : MapStore σ} (h : Shrinks m m') {k : Bytes} {e : Entry}
    (he : m'.data[k]? = some e) : m.data[k]? = some e := by
  rcases h.data k with hk | hk
  · exact hk.symm.trans he
  · rw [hk] at he
    cases he

lemma shrinks_erase (m : MapStore σ) (key : Bytes) :
    Shrinks m { m with data := m.data.erase key } := by
  refine ⟨rfl, fun k => ?_⟩
  rw [ExtTreeMap.getElem?_erase]
  exact (em _).symm.imp (fun h => if_neg h) fun h => if_pos h

section Policy

variable {m : MapStore σ} {p : Policy σ} (hp : m.policy = some p)

include hp

lemma get_of_policy (now : ℕ) (key : Bytes) :
    m.get now key =
      (m.lookup now key).elim (none, m) fun e => (some e.value, m.access p key e) := by
  unfold get lookup
  rcases hk : m.data[key]? with _ | e
  · rfl
  · by_cases he : e.expired now = true
    · rw [Option.filter_some_neg (by simp [he])]
      simp [he]
    · rw [Option.filter_some_pos (by simp [he])]
      simp [he, hp, access]

end Policy

lemma evictIfNeeded_shrinks (m : MapStore σ) (o : EntryOrder) (p : Policy σ) (key : Bytes)
    (hint : UInt64) (bypass : Bool) : Shrinks m (m.evictIfNeeded o p key hint bypass).2 := by
  unfold evictIfNeeded
  split
  · exact .refl m
  · split
    · exact .refl m
    · exact shrinks_erase m _

lemma shrinks_reapExpired (m : MapStore σ) (o : EntryOrder) (now : ℕ) :
    Shrinks m (m.reapExpired o now).2 := by
  refine ⟨by rw [reapExpired, reapExpired_loop], fun k => ?_⟩
  rw [getElem?_reapExpired]
  rcases m.data[k]? with _ | e
  · exact .inr rfl
  · by_cases hexp : e.expired now = true
    · exact .inr (Option.filter_some_neg (by simp [hexp]))
    · exact .inl (Option.filter_some_pos (by simp [hexp]))

/-! ### The lookup of a call -/

lemma entry_of_found {m : MapStore σ} {now : ℕ} {op : Op} {key : Bytes} {e : Entry}
    (h : m.found now op = some (key, e)) : m.data[key]? = some e := by
  simp only [found, Option.bind_eq_some_iff, Option.map_eq_some_iff, Prod.mk.injEq] at h
  obtain ⟨k, -, e', he', rfl, rfl⟩ := h
  exact (Option.filter_eq_some_iff.mp he').1

lemma found_key_eq {m : MapStore σ} {now : ℕ} {op : Op} {key value k : Bytes} {expiresAt : ℕ}
    {e : Entry} (hw : m.written now op = some (key, value, expiresAt))
    (hf : m.found now op = some (k, e)) : k = key := by
  cases op with
  | updateReplica o x fn =>
    simp only [written, Option.ite_none_right_eq_some, Option.some.injEq, Prod.mk.injEq] at hw
    simp only [found, Op.looksUp, Option.bind_some, Option.map_eq_some_iff, Prod.mk.injEq] at hf
    obtain ⟨-, rfl, -⟩ := hw
    obtain ⟨-, -, rfl, -⟩ := hf
    rfl
  | set | setWithTTL => cases hf
  | _ => cases hw

lemma looked_sameLimits (m : MapStore σ) (p : Policy σ) (now : ℕ) (op : Op) :
    SameLimits m (m.looked p now op) := by
  unfold looked
  rcases m.found now op with _ | ⟨key, e⟩ <;> exact ⟨rfl, rfl, rfl, rfl⟩

lemma getElem?_looked (m : MapStore σ) (p : Policy σ) (now : ℕ) (op : Op) (k : Bytes) :
    (m.looked p now op).data[k]? =
      match m.found now op with
      | none => m.data[k]?
      | some (key, e) =>
        if key = k then some { e with hint := (p.recordAccess m.state key e.hint).2 }
        else m.data[k]? := by
  unfold looked
  rcases m.found now op with _ | ⟨key, e⟩
  · rfl
  · simp only [Option.elim_some, access, ExtTreeMap.getElem?_insert,
      Std.LawfulEqOrd.compare_eq_iff_eq]

lemma mem_looked_iff (m : MapStore σ) (p : Policy σ) (now : ℕ) (op : Op) (k : Bytes) :
    k ∈ (m.looked p now op).data ↔ k ∈ m.data := by
  rw [← ExtTreeMap.isSome_getElem?_iff_mem, ← ExtTreeMap.isSome_getElem?_iff_mem,
    getElem?_looked]
  rcases hf : m.found now op with _ | ⟨key, e⟩
  · rfl
  · by_cases hk : key = k
    · subst hk
      simp [entry_of_found hf]
    · simp [hk]

lemma size_looked (m : MapStore σ) (p : Policy σ) (now : ℕ) (op : Op) :
    (m.looked p now op).size = m.size := by
  unfold looked
  rcases hf : m.found now op with _ | ⟨key, e⟩
  · rfl
  · have hin : key ∈ m.data := (ExtTreeMap.getElem?_eq_some_iff.mp (entry_of_found hf)).1
    simp [access, size, ExtTreeMap.size_insert, hin]

lemma getElem?_recorded (m : MapStore σ) (p : Policy σ) (now : ℕ) (op : Op) (k : Bytes) :
    (m.recorded p now op).data[k]? =
      match m.written now op with
      | none => (m.looked p now op).data[k]?
      | some (key, value, expiresAt) =>
        if key = k then
          some ⟨value, expiresAt, (p.recordInsert (m.looked p now op).state key 0).2⟩
        else m.data[k]? := by
  unfold recorded
  rcases hw : m.written now op with _ | ⟨key, value, expiresAt⟩
  · rfl
  · simp only [Option.elim_some, put, ExtTreeMap.getElem?_insert,
      Std.LawfulEqOrd.compare_eq_iff_eq]
    refine ite_congr rfl (fun _ => rfl) fun hk => ?_
    rw [getElem?_looked]
    rcases hf : m.found now op with _ | ⟨key', e⟩
    · rfl
    · obtain rfl := found_key_eq hw hf
      simp only [if_neg hk]

/-! ### The whole call -/

lemma updateReplica_of_not_written {m : MapStore σ} {now : ℕ} {o : EntryOrder} {key : Bytes}
    {fn : Option Bytes → Bytes} (h : m.written now (.updateReplica o key fn) = none) :
    (m.call now (.updateReplica o key fn)).2 = (m.get now key).2 := by
  have hacc : ¬ m.Accepts key (fn (m.get now key).1) := fun hacc => by simp [written, hacc] at h
  have hlim := get_sameLimits m now key
  obtain ⟨err, hset⟩ := setEntry_of_not_accepts (mt (hlim.accepts_iff _ _).mp hacc) o 0 true
  have hcall : (m.call now (.updateReplica o key fn)).2 =
      ((m.get now key).2.setEntry o key (fn (m.get now key).1) 0 true).2 := rfl
  rw [hcall, hset]

section Call

variable {m : MapStore σ} {p : Policy σ} (hp : m.policy = some p)

include hp

lemma setEntry_shrinks {key value : Bytes} (hacc : m.Accepts key value) (o : EntryOrder)
    (expiresAt : ℕ) (bypass : Bool) :
    Shrinks (m.put p key value expiresAt) (m.setEntry o key value expiresAt bypass).2 := by
  rw [setEntry_of_policy hp hacc]
  split
  · exact .refl _
  · exact evictIfNeeded_shrinks _ o p key _ bypass

lemma looked_of_looksUp {now : ℕ} {op : Op} {key : Bytes} (h : op.looksUp = some key) :
    m.looked p now op = (m.get now key).2 := by
  rw [get_of_policy hp, looked, found, h, Option.bind_some]
  rcases m.lookup now key with _ | e <;> rfl

lemma call_of_written {now : ℕ} {op : Op} {key value : Bytes} {expiresAt : ℕ}
    (h : m.written now op = some (key, value, expiresAt)) :
    (m.looked p now op).Accepts key value ∧ ∃ o bypass,
      (m.call now op).2 = ((m.looked p now op).setEntry o key value expiresAt bypass).2 := by
  cases op with
  | set o k v =>
    simp only [written, Option.ite_none_right_eq_some, Option.some.injEq, Prod.mk.injEq] at h
    obtain ⟨hacc, rfl, rfl, rfl⟩ := h
    exact ⟨hacc, o, false, rfl⟩
  | setWithTTL o k v ttl =>
    simp only [written, Option.ite_none_right_eq_some, Option.some.injEq, Prod.mk.injEq] at h
    obtain ⟨⟨httl, hacc⟩, rfl, rfl, rfl⟩ := h
    refine ⟨hacc, o, false, ?_⟩
    simp only [call, setWithTTL, if_neg (not_le.mpr httl)]
    rfl
  | updateReplica o k fn =>
    simp only [written, Option.ite_none_right_eq_some, Option.some.injEq, Prod.mk.injEq] at h
    obtain ⟨hacc, rfl, rfl, rfl⟩ := h
    rw [looked_of_looksUp hp rfl]
    exact ⟨((get_sameLimits m now k).accepts_iff _ _).mpr hacc, o, true, rfl⟩
  | _ => cases h

lemma call_of_not_written {now : ℕ} {op : Op} (h : m.written now op = none) :
    Shrinks (m.looked p now op) (m.call now op).2 := by
  cases op with
  | get key =>
    rw [looked_of_looksUp hp rfl]
    exact .refl _
  | set o key value =>
    have hacc : ¬ m.Accepts key value := fun hacc => by simp [written, hacc] at h
    obtain ⟨err, hset⟩ := setEntry_of_not_accepts hacc o 0 false
    simp only [call, set, hset]
    exact .refl m
  | setWithTTL o key value ttl =>
    simp only [call, setWithTTL]
    split_ifs with httl
    · exact .refl m
    · have hacc : ¬ m.Accepts key value := fun hacc => by simp [written, hacc, httl] at h
      obtain ⟨err, hset⟩ := setEntry_of_not_accepts hacc o (now + ttl.toNat) false
      rw [hset]
      exact .refl m
  | updateReplica o key fn =>
    rw [looked_of_looksUp hp rfl, updateReplica_of_not_written h]
    exact .refl _
  | delete key => exact shrinks_erase m key
  | deleteIf key pred =>
    rw [looked_of_looksUp hp rfl]
    simp only [call]
    rcases deleteIf_snd m now key pred with heq | heq
    · rw [heq]
      exact .refl _
    · rw [heq]
      exact shrinks_erase _ key
  | size => exact .refl m
  | range o => exact .refl m
  | reapExpired o => exact shrinks_reapExpired m o now

/-- **What a call does to the store**: its touches are recorded, and entries may go. -/
lemma call_shrinks (now : ℕ) (op : Op) : Shrinks (m.recorded p now op) (m.call now op).2 := by
  rcases hw : m.written now op with _ | ⟨key, value, expiresAt⟩
  · rw [recorded, hw]
    exact call_of_not_written hp hw
  · obtain ⟨hacc, o, bypass, hcall⟩ := call_of_written hp hw
    rw [recorded_of_written p hw, hcall]
    exact setEntry_shrinks ((looked_sameLimits m p now op).policy.trans hp) hacc o expiresAt bypass

lemma call_of_overwritten {now : ℕ} {op : Op} {key value : Bytes} {expiresAt : ℕ}
    (h : m.written now op = some (key, value, expiresAt)) (hk : key ∈ m.data) :
    (m.call now op).2 = m.recorded p now op := by
  obtain ⟨hacc, o, bypass, hcall⟩ := call_of_written hp h
  have hk' : (m.looked p now op).data.contains key = true :=
    ExtTreeMap.contains_iff_mem.mpr ((mem_looked_iff m p now op key).mpr hk)
  rw [hcall, setEntry_of_policy ((looked_sameLimits m p now op).policy.trans hp) hacc, if_pos hk',
    recorded_of_written p h]

end Call

end MapStore

end Kyria.Store
