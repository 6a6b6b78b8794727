import Kyria.Lib.Cursor

/-!
Parked writes (`internal/server/handoff.go`): for a replica that could not be reached, the
last blob of each key it still owes.
-/

namespace Kyria.Handoff

open Std (ExtTreeMap)
open Kyria.Lib.Cursor

abbrev HintStore := ExtTreeMap Bytes (ExtTreeMap Bytes Bytes)

namespace HintStore

/-- A blob parked earlier for the same target and key is overwritten. -/
def add (h : HintStore) (target key blob : Bytes) : HintStore :=
  h.insert target ((h.getD target ∅).insert key blob)

/-- Go reads an absent blob as an empty one, so the comparison with `delivered` does too. -/
def remove (h : HintStore) (target key delivered : Bytes) : HintStore :=
  match h[target]? with
  | none => h
  | some keys =>
    if keys.getD key [] ≠ delivered then h
    else
      let keys := keys.erase key
      if keys.size = 0 then h.erase target else h.insert target keys

/-- The parked hints, one after the other: target, key and blob. -/
def snapshot (h : HintStore) : List (Bytes × Bytes × Bytes) :=
  h.toList.flatMap fun (target, keys) => keys.toList.map fun (key, blob) => (target, key, blob)

/-- The blob parked for a target under a key. -/
def parked (h : HintStore) (target key : Bytes) : Option Bytes :=
  h[target]?.bind fun keys => keys[key]?

variable (h : HintStore) (target key blob : Bytes)

lemma parked_add (target' key' : Bytes) :
    (h.add target key blob).parked target' key' =
      if target = target' ∧ key = key' then some blob else h.parked target' key' := by
  unfold add parked
  rw [ExtTreeMap.getElem?_insert]
  by_cases ht : target = target'
  · subst ht
    rw [if_pos (Std.compare_self), Option.bind_some, ExtTreeMap.getElem?_insert]
    simp only [Std.LawfulEqOrd.compare_eq_iff_eq, true_and]
    split_ifs
    · rfl
    · rw [ExtTreeMap.getD_eq_getD_getElem?]
      cases h[target]? <;> simp
  · rw [if_neg (by simpa using ht), if_neg (by simp [ht])]

lemma parked_drop {keys : ExtTreeMap Bytes Bytes} (hk : h[target]? = some keys)
    (target' key' : Bytes) :
    parked (if (keys.erase key).size = 0 then h.erase target else h.insert target (keys.erase key))
        target' key' =
      if target = target' ∧ key = key' then none else h.parked target' key' := by
  have hdrop : parked (if (keys.erase key).size = 0 then h.erase target
      else h.insert target (keys.erase key)) target' key' =
      if target = target' then (keys.erase key)[key']? else h.parked target' key' := by
    unfold parked
    split
    · rename_i hs
      rw [← beq_iff_eq, ← ExtTreeMap.isEmpty_eq_size_beq_zero, ExtTreeMap.isEmpty_iff] at hs
      rw [ExtTreeMap.getElem?_erase]
      by_cases ht : target = target' <;> simp [ht, hs]
    · rw [ExtTreeMap.getElem?_insert]
      by_cases ht : target = target' <;> simp [ht]
  rw [hdrop, ExtTreeMap.getElem?_erase]
  by_cases ht : target = target'
  · subst ht
    by_cases hkk : key = key' <;> simp [hkk, parked, hk]
  · simp [ht]

lemma parked_remove (target' key' : Bytes) :
    (h.remove target key blob).parked target' key' =
      if target = target' ∧ key = key' ∧ h.parked target key = some blob then none
      else h.parked target' key' := by
  unfold remove
  rcases hk : h[target]? with _ | keys
  · simp [parked, hk]
  · have hp : h.parked target key = keys[key]? := by simp [parked, hk]
    simp only [ExtTreeMap.getD_eq_getD_getElem?, ← hp]
    by_cases hd : (h.parked target key).getD [] = blob
    · rw [if_neg (by simpa using hd), parked_drop h target key hk]
      rcases hb : h.parked target key with _ | b
      · by_cases he : target = target' ∧ key = key'
        · obtain ⟨rfl, rfl⟩ := he
          simp [hb]
        · simp [he]
      · rw [hb, Option.getD_some] at hd
        simp [hd]
    · have hne : h.parked target key ≠ some blob := by
        rintro he
        simp [he] at hd
      rw [if_pos hd, if_neg (by simp [hne])]

lemma mem_snapshot {target key blob : Bytes} :
    (target, key, blob) ∈ h.snapshot ↔ h.parked target key = some blob := by
  simp only [snapshot, parked, List.mem_flatMap, List.mem_map, Prod.exists, Prod.mk.injEq,
    Option.bind_eq_some_iff, ExtTreeMap.mem_toList_iff_getElem?_eq_some]
  aesop

end HintStore

end Kyria.Handoff
