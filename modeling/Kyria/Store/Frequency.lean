import Kyria.Store.Eviction
import Kyria.Store.Touch

/-!
The access counts of the LFU policy.

A count lives in the hint of an entry. Lookups raise it; a write makes a new entry whose hint
starts from the base count again, also when the key was there. So a count falls exactly when a
key that was found since it was last written is written again.
-/

namespace Kyria.Store

open Std (ExtTreeMap)
open Kyria.Lib.Cursor Kyria.Lib.MapOrder

namespace MapStore

variable {σ : Type}

/-- The eviction score of a resident key. -/
def scoreOf (m : MapStore σ) (p : Policy σ) (key : Bytes) : Option UInt64 :=
  (m.data[key]?).map fun e => p.score m.state key e.hint

/-- The call is a `Get` that finds the key. -/
def gets (m : MapStore σ) (now : ℕ) (key : Bytes) : Op → Bool
  | .get k => k = key && (m.get now k).1.isSome
  | _ => false

end MapStore

/-- A store with the LFU policy and nothing in it. -/
def newLFUStore (maxKeySize maxValueSize maxEntries : ℕ) : MapStore Unit where
  maxKeySize := maxKeySize
  maxValueSize := maxValueSize
  maxEntries := maxEntries
  policy := some lfu
  state := ()

/-- The successful `Get`s of a key since it became resident, counted along a history. -/
def getsSince (key : Bytes) (m : MapStore Unit) (calls : History) : ℕ :=
  (calls.foldl (fun (m, n) (now, op) =>
    let m' := (m.call now op).2
    (m', if m'.data.contains key then n + (m.gets now key op).toNat else 0)) (m, 0)).2

/-- What holds of every call of a history, in the store that it meets. -/
def AtEveryCall (m : MapStore Unit) (calls : History) (P : MapStore Unit → ℕ → Op → Prop) : Prop :=
  ∀ before now op, before ++ [(now, op)] <+: calls → P (m.after before) now op

/-- No key that stays resident loses score by the call. -/
def KeepsScores (m : MapStore Unit) (now : ℕ) (op : Op) : Prop :=
  ∀ key s s', m.scoreOf lfu key = some s → (m.call now op).2.scoreOf lfu key = some s' → s ≤ s'

/-- The call is a `DeleteIf` whose predicate holds of the entry. -/
def Op.deletes : Op → Entry → Bool
  | .deleteIf _ pred, e => pred e.value
  | _, _ => false

/-- The call overwrites no key that is counted above the base count, and wraps no count around. -/
structure Gentle (m : MapStore Unit) (now : ℕ) (op : Op) : Prop where
  overwrites : ∀ key value expiresAt e, m.written now op = some (key, value, expiresAt) →
    m.data[key]? = some e → e.hint ≤ lfuBaseCount
  counts : ∀ key e, m.written now op = none → m.found now op = some (key, e) →
    op.deletes e = false → e.hint.toNat + 1 < 2 ^ 64

/-! ### One call -/

lemma scoreOf_lfu (m : MapStore Unit) (key : Bytes) :
    m.scoreOf lfu key = (m.data[key]?).map Entry.hint := rfl

section Step

variable {m : MapStore Unit} (hp : m.policy = some lfu)

include hp

lemma hint_of_call {now : ℕ} {op : Op} {key : Bytes} {e' : Entry}
    (he' : (m.call now op).2.data[key]? = some e') :
    (∃ value expiresAt, m.written now op = some (key, value, expiresAt) ∧
      e'.hint = lfuBaseCount) ∨
    (∃ e, m.written now op = none ∧ m.found now op = some (key, e) ∧ e'.hint = e.hint + 1) ∨
    (∃ e, m.data[key]? = some e ∧ e'.hint = e.hint ∧
      ∀ e, m.found now op ≠ some (key, e)) := by
  have hrec := (MapStore.call_shrinks hp now op).entry he'
  rw [MapStore.getElem?_recorded] at hrec
  rcases hw : m.written now op with _ | ⟨k, value, expiresAt⟩
  · rw [hw, MapStore.getElem?_looked] at hrec
    rcases hf : m.found now op with _ | ⟨k, e⟩
    · rw [hf] at hrec
      exact .inr (.inr ⟨e', hrec, rfl, by simp⟩)
    · rw [hf] at hrec
      simp only at hrec
      split_ifs at hrec with hk
      · subst hk
        cases hrec
        exact .inr (.inl ⟨e, rfl, rfl, rfl⟩)
      · refine .inr (.inr ⟨e', hrec, rfl, ?_⟩)
        rintro e heq
        cases heq
        exact hk rfl
  · rw [hw] at hrec
    simp only at hrec
    split_ifs at hrec with hk
    · subst hk
      cases hrec
      exact .inl ⟨value, expiresAt, rfl, rfl⟩
    · refine .inr (.inr ⟨e', hrec, rfl, ?_⟩)
      intro e hf
      exact hk (MapStore.found_key_eq hw hf).symm

lemma mem_call_of_found {now : ℕ} {op : Op} {key : Bytes} {e : Entry}
    (hw : m.written now op = none) (hf : m.found now op = some (key, e)) :
    key ∈ (m.call now op).2.data ↔ op.deletes e = false := by
  have hlooked : key ∈ (m.looked lfu now op).data :=
    (MapStore.mem_looked_iff m lfu now op key).mpr
      (ExtTreeMap.getElem?_eq_some_iff.mp (MapStore.entry_of_found hf)).1
  obtain ⟨k, hop, hlookup⟩ := Option.bind_eq_some_iff.mp hf
  obtain ⟨_, hlookup, hpair⟩ := Option.map_eq_some_iff.mp hlookup
  cases hpair
  rw [MapStore.looked_of_looksUp hp hop] at hlooked
  cases op with
  | get =>
    cases hop
    exact iff_of_true hlooked rfl
  | updateReplica =>
    cases hop
    rw [MapStore.updateReplica_of_not_written hw]
    exact iff_of_true hlooked rfl
  | deleteIf _ pred =>
    cases hop
    have hget := MapStore.get_of_policy hp now key
    rw [hlookup, Option.elim_some] at hget
    rw [hget] at hlooked
    simp only [MapStore.call, MapStore.deleteIf, hget, Op.deletes]
    cases pred e.value
    · simpa using hlooked
    · simp [MapStore.delete]
  | _ => cases hop

lemma hint_of_overwritten {now : ℕ} {op : Op} {key value : Bytes} {expiresAt : ℕ}
    (hw : m.written now op = some (key, value, expiresAt)) (hk : key ∈ m.data) :
    (m.call now op).2.data[key]? = some ⟨value, expiresAt, lfuBaseCount⟩ := by
  rw [MapStore.call_of_overwritten hp hw hk, MapStore.getElem?_recorded, hw]
  simp only [if_true]
  rfl

lemma KeepsScores.gentle {now : ℕ} {op : Op} (h : KeepsScores m now op) : Gentle m now op := by
  have hle : ∀ (key : Bytes) e e', m.data[key]? = some e →
      (m.call now op).2.data[key]? = some e' → e.hint ≤ e'.hint := by
    intro key e e' he he'
    refine h key e.hint e'.hint ?_ ?_
    · rw [scoreOf_lfu, he, Option.map_some]
    · rw [scoreOf_lfu, he', Option.map_some]
  constructor
  · intro key value expiresAt e hw he
    have hk : key ∈ m.data := (ExtTreeMap.getElem?_eq_some_iff.mp he).1
    exact hle key e _ he (hint_of_overwritten hp hw hk)
  · intro key e hw hf hdel
    have hk := (mem_call_of_found hp hw hf).mpr hdel
    obtain ⟨e', he'⟩ : ∃ e', (m.call now op).2.data[key]? = some e' :=
      Option.isSome_iff_exists.mp (ExtTreeMap.isSome_getElem?_iff_mem.mpr hk)
    have hmono := hle key e e' (MapStore.entry_of_found hf) he'
    rcases hint_of_call hp he' with ⟨_, _, hw', -⟩ | ⟨e₁, -, hf', hhint⟩ | ⟨_, -, -, hno⟩
    · rw [hw] at hw'
      cases hw'
    · rw [hf] at hf'
      cases hf'
      have hlt := e.hint.toNat_lt
      have hadd : (e.hint + 1).toNat = (e.hint.toNat + 1) % 2 ^ 64 := UInt64.toNat_add _ _
      rw [hhint, UInt64.le_iff_toNat_le, hadd] at hmono
      by_contra hwrap
      have hmax : e.hint.toNat + 1 = 2 ^ 64 := by omega
      rw [hmax, Nat.mod_self] at hmono
      omega
    · exact absurd hf (hno e)

lemma Gentle.keepsScores {now : ℕ} {op : Op} (h : Gentle m now op) : KeepsScores m now op := by
  intro key s s' hs hs'
  rw [scoreOf_lfu, Option.map_eq_some_iff] at hs hs'
  obtain ⟨e, he, rfl⟩ := hs
  obtain ⟨e', he', rfl⟩ := hs'
  rcases hint_of_call hp he' with ⟨value, expiresAt, hw, hhint⟩ | ⟨e₁, hw, hf, hhint⟩ |
    ⟨e₁, he₁, hhint, -⟩
  · rw [hhint]
    exact h.overwrites key value expiresAt e hw he
  · have heq := (MapStore.entry_of_found hf).symm.trans he
    cases heq
    have hlt := h.counts key e hw hf
      ((mem_call_of_found hp hw hf).mp (ExtTreeMap.getElem?_eq_some_iff.mp he').1)
    have hadd : (e.hint + 1).toNat = (e.hint.toNat + 1) % 2 ^ 64 := UInt64.toNat_add _ _
    rw [hhint, UInt64.le_iff_toNat_le, hadd, Nat.mod_eq_of_lt hlt]
    omega
  · rw [he] at he₁
    cases he₁
    rw [hhint]
    exact UInt64.le_refl _

/-- **A call keeps the scores exactly if it is gentle.** -/
lemma keepsScores_iff (now : ℕ) (op : Op) : KeepsScores m now op ↔ Gentle m now op :=
  ⟨fun h => h.gentle hp, fun h => h.keepsScores hp⟩

end Step

/-! ### Whole histories -/

lemma getsSince_snoc (key : Bytes) (m : MapStore Unit) (calls : History) (now : ℕ) (op : Op) :
    getsSince key m (calls ++ [(now, op)]) =
      if ((m.after calls).call now op).2.data.contains key then
        getsSince key m calls + ((m.after calls).gets now key op).toNat
      else 0 := by
  have hstore : ∀ (calls : History) (m : MapStore Unit) (n : ℕ),
      (calls.foldl (fun (m, n) (now, op) =>
        let m' := (m.call now op).2
        (m', if m'.data.contains key then n + (m.gets now key op).toNat else 0)) (m, n)).1 =
        m.after calls := by
    intro calls
    induction calls with
    | nil => exact fun _ _ => rfl
    | cons c calls ih => exact fun m n => ih _ _
  simp only [getsSince, List.foldl_append, List.foldl_cons, List.foldl_nil, hstore]

lemma getsSince_of_not_mem {key : Bytes} {m : MapStore Unit} {calls : History}
    (h : key ∉ (m.after calls).data) : getsSince key m calls = 0 := by
  induction calls using List.reverseRecOn with
  | nil => rfl
  | append_singleton calls c _ =>
    rw [getsSince_snoc, if_neg]
    simpa [MapStore.after] using h

lemma found_of_gets {m : MapStore Unit} {now : ℕ} {key : Bytes} {op : Op}
    (h : m.gets now key op = true) :
    m.written now op = none ∧ ∃ e, m.found now op = some (key, e) := by
  cases op with
  | get k =>
    simp only [MapStore.gets, Bool.and_eq_true, decide_eq_true_eq, MapStore.get_fst,
      Option.isSome_map] at h
    obtain ⟨rfl, hsome⟩ := h
    obtain ⟨e, he⟩ := Option.isSome_iff_exists.mp hsome
    refine ⟨rfl, e, ?_⟩
    simp [MapStore.found, Op.looksUp, MapStore.lookup, he]
  | _ => cases h

lemma Gentle.base_le {m₀ : MapStore Unit} {calls : History} {now : ℕ} {op : Op}
    (hp : (m₀.after calls).policy = some lfu) (h : Gentle (m₀.after calls) now op)
    (hle : ∀ (key : Bytes) e, (m₀.after calls).data[key]? = some e →
      lfuBaseCount.toNat + getsSince key m₀ calls ≤ e.hint.toNat)
    {key : Bytes} {e' : Entry} (he' : ((m₀.after calls).call now op).2.data[key]? = some e') :
    lfuBaseCount.toNat + getsSince key m₀ (calls ++ [(now, op)]) ≤ e'.hint.toNat := by
  have hk : key ∈ ((m₀.after calls).call now op).2.data :=
    (ExtTreeMap.getElem?_eq_some_iff.mp he').1
  rw [getsSince_snoc, if_pos (ExtTreeMap.contains_iff_mem.mpr hk)]
  have hfalse : ¬ ((m₀.after calls).written now op = none ∧
      ∃ e, (m₀.after calls).found now op = some (key, e)) →
        (m₀.after calls).gets now key op = false :=
    fun hno => Bool.eq_false_iff.mpr (mt found_of_gets hno)
  rcases hint_of_call hp he' with ⟨value, expiresAt, hw, hhint⟩ | ⟨e, hw, hf, hhint⟩ |
    ⟨e, he, hhint, hno⟩
  · -- a write: nothing was counted above the base count, if the key was there at all
    have hwrite : ¬ ((m₀.after calls).written now op = none ∧
        ∃ e, (m₀.after calls).found now op = some (key, e)) := by simp [hw]
    have hzero : getsSince key m₀ calls = 0 := by
      by_cases hin : key ∈ (m₀.after calls).data
      · obtain ⟨e, he⟩ : ∃ e, (m₀.after calls).data[key]? = some e :=
          Option.isSome_iff_exists.mp (ExtTreeMap.isSome_getElem?_iff_mem.mpr hin)
        have hbase := h.overwrites key value expiresAt e hw he
        rw [UInt64.le_iff_toNat_le] at hbase
        have := hle key e he
        omega
      · exact getsSince_of_not_mem hin
    rw [hfalse hwrite, hzero, hhint]
    exact le_rfl
  · have hlt := h.counts key e hw hf ((mem_call_of_found hp hw hf).mp hk)
    have hadd : (e.hint + 1).toNat = (e.hint.toNat + 1) % 2 ^ 64 := UInt64.toNat_add _ _
    have hone : ((m₀.after calls).gets now key op).toNat ≤ 1 := Bool.toNat_le _
    have := hle key e (MapStore.entry_of_found hf)
    rw [hhint, hadd, Nat.mod_eq_of_lt hlt]
    omega
  · rw [hfalse fun ⟨_, e, hf⟩ => hno e hf, hhint]
    exact hle key e he

lemma after_sameLimits (m : MapStore Unit) (calls : History) :
    MapStore.SameLimits m (m.after calls) := by
  induction calls using List.reverseRecOn with
  | nil => exact .refl m
  | append_singleton calls c ih =>
    have hcall := MapStore.call_sameLimits (m.after calls) c.1 c.2
    simpa [MapStore.after] using ih.trans hcall

/-- **LFU scores only grow as long as no counted key is overwritten.** Along a history of a new
store the score of a resident key never falls, and is at least the base count and the successful
`Get`s since the key became resident, exactly if no call overwrites a key that is counted above
the base count, and no count wraps around. -/
theorem lfu_scores_grow_iff (maxKeySize maxValueSize maxEntries : ℕ) (calls : History) :
    let m := newLFUStore maxKeySize maxValueSize maxEntries
    (AtEveryCall m calls KeepsScores ∧
      ∀ before, before <+: calls → ∀ key s, (m.after before).scoreOf lfu key = some s →
        lfuBaseCount.toNat + getsSince key m before ≤ s.toNat) ↔
    AtEveryCall m calls Gentle := by
  intro m
  have hp : ∀ before, (m.after before).policy = some lfu := fun before =>
    (after_sameLimits m before).policy
  constructor
  · rintro ⟨hkeep, -⟩ before now op hpre
    exact (keepsScores_iff (hp before) now op).mp (hkeep before now op hpre)
  · intro h
    have hkeep : AtEveryCall m calls KeepsScores := fun before now op hpre =>
      (keepsScores_iff (hp before) now op).mpr (h before now op hpre)
    refine ⟨hkeep, fun before => ?_⟩
    induction before using List.reverseRecOn with
    | nil =>
      intro _ key s hs
      simp [scoreOf_lfu, m, newLFUStore, MapStore.after] at hs
    | append_singleton before c ih =>
      intro hpre key s hs
      have hbefore : before <+: calls := (List.prefix_append before [c]).trans hpre
      obtain ⟨e', he', rfl⟩ : ∃ e', ((m.after before).call c.1 c.2).2.data[key]? = some e' ∧
          e'.hint = s := by
        rw [scoreOf_lfu, Option.map_eq_some_iff] at hs
        simpa [MapStore.after] using hs
      refine (h before c.1 c.2 hpre).base_le (hp before) (fun k e he => ?_) he'
      exact ih hbefore k e.hint (by rw [scoreOf_lfu, he, Option.map_some])

/-- A key that was found once is written again, and is back at the base count. -/
theorem lfu_overwrite_resets_score :
    let m := newLFUStore 10 10 0
    let calls : History := [(0, .set default [1] [7]), (0, .get [1])]
    (m.after calls).scoreOf lfu [1] = some 6 ∧
      ((m.after calls).call 0 (.set default [1] [8])).2.scoreOf lfu [1] = some 5 := by
  decide +kernel

end Kyria.Store
