import Kyria.Store.Ops

/-!
Whether the janitor can be noticed.

An entry that has expired stays in the map until a sweep, or a write of its key. The calls
treat it as absent, all but `Delete`, which looks at the map alone.
-/

namespace Kyria.Store

open Std (ExtTreeMap)
open Kyria.Lib.Cursor Kyria.Lib.MapOrder
open MapStore (SameLimits)

variable {σ : Type}

def Op.isReap : Op → Bool
  | .reapExpired _ => true
  | _ => false

/-- The history with the sweeps left out. -/
def unswept (calls : History) : History := calls.filter fun c => !c.2.isReap

/-- The replies to all calls but the sweeps. -/
def MapStore.observed (m : MapStore σ) : History → List Reply
  | [] => []
  | c :: calls =>
    let r := m.call c.1 c.2
    if c.2.isReap then MapStore.observed r.2 calls else r.1 :: MapStore.observed r.2 calls

/-- Time does not run backwards. -/
def Timely (calls : History) : Prop := calls.Pairwise fun c d => c.1 ≤ d.1

/-- Whenever `Delete` is called, the key holds no entry that has expired. -/
def MapStore.Prompt (m : MapStore σ) : History → Prop
  | [] => True
  | c :: calls =>
    (∀ key, c.2 = .delete key → ∀ e, m.data[key]? = some e → e.expired c.1 = false) ∧
      MapStore.Prompt (m.call c.1 c.2).2 calls

/-! ### A store that has been swept, and one that has not -/

lemma Entry.expired_mono {e : Entry} {t t' : ℕ} (h : e.expired t = true) (ht : t ≤ t') :
    e.expired t' = true := by
  simp only [Entry.expired, Bool.and_eq_true, decide_eq_true_eq] at h ⊢
  exact ⟨h.1, by omega⟩

/-- `m'` is `m` without some of the entries that have expired. -/
structure Swept (now : ℕ) (m m' : MapStore σ) : Prop where
  limits : SameLimits m m'
  policy : m.policy = none
  entry : ∀ k : Bytes, m'.data[k]? = m.data[k]? ∨
    m'.data[k]? = none ∧ ∃ e : Entry, m.data[k]? = some e ∧ e.expired now = true

namespace Swept

variable {now : ℕ} {m m' : MapStore σ}

lemma refl (hp : m.policy = none) : Swept now m m := ⟨.refl m, hp, fun _ => .inl rfl⟩

lemma policy' (h : Swept now m m') : m'.policy = none := h.limits.policy.trans h.policy

lemma later {t : ℕ} (h : Swept now m m') (ht : now ≤ t) : Swept t m m' where
  limits := h.limits
  policy := h.policy
  entry k := (h.entry k).imp_right fun ⟨hn, e, he, hx⟩ => ⟨hn, e, he, Entry.expired_mono hx ht⟩

lemma filter_eq (h : Swept now m m') (k : Bytes) :
    ((m'.data[k]?).filter fun e => !e.expired now) =
      (m.data[k]?).filter fun e => !e.expired now := by
  rcases h.entry k with he | ⟨hn, e, he, hx⟩
  · rw [he]
  · rw [hn, he, Option.filter_some_neg (by simp [hx]), Option.filter_none]

lemma get_fst (h : Swept now m m') (key : Bytes) : (m'.get now key).1 = (m.get now key).1 := by
  rw [MapStore.get_eq h.policy', MapStore.get_eq h.policy, h.filter_eq key]

lemma insert (h : Swept now m m') (key : Bytes) (e : Entry) :
    Swept now { m with data := m.data.insert key e } { m' with data := m'.data.insert key e } where
  limits := ⟨h.limits.maxKeySize, h.limits.maxValueSize, h.limits.maxEntries, h.limits.policy⟩
  policy := h.policy
  entry k := by
    simp only [ExtTreeMap.getElem?_insert]
    split_ifs
    · exact .inl rfl
    · exact h.entry k

lemma erase (h : Swept now m m') (key : Bytes) :
    Swept now { m with data := m.data.erase key } { m' with data := m'.data.erase key } where
  limits := ⟨h.limits.maxKeySize, h.limits.maxValueSize, h.limits.maxEntries, h.limits.policy⟩
  policy := h.policy
  entry k := by
    simp only [ExtTreeMap.getElem?_erase]
    split_ifs
    · exact .inl rfl
    · exact h.entry k

lemma setEntry (h : Swept now m m') (o : EntryOrder) (key value : Bytes) (expiresAt : ℕ)
    (bypass : Bool) :
    (m'.setEntry o key value expiresAt bypass).1 = (m.setEntry o key value expiresAt bypass).1 ∧
      Swept now (m.setEntry o key value expiresAt bypass).2
        (m'.setEntry o key value expiresAt bypass).2 := by
  rw [MapStore.setEntry_eq h.policy', MapStore.setEntry_eq h.policy, h.limits.rejection_eq]
  rcases m.rejection key value with _ | err
  · exact ⟨rfl, h.insert key _⟩
  · exact ⟨rfl, h⟩

lemma contains_eq (h : Swept now m m') {key : Bytes}
    (hkey : ∀ e, m.data[key]? = some e → e.expired now = false) :
    m'.data.contains key = m.data.contains key := by
  rcases h.entry key with he | ⟨-, e, he, hx⟩
  · rw [Bool.eq_iff_iff, ExtTreeMap.contains_iff_mem, ExtTreeMap.contains_iff_mem,
      ← ExtTreeMap.isSome_getElem?_iff_mem, ← ExtTreeMap.isSome_getElem?_iff_mem, he]
  · rw [hkey e he] at hx
    cases hx

lemma delete (h : Swept now m m') {key : Bytes}
    (hkey : ∀ e, m.data[key]? = some e → e.expired now = false) :
    (m'.delete key).1 = (m.delete key).1 ∧ Swept now (m.delete key).2 (m'.delete key).2 :=
  ⟨h.contains_eq hkey, h.erase key⟩

lemma deleteIf (h : Swept now m m') (key : Bytes) (pred : Bytes → Bool) :
    (m'.deleteIf now key pred).1 = (m.deleteIf now key pred).1 ∧
      Swept now (m.deleteIf now key pred).2 (m'.deleteIf now key pred).2 := by
  unfold MapStore.deleteIf
  rw [MapStore.get_eq h.policy', MapStore.get_eq h.policy, h.filter_eq key]
  cases hk : Option.filter (fun e : Entry => !e.expired now) m.data[key]? with
  | none => exact ⟨rfl, h⟩
  | some e =>
    obtain ⟨he, hlive⟩ := Option.filter_eq_some_iff.mp hk
    simp only [Option.map_some]
    split_ifs
    · refine h.delete fun e' he' => ?_
      cases he.symm.trans he'
      simpa using hlive
    · exact ⟨rfl, h⟩

lemma range (h : Swept now m m') (o o' : EntryOrder) :
    (m'.range o' now).Perm (m.range o now) := by
  refine (List.perm_ext_iff_of_nodup (MapStore.nodup_range m' o' now)
    (MapStore.nodup_range m o now)).mpr ?_
  rintro ⟨k, v⟩
  have hmem : ∀ (x : MapStore σ) (o : EntryOrder), (k, v) ∈ x.range o now ↔
      ∃ e, ((x.data[k]?).filter fun e => !e.expired now) = some e ∧ e.value = v := by
    intro x o
    simp only [MapStore.mem_range_iff, Option.filter_eq_some_iff, Bool.not_eq_true', and_assoc]
  rw [hmem m' o', hmem m o, h.filter_eq k]

lemma reapExpired (h : Swept now m m') (o : EntryOrder) :
    Swept now m (m'.reapExpired o now).2 where
  limits := h.limits.trans (MapStore.reapExpired_sameLimits m' o now)
  policy := h.policy
  entry k := by
    rw [MapStore.getElem?_reapExpired, h.filter_eq k]
    rcases hk : m.data[k]? with _ | e
    · exact .inl rfl
    · by_cases he : e.expired now = true
      · exact .inr ⟨Option.filter_some_neg (by simp [he]), e, rfl, he⟩
      · exact .inl (Option.filter_some_pos (by simp [he]))

/-- **One call**: it cannot tell the two stores apart, and keeps them so. -/
lemma call (h : Swept now m m') {op : Op} (hreap : op.isReap = false) (hsize : op ≠ .size)
    (hdel : ∀ key, op = .delete key → ∀ e, m.data[key]? = some e → e.expired now = false) :
    Reply.Same (m'.call now op).1 (m.call now op).1 ∧
      Swept now (m.call now op).2 (m'.call now op).2 := by
  have hget := fun key => MapStore.get_eq h.policy now key
  have hget' := fun key => MapStore.get_eq h.policy' now key
  cases op with
  | get key =>
    simp only [MapStore.call, hget, hget', h.filter_eq]
    exact ⟨.refl _, h⟩
  | set o key value =>
    obtain ⟨hr, hs⟩ := h.setEntry o key value 0 false
    simp only [MapStore.call, MapStore.set, hr]
    exact ⟨.refl _, hs⟩
  | setWithTTL o key value ttl =>
    simp only [MapStore.call, MapStore.setWithTTL]
    split_ifs
    · exact ⟨.refl _, h⟩
    · obtain ⟨hr, hs⟩ := h.setEntry o key value (now + ttl.toNat) false
      rw [hr]
      exact ⟨.refl _, hs⟩
  | updateReplica o key fn =>
    obtain ⟨hr, hs⟩ := h.setEntry o key (fn (m.get now key).1) 0 true
    simp only [MapStore.call, MapStore.updateReplicaWith, h.get_fst]
    rw [hget, hget'] at *
    simp only [hr]
    exact ⟨.refl _, hs⟩
  | delete key =>
    obtain ⟨hr, hs⟩ := h.delete (hdel key rfl)
    simp only [MapStore.call, hr]
    exact ⟨.refl _, hs⟩
  | deleteIf key pred =>
    obtain ⟨hr, hs⟩ := h.deleteIf key pred
    simp only [MapStore.call, hr, h.get_fst]
    exact ⟨.refl _, hs⟩
  | size => exact absurd rfl hsize
  | range o => exact ⟨.visited (h.range o o), h⟩
  | reapExpired o => cases hreap

end Swept

/-! ### Whole histories -/

lemma unswept_cons_of_reap {c : ℕ × Op} (h : c.2.isReap = true) (calls : History) :
    unswept (c :: calls) = unswept calls := by simp [unswept, h]

lemma unswept_cons {c : ℕ × Op} (h : c.2.isReap = false) (calls : History) :
    unswept (c :: calls) = c :: unswept calls := by simp [unswept, h]

lemma call_reap (m : MapStore σ) (now : ℕ) {op : Op} (h : op.isReap = true) :
    ∃ o, (m.call now op).2 = (m.reapExpired o now).2 := by
  cases op with
  | reapExpired o => exact ⟨o, rfl⟩
  | _ => cases h

lemma observed_of_swept {swept : History} {t : ℕ} {m m' : MapStore σ} (h : Swept t m m')
    (hfrom : ∀ c ∈ swept, t ≤ c.1) (htimely : Timely swept)
    (hsize : ∀ c ∈ unswept swept, c.2 ≠ .size) (hprompt : m.Prompt (unswept swept)) :
    List.Forall₂ Reply.Same (m'.observed swept) (m.observed (unswept swept)) := by
  -- the induction is on the longer history: a sweep moves `m'` alone, any other call both
  induction swept generalizing t m m' with
  | nil => exact .nil
  | cons c swept ih =>
    obtain ⟨hc, htimely⟩ := List.pairwise_cons.mp htimely
    have hnow := h.later (hfrom c (by simp))
    rcases hreap : c.2.isReap with _ | _
    · rw [unswept_cons hreap] at hsize hprompt ⊢
      obtain ⟨hsame, hnext⟩ := hnow.call hreap (hsize c (by simp)) hprompt.1
      simp only [MapStore.observed, hreap, Bool.false_eq_true, if_false]
      exact .cons hsame (ih hnext hc htimely (fun d hd => hsize d (by simp [hd])) hprompt.2)
    · rw [unswept_cons_of_reap hreap] at hsize hprompt ⊢
      obtain ⟨o, ho⟩ := call_reap m' c.1 hreap
      simp only [MapStore.observed, hreap, if_true, ho]
      exact ih (hnow.reapExpired o) hc htimely hsize hprompt

lemma not_same_of_reap_delete {m : MapStore σ} {now : ℕ} {key : Bytes} {e : Entry}
    (he : m.data[key]? = some e) (hx : e.expired now = true) (calls : History) :
    ¬ List.Forall₂ Reply.Same
      (m.observed ((now, .reapExpired default) :: (now, .delete key) :: calls))
      (m.observed ((now, .delete key) :: calls)) := by
  intro hsame
  have hin : m.data.contains key = true := by
    rw [ExtTreeMap.contains_iff_mem, ← ExtTreeMap.isSome_getElem?_iff_mem, he]
    rfl
  have hout : (m.reapExpired default now).2.data.contains key = false := by
    rw [Bool.eq_false_iff, Ne, ExtTreeMap.contains_iff_mem,
      ← ExtTreeMap.isSome_getElem?_iff_mem, MapStore.getElem?_reapExpired, he,
      Option.filter_some_neg (by simp [hx])]
    simp
  simp only [MapStore.observed, Op.isReap, MapStore.call, MapStore.delete, hin, hout, if_true,
    Bool.false_eq_true, if_false] at hsame
  cases hsame with
  | cons hhead _ => cases hhead

lemma prompt_of_unobservable {calls : History} (t : ℕ) {m : MapStore σ}
    (hreap : unswept calls = calls) (htimely : Timely calls) (hfrom : ∀ c ∈ calls, t ≤ c.1)
    (h : ∀ swept : History, unswept swept = calls → Timely swept → (∀ c ∈ swept, t ≤ c.1) →
      List.Forall₂ Reply.Same (m.observed swept) (m.observed calls)) : m.Prompt calls := by
  induction calls generalizing t m with
  | nil => exact trivial
  | cons c calls ih =>
    have hc : c.2.isReap = false := by
      have := (List.filter_eq_self.mp hreap) c (by simp)
      simpa using this
    have hrest : unswept calls = calls := by
      rw [unswept_cons hc] at hreap
      exact (List.cons.inj hreap).2
    obtain ⟨hlater, htimely'⟩ := List.pairwise_cons.mp htimely
    refine ⟨fun key hop e he => ?_, ih c.1 hrest htimely' hlater fun swept hs ht hf => ?_⟩
    · by_contra hx
      rw [Bool.not_eq_false] at hx
      have hsame := h ((c.1, .reapExpired default) :: c :: calls)
        (by rw [unswept_cons_of_reap rfl, hreap])
        (List.pairwise_cons.mpr ⟨by simpa using fun a b hab => hlater (a, b) hab, htimely⟩)
        (by simpa using ⟨hfrom c (by simp), fun a b hab => hfrom (a, b) (by simp [hab])⟩)
      obtain ⟨now, op⟩ := c
      obtain rfl : op = .delete key := hop
      exact not_same_of_reap_delete he hx calls hsame
    · have hsame := h (c :: swept) (by rw [unswept_cons hc, hs])
        (List.pairwise_cons.mpr ⟨hf, ht⟩) fun d hd => by
          rcases List.mem_cons.mp hd with rfl | hd
          · exact hfrom d (by simp)
          · exact (hfrom c (by simp)).trans (hf d hd)
      simp only [MapStore.observed, hc, Bool.false_eq_true, if_false] at hsame
      cases hsame with
      | cons _ htail => exact htail

/-- **The janitor goes unnoticed exactly if** no `Delete` meets an entry that has expired. -/
theorem sweeps_unobservable_iff {m : MapStore σ} (hp : m.policy = none) {calls : History}
    (hops : ∀ c ∈ calls, c.2.isReap = false ∧ c.2 ≠ .size) (htimely : Timely calls) :
    (∀ swept : History, unswept swept = calls → Timely swept →
      List.Forall₂ Reply.Same (m.observed swept) (m.observed calls)) ↔ m.Prompt calls := by
  have hreap : unswept calls = calls := List.filter_eq_self.mpr fun c hc => by simp [(hops c hc).1]
  constructor
  · intro h
    exact prompt_of_unobservable 0 hreap htimely (fun _ _ => Nat.zero_le _)
      fun swept hs ht _ => h swept hs ht
  · rintro hprompt swept rfl ht
    exact observed_of_swept (Swept.refl hp) (fun _ _ => Nat.zero_le _) ht
      (fun c hc => (hops c hc).2) hprompt

/-- A key that is deleted before it expires. -/
theorem sweeps_unobservable_in_time :
    ({ state := () } : MapStore Unit).Prompt
      [(1, .setWithTTL default [107] [1] 5), (3, .delete [107])] ∧
    ∀ swept : History, unswept swept = [(1, .setWithTTL default [107] [1] 5), (3, .delete [107])] →
      Timely swept → List.Forall₂ Reply.Same (({ state := () } : MapStore Unit).observed swept)
        (({ state := () } : MapStore Unit).observed
          [(1, .setWithTTL default [107] [1] 5), (3, .delete [107])]) := by
  have hprompt : ({ state := () } : MapStore Unit).Prompt
      [(1, .setWithTTL default [107] [1] 5), (3, .delete [107])] := by
    refine ⟨by simp, fun key hkey e he => ?_, trivial⟩
    cases hkey
    have hentry : ((({ state := () } : MapStore Unit).call 1
        (.setWithTTL default [107] [1] 5)).2.data[([107] : Bytes)]?) = some ⟨[1], 6, 0⟩ := by
      decide +kernel
    cases he.symm.trans hentry
    rfl
  exact ⟨hprompt,
    (sweeps_unobservable_iff rfl (by simp [Op.isReap]) (by simp [Timely])).mpr hprompt⟩

/-- A key that is deleted after it has expired: a sweep in between turns the reply. -/
theorem sweep_observed_by_delete :
    ({ state := () } : MapStore Unit).observed
      [(1, .setWithTTL default [107] [1] 5), (10, .delete [107])] =
        [.stored (.ok true), .deleted true] ∧
    ({ state := () } : MapStore Unit).observed
      [(1, .setWithTTL default [107] [1] 5), (9, .reapExpired default), (10, .delete [107])] =
        [.stored (.ok true), .deleted false] := by
  constructor <;> rfl

end Kyria.Store
