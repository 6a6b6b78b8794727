import Kyria.Store.Eviction
import Kyria.Store.Touch

/-!
How recently the victims of the LRU policy were touched.

Recency is read off the history of calls: the last call that touched a key. The policy stamps
entries from a counter instead, and compares the stamps of a sample of the entries. The stamps
of resident keys stand in the order of their last touches, so that the victim is the key of the
sample that was touched least recently.
-/

namespace Kyria.Store

open Std (ExtTreeMap)
open Kyria.Lib.Cursor Kyria.Lib.MapOrder

variable {σ : Type}

/-! ### The sample -/

namespace MapStore

/-- The entry with the lower score, the one chosen before if they are equal. -/
def weaker (p : Policy σ) (state : σ) (chosen : Option (Bytes × UInt64)) (a : Bytes × Entry) :
    Option (Bytes × UInt64) :=
  match chosen with
  | none => some (a.1, p.score state a.1 a.2.hint)
  | some (_, smallestScore) =>
    if smallestScore > p.score state a.1 a.2.hint then some (a.1, p.score state a.1 a.2.hint)
    else chosen

/-- The entries that are inspected. -/
def sample (m : MapStore σ) (o : EntryOrder) (excludeKey : Bytes) : List (Bytes × Entry) :=
  ((o.visit 0 m.data.toList).filter fun a => a.1 ≠ excludeKey).take evictionSampleSize

lemma sampleLoop_eq (p : Policy σ) (state : σ) (x : Bytes) (l : List (Bytes × Entry)) :
    ∀ (counter : ℕ) (chosen : Option (Bytes × UInt64)), counter < evictionSampleSize →
      sampleLoop p state x l counter chosen =
        ((l.filter fun a => a.1 ≠ x).take (evictionSampleSize - counter)).foldl
          (weaker p state) chosen := by
  induction l with
  | nil => exact fun _ _ _ => by simp [sampleLoop]
  | cons a rest ih =>
    obtain ⟨k, e⟩ := a
    intro counter chosen hlt
    by_cases hk : k = x
    · rw [sampleLoop, if_pos hk, ih counter chosen hlt, List.filter_cons_of_neg (by simpa using hk)]
    · have hleft : evictionSampleSize - counter = evictionSampleSize - (counter + 1) + 1 := by omega
      rw [sampleLoop, if_neg hk, List.filter_cons_of_pos (by simpa using hk), hleft,
        List.take_succ_cons, List.foldl_cons]
      simp only
      split
      · have hnone : evictionSampleSize - (counter + 1) = 0 := by omega
        rw [hnone]
        rfl
      · exact ih _ _ (by omega)

lemma sampleVictim_eq (m : MapStore σ) (o : EntryOrder) (p : Policy σ) (x : Bytes) :
    m.sampleVictim o p x = (m.sample o x).foldl (weaker p m.state) none :=
  sampleLoop_eq p m.state x _ 0 none (by decide)

lemma weaker_spec (p : Policy σ) (state : σ) (chosen : Option (Bytes × UInt64))
    (a : Bytes × Entry) :
    ∃ c, weaker p state chosen a = some c ∧ c.2 ≤ p.score state a.1 a.2.hint ∧
      (∀ c' ∈ chosen, c.2 ≤ c'.2) ∧
      (chosen = some c ∨ c = (a.1, p.score state a.1 a.2.hint)) := by
  rcases chosen with _ | ⟨k, s⟩
  · exact ⟨_, rfl, UInt64.le_refl _, by simp, .inr rfl⟩
  · simp only [weaker]
    split_ifs with hgt
    · refine ⟨_, rfl, UInt64.le_refl _, ?_, .inr rfl⟩
      rintro _ ⟨⟩
      exact UInt64.le_of_lt hgt
    · refine ⟨_, rfl, UInt64.not_lt.mp hgt, ?_, .inl rfl⟩
      rintro _ ⟨⟩
      exact UInt64.le_refl _

lemma foldl_weaker {p : Policy σ} {state : σ} {l : List (Bytes × Entry)}
    {chosen : Option (Bytes × UInt64)} {v : Bytes} {s : UInt64}
    (h : l.foldl (weaker p state) chosen = some (v, s)) :
    (∀ a ∈ l, s ≤ p.score state a.1 a.2.hint) ∧ (∀ c ∈ chosen, s ≤ c.2) ∧
      (chosen = some (v, s) ∨ ∃ e, (v, e) ∈ l ∧ s = p.score state v e.hint) := by
  induction l generalizing chosen with
  | nil =>
    rw [List.foldl_nil] at h
    subst h
    refine ⟨by simp, ?_, .inl rfl⟩
    rintro _ ⟨⟩
    exact UInt64.le_refl _
  | cons a l ih =>
    obtain ⟨hall, hchosen, hv⟩ := ih h
    obtain ⟨c, hc, hle, hprev, hfrom⟩ := weaker_spec p state chosen a
    have hsc := hchosen c hc
    refine ⟨?_, fun c' hc' => UInt64.le_trans hsc (hprev c' hc'), ?_⟩
    · rintro b hb
      rcases List.mem_cons.mp hb with rfl | hb
      · exact UInt64.le_trans hsc hle
      · exact hall b hb
    · rcases hv with hv | ⟨e, he, hs⟩
      · rw [hc] at hv
        cases hv
        rcases hfrom with hfrom | hfrom
        · exact .inl hfrom
        · obtain ⟨k, e⟩ := a
          cases hfrom
          exact .inr ⟨e, List.mem_cons_self, rfl⟩
      · exact .inr ⟨e, List.mem_cons_of_mem _ he, hs⟩

lemma mem_sample {m : MapStore σ} {o : EntryOrder} {x : Bytes} {a : Bytes × Entry}
    (h : a ∈ m.sample o x) : m.data[a.1]? = some a.2 ∧ a.1 ≠ x := by
  have hmem := List.mem_filter.mp (List.mem_of_mem_take h)
  rw [VisitOrder.mem_visit, ExtTreeMap.mem_toList_iff_getElem?_eq_some] at hmem
  exact ⟨hmem.1, by simpa using hmem.2⟩

lemma nodup_keys_sample (m : MapStore σ) (o : EntryOrder) (x : Bytes) :
    ((m.sample o x).map Prod.fst).Nodup := by
  have hsub : (m.sample o x).Sublist (o.visit 0 m.data.toList) :=
    (List.take_sublist _ _).trans List.filter_sublist
  exact (o.nodup_keys 0 m.data).sublist (hsub.map Prod.fst)

lemma length_filter_ne {m : MapStore σ} {x : Bytes} (hx : x ∈ m.data) :
    (m.data.toList.filter fun a => a.1 ≠ x).length = m.size - 1 := by
  have hkeys : (m.data.toList.filter fun a => a.1 ≠ x).map Prod.fst =
      m.data.keys.filter fun k => k ≠ x := by
    rw [← ExtTreeMap.map_fst_toList_eq_keys, List.filter_map]
    rfl
  have herase : (m.data.keys.filter fun k => k ≠ x) = m.data.keys.erase x := by
    rw [m.data.nodup_keys.erase_eq_filter]
    refine List.filter_congr fun k _ => ?_
    by_cases hk : k = x <;> simp [hk]
  rw [← List.length_map (f := Prod.fst), hkeys, herase,
    List.length_erase_of_mem (ExtTreeMap.mem_keys.mpr hx), ExtTreeMap.length_keys]
  rfl

lemma length_sample {m : MapStore σ} {x : Bytes} (hx : x ∈ m.data) (o : EntryOrder) :
    (m.sample o x).length = min evictionSampleSize (m.size - 1) := by
  rw [sample, List.length_take, ((o.perm 0 m.data.toList).filter _).length_eq, length_filter_ne hx]

lemma victim_of_evictIfNeeded {m : MapStore σ} {p : Policy σ} (hadm : ∀ a b, p.admits a b = true)
    {o : EntryOrder} {x : Bytes} {hint : UInt64} {bypass : Bool} {v : Bytes} (hv : v ∈ m.data)
    (hgone : v ∉ (m.evictIfNeeded o p x hint bypass).2.data) :
    m.maxEntries < m.size ∧
      (m.evictIfNeeded o p x hint bypass).2 = { m with data := m.data.erase v } ∧
      ∃ s, m.sampleVictim o p x = some (v, s) := by
  by_cases hfits : m.maxEntries = 0 ∨ m.size ≤ m.maxEntries
  · rw [evictIfNeeded_of_le hfits] at hgone
    exact absurd hv hgone
  · rcases hvictim : m.sampleVictim o p x with _ | ⟨k, s⟩
    · simp only [evictIfNeeded, if_neg hfits, hvictim] at hgone
      exact absurd hv hgone
    · have hevict : (m.evictIfNeeded o p x hint bypass).2 =
          { m with data := m.data.erase k } := by
        simp only [evictIfNeeded, if_neg hfits, hvictim, hadm, Bool.or_true, if_true]
      have hkv : k = v := by
        by_contra hne
        refine hgone ?_
        rw [hevict]
        exact ExtTreeMap.mem_erase.mpr ⟨by simpa using hne, hv⟩
      subst hkv
      exact ⟨by omega, hevict, s, rfl⟩

lemma victim_of_call {m : MapStore σ} {p : Policy σ} (hp : m.policy = some p)
    (hadm : ∀ a b, p.admits a b = true) {now : ℕ} {op : Op} {x value v : Bytes} {expiresAt : ℕ}
    (hw : m.written now op = some (x, value, expiresAt)) (hx : x ∉ m.data) (hv : v ∈ m.data)
    (hgone : v ∉ (m.call now op).2.data) :
    m.maxEntries < (m.recorded p now op).size ∧ x ∈ (m.call now op).2.data ∧
      ∃ o s, (m.recorded p now op).sampleVictim o p x = some (v, s) := by
  obtain ⟨hacc, o, bypass, hcall⟩ := call_of_written hp hw
  have hlim := looked_sameLimits m p now op
  have hrec := recorded_of_written p hw
  have hnew : ¬ (m.looked p now op).data.contains x = true := by
    rw [ExtTreeMap.contains_iff_mem, mem_looked_iff]
    exact hx
  have hin : v ∈ (m.recorded p now op).data := by
    rw [hrec]
    exact ExtTreeMap.mem_insert.mpr (.inr ((mem_looked_iff m p now op v).mpr hv))
  have hmax : (m.recorded p now op).maxEntries = m.maxEntries := by
    rw [hrec]
    exact hlim.maxEntries
  rw [setEntry_of_policy (hlim.policy.trans hp) hacc, if_neg hnew, ← hrec] at hcall
  rw [hcall] at hgone ⊢
  obtain ⟨hover, hevict, s, hvictim⟩ := victim_of_evictIfNeeded hadm hin hgone
  refine ⟨hmax ▸ hover, ?_, o, s, hvictim⟩
  rw [hevict, hrec]
  exact ExtTreeMap.mem_erase.mpr
    ⟨by simpa using (sampleVictim_spec hvictim).2, ExtTreeMap.mem_insert_self⟩

end MapStore

/-! ### Touches -/

/-- A run watched from outside: the number of calls and of touches so far, and for every key the
last call that touched it. -/
structure Watch (σ : Type) where
  store : MapStore σ
  calls : ℕ := 0
  touches : ℕ := 0
  last : Bytes → ℕ := fun _ => 0

def Watch.call (w : Watch σ) (c : ℕ × Op) : Watch σ where
  store := (w.store.call c.1 c.2).2
  calls := w.calls + 1
  touches := w.touches + w.store.touches c.1 c.2
  last := (w.store.touched c.1 c.2).elim w.last fun key => Function.update w.last key (w.calls + 1)

/-- A history watched from the store it begins with. -/
def watch (m : MapStore σ) (calls : History) : Watch σ := calls.foldl Watch.call { store := m }

lemma watch_snoc (m : MapStore σ) (calls : History) (c : ℕ × Op) :
    watch m (calls ++ [c]) = (watch m calls).call c := by
  simp [watch]

lemma watch_store (m : MapStore σ) (calls : History) : (watch m calls).store = m.after calls := by
  induction calls using List.reverseRecOn with
  | nil => rfl
  | append_singleton calls c ih =>
    rw [watch_snoc, Watch.call, ih]
    simp [MapStore.after]

/-! ### Stamps -/

section Stamps

variable {m : MapStore UInt64} {now : ℕ} {op : Op}

lemma state_put_lru (m : MapStore UInt64) (key value : Bytes) (expiresAt : ℕ) :
    (m.put lru key value expiresAt).state = m.state + 1 := rfl

lemma state_recorded (h : m.state.toNat + m.touches now op < 2 ^ 64) :
    (m.recorded lru now op).state.toNat = m.state.toNat + m.touches now op := by
  have hone : (1 : UInt64).toNat = 1 := rfl
  have hlooked : (m.looked lru now op).state.toNat =
      m.state.toNat + (m.found now op).toList.length := by
    unfold MapStore.touches at h
    unfold MapStore.looked
    rcases hf : m.found now op with _ | ⟨key, e⟩
    · rfl
    · rw [hf] at h
      simp only [Option.elim_some, Option.toList_some, List.length_singleton] at h ⊢
      have hadd : (m.state + 1).toNat = (m.state.toNat + 1) % 2 ^ 64 := UInt64.toNat_add _ _
      rw [Nat.mod_eq_of_lt (by omega)] at hadd
      exact hadd
  unfold MapStore.touches at h ⊢
  unfold MapStore.recorded
  rcases hw : m.written now op with _ | ⟨key, value, expiresAt⟩
  · exact hlooked
  · rw [hw] at h
    simp only [Option.elim_some, Option.toList_some, List.length_singleton] at h ⊢
    have hadd : ((m.looked lru now op).state + 1).toNat =
        ((m.looked lru now op).state.toNat + 1) % 2 ^ 64 := UInt64.toNat_add _ _
    rw [hlooked, Nat.mod_eq_of_lt (by omega)] at hadd
    rw [state_put_lru, hadd]
    omega

lemma hint_of_touched {key : Bytes} (h : m.touched now op = some key) {e : Entry}
    (he : (m.recorded lru now op).data[key]? = some e) :
    e.hint = (m.recorded lru now op).state := by
  rw [MapStore.getElem?_recorded] at he
  unfold MapStore.touched at h
  unfold MapStore.recorded
  rcases hw : m.written now op with _ | ⟨k, value, expiresAt⟩
  · rw [hw, MapStore.getElem?_looked] at he
    rcases hf : m.found now op with _ | ⟨k, e'⟩
    · simp [hw, hf] at h
    · obtain rfl : k = key := by simpa [hw, hf] using h
      simp only [hf, if_true, Option.some.injEq] at he
      rw [← he]
      simp only [Option.elim_none, MapStore.looked, hf]
      rfl
  · obtain rfl : k = key := by simpa [hw] using h
    simp only [hw, if_true, Option.some.injEq] at he
    rw [← he]
    rfl

lemma recorded_of_not_touched {key : Bytes} (h : m.touched now op ≠ some key) :
    (m.recorded lru now op).data[key]? = m.data[key]? := by
  rw [MapStore.getElem?_recorded]
  unfold MapStore.touched at h
  rcases hw : m.written now op with _ | ⟨k, value, expiresAt⟩
  · rw [MapStore.getElem?_looked]
    rcases hf : m.found now op with _ | ⟨k, e⟩
    · rfl
    · have hk : k ≠ key := by simpa [hw, hf] using h
      simp only [if_neg hk]
  · have hk : k ≠ key := by simpa [hw] using h
    simp only [if_neg hk]

lemma touches_pos {key : Bytes} (h : m.touched now op = some key) : 0 < m.touches now op := by
  unfold MapStore.touched at h
  unfold MapStore.touches
  rcases hw : m.written now op with _ | _
  · rcases hf : m.found now op with _ | _
    · simp [hw, hf] at h
    · simp
  · simp

/-- The stamps of resident keys stand in the order of their last touches. -/
structure Stamped (w : Watch UInt64) : Prop where
  policy : w.store.policy = some lru
  clock : w.store.state.toNat = w.touches
  stamp : ∀ (k : Bytes) e, w.store.data[k]? = some e →
    e.hint.toNat ≤ w.touches ∧ w.last k ≤ w.calls
  order : ∀ (k k' : Bytes) e e', w.store.data[k]? = some e → w.store.data[k']? = some e' → k ≠ k' →
    (e.hint < e'.hint ∧ w.last k < w.last k') ∨ (e'.hint < e.hint ∧ w.last k' < w.last k)

lemma last_call (w : Watch UInt64) (now : ℕ) (op : Op) (k : Bytes) :
    (w.call (now, op)).last k =
      if w.store.touched now op = some k then w.calls + 1 else w.last k := by
  simp only [Watch.call]
  rcases w.store.touched now op with _ | key
  · simp
  · by_cases hk : key = k
    · subst hk
      simp
    · simp [hk, Function.update_of_ne (Ne.symm hk)]

lemma Stamped.clock_recorded {w : Watch UInt64} (h : Stamped w) {now : ℕ} {op : Op}
    (hlt : (w.call (now, op)).touches < 2 ^ 64) :
    (w.store.recorded lru now op).state.toNat = (w.call (now, op)).touches := by
  have hsum : w.store.state.toNat + w.store.touches now op < 2 ^ 64 := by
    rw [h.clock]
    exact hlt
  rw [state_recorded hsum, h.clock]
  rfl

lemma Stamped.entry {w : Watch UInt64} (h : Stamped w) {now : ℕ} {op : Op}
    (hlt : (w.call (now, op)).touches < 2 ^ 64) {k : Bytes} {e : Entry}
    (he : (w.call (now, op)).store.data[k]? = some e) :
    (w.store.touched now op = some k ∧ w.touches < e.hint.toNat ∧
      e.hint.toNat = (w.call (now, op)).touches ∧ (w.call (now, op)).last k = w.calls + 1) ∨
    (w.store.data[k]? = some e ∧ (w.call (now, op)).last k = w.last k) := by
  have hrec := (MapStore.call_shrinks h.policy now op).entry he
  by_cases hk : w.store.touched now op = some k
  · have hpos := touches_pos hk
    have hsum : (w.call (now, op)).touches = w.touches + w.store.touches now op := rfl
    have hhint : e.hint.toNat = (w.call (now, op)).touches := by
      rw [hint_of_touched hk hrec, h.clock_recorded hlt]
    exact .inl ⟨hk, by omega, hhint, by rw [last_call, if_pos hk]⟩
  · exact .inr ⟨by rwa [recorded_of_not_touched hk] at hrec, by rw [last_call, if_neg hk]⟩

lemma Stamped.call {w : Watch UInt64} (h : Stamped w) {c : ℕ × Op}
    (hlt : (w.call c).touches < 2 ^ 64) : Stamped (w.call c) := by
  obtain ⟨now, op⟩ := c
  have hmono : w.touches ≤ (w.call (now, op)).touches := Nat.le_add_right _ _
  have hcalls : (w.call (now, op)).calls = w.calls + 1 := rfl
  refine ⟨(MapStore.call_sameLimits w.store now op).policy.trans h.policy, ?_, ?_, ?_⟩
  · exact (congrArg UInt64.toNat (MapStore.call_shrinks h.policy now op).state).trans
      (h.clock_recorded hlt)
  · intro k e he
    rcases h.entry hlt he with ⟨-, -, hhint, hl⟩ | ⟨hold, hl⟩
    · omega
    · have := h.stamp k e hold
      omega
  · intro k k' e e' he he' hne
    simp only [UInt64.lt_iff_toNat_lt]
    rcases h.entry hlt he with ⟨hk, hhint, -, hl⟩ | ⟨hold, hl⟩ <;>
      rcases h.entry hlt he' with ⟨hk', hhint', -, hl'⟩ | ⟨hold', hl'⟩
    · rw [hk] at hk'
      exact absurd (Option.some.inj hk') hne
    · have := h.stamp k' e' hold'
      exact .inr (by omega)
    · have := h.stamp k e hold
      exact .inl (by omega)
    · rw [hl, hl']
      simpa only [UInt64.lt_iff_toNat_lt] using h.order k k' e e' hold hold' hne

end Stamps

/-- A store with the LRU policy and nothing in it. -/
def newLRUStore (maxKeySize maxValueSize maxEntries : ℕ) : MapStore UInt64 where
  maxKeySize := maxKeySize
  maxValueSize := maxValueSize
  maxEntries := maxEntries
  policy := some lru
  state := 0

lemma touches_watch_le (m : MapStore σ) (calls : History) (c : ℕ × Op) :
    (watch m calls).touches ≤ (watch m (calls ++ [c])).touches := by
  rw [watch_snoc]
  exact Nat.le_add_right _ _

lemma stamped_watch (maxKeySize maxValueSize maxEntries : ℕ) {calls : History}
    (hlt : (watch (newLRUStore maxKeySize maxValueSize maxEntries) calls).touches < 2 ^ 64) :
    Stamped (watch (newLRUStore maxKeySize maxValueSize maxEntries) calls) := by
  induction calls using List.reverseRecOn with
  | nil => exact ⟨rfl, rfl, by simp [watch, newLRUStore], by simp [watch, newLRUStore]⟩
  | append_singleton calls c ih =>
    have hle := touches_watch_le (newLRUStore maxKeySize maxValueSize maxEntries) calls c
    rw [watch_snoc] at hlt ⊢
    exact (ih (by rw [watch_snoc] at hle; omega)).call hlt

lemma Stamped.exists_sample {w : Watch UInt64} (h : Stamped w) {m : MapStore UInt64}
    (hstore : w.store = m) (hsize : m.size ≤ m.maxEntries) {now : ℕ} {op : Op}
    {x value v : Bytes} {expiresAt : ℕ} (hw : m.written now op = some (x, value, expiresAt))
    (hx : x ∉ m.data) (hv : v ∈ m.data) (hgone : v ∉ (m.call now op).2.data) :
    m.size = m.maxEntries ∧ x ∈ (m.call now op).2.data ∧
      ∃ keys : List Bytes, keys.Nodup ∧ keys ⊆ m.data.keys ∧
        keys.length = min 5 m.size ∧ v ∈ keys ∧ ∀ k ∈ keys, k ≠ v → w.last v < w.last k := by
  obtain ⟨hp, -, -, horder⟩ := h
  rw [hstore] at hp horder
  obtain ⟨hover, hstay, o, s, hvictim⟩ := MapStore.victim_of_call hp (fun _ _ => rfl) hw hx hv hgone
  have hrec := MapStore.recorded_of_written lru hw
  have hnew : x ∉ (m.looked lru now op).data := mt (MapStore.mem_looked_iff m lru now op x).mp hx
  have hxr : x ∈ (m.recorded lru now op).data := by
    rw [hrec]
    exact ExtTreeMap.mem_insert_self
  have hsize' : (m.recorded lru now op).size = m.size + 1 := by
    rw [hrec, ← MapStore.size_looked m lru now op]
    exact MapStore.size_put_of_notMem lru value expiresAt hnew
  have hlen := MapStore.length_sample hxr o
  rw [hsize', Nat.add_sub_cancel] at hlen
  have hmem : ∀ a ∈ (m.recorded lru now op).sample o x, m.data[a.1]? = some a.2 := by
    intro a ha
    obtain ⟨he, hne⟩ := MapStore.mem_sample ha
    rwa [recorded_of_not_touched (by simpa [MapStore.touched, hw] using Ne.symm hne)] at he
  -- the victim has the lowest score, which is its stamp
  rw [MapStore.sampleVictim_eq] at hvictim
  obtain ⟨hlowest, -, hchosen⟩ := MapStore.foldl_weaker hvictim
  obtain ⟨e, hve, hs⟩ := hchosen.resolve_left (by simp)
  refine ⟨by omega, hstay, ((m.recorded lru now op).sample o x).map Prod.fst,
    MapStore.nodup_keys_sample _ o x, ?_, by rw [List.length_map, hlen]; rfl,
    List.mem_map_of_mem (f := Prod.fst) hve, ?_⟩
  · intro k hk
    obtain ⟨a, ha, rfl⟩ := List.mem_map.mp hk
    exact ExtTreeMap.mem_keys.mpr (ExtTreeMap.getElem?_eq_some_iff.mp (hmem a ha)).1
  · intro k hk hne
    obtain ⟨a, ha, rfl⟩ := List.mem_map.mp hk
    have hle : e.hint ≤ a.2.hint := by
      have hscore := hlowest a ha
      rw [hs] at hscore
      exact hscore
    rcases horder v a.1 e a.2 (hmem _ hve) (hmem a ha) (Ne.symm hne) with ⟨-, hl⟩ | ⟨hlt, -⟩
    · exact hl
    · exact absurd hle (UInt64.not_le.mpr hlt)

/-- **The victims of the LRU policy.** Whatever the order in which entries are sampled, whenever a
new key makes another one go, the new key stays, at least `min 5 cap - 1` of the other keys were
touched after the victim was, and with a cap of five or less all of them were. -/
theorem lru_victim_stale (maxKeySize maxValueSize cap : ℕ) (hcap : 1 ≤ cap) (calls : History)
    (now : ℕ) (op : Op) :
    let m₀ := newLRUStore maxKeySize maxValueSize cap
    let m := m₀.after calls
    let last := (watch m₀ calls).last
    (watch m₀ (calls ++ [(now, op)])).touches < 2 ^ 64 →
    ∀ x value expiresAt v, m.written now op = some (x, value, expiresAt) → x ∉ m.data →
      v ∈ m.data → v ∉ (m.call now op).2.data →
      v ≠ x ∧ x ∈ (m.call now op).2.data ∧
      min 5 cap - 1 ≤ (m.data.keys.filter fun k => k ≠ v ∧ last v < last k).length ∧
      (cap ≤ 5 → ∀ k ∈ m.data, k ≠ v → last v < last k) := by
  intro m₀ m last hlt x value expiresAt v hw hx hv hgone
  have hstamped : Stamped (watch m₀ calls) := stamped_watch maxKeySize maxValueSize cap
    (lt_of_le_of_lt (touches_watch_le m₀ calls (now, op)) hlt)
  have hstore : (watch m₀ calls).store = m := watch_store m₀ calls
  obtain ⟨hlim, hsize⟩ := size_after_le (p := lru) (m := m₀) rfl hcap (Nat.zero_le cap) calls
  have hmax : m.maxEntries = cap := hlim.maxEntries
  obtain ⟨hfull, hstay, keys, hnodup, hkeys, hlen, hvk, hlater⟩ :=
    hstamped.exists_sample hstore (by rw [hmax]; exact hsize) hw hx hv hgone
  refine ⟨fun heq => hx (heq ▸ hv), hstay, ?_, ?_⟩
  · have hsub : keys.erase v ⊆ m.data.keys.filter fun k => k ≠ v ∧ last v < last k := by
      intro k hk
      obtain ⟨hne, hk⟩ := hnodup.mem_erase_iff.mp hk
      refine List.mem_filter.mpr ⟨hkeys hk, ?_⟩
      simpa using ⟨hne, hlater k hk hne⟩
    have hle := ((hnodup.erase v).subperm hsub).length_le
    rw [List.length_erase_of_mem hvk, hlen, hfull, hmax] at hle
    exact hle
  · intro hfive k hk hne
    -- all keys are in the sample
    have hkeylen : m.data.keys.length = cap := by
      rw [ExtTreeMap.length_keys]
      exact hfull.trans hmax
    have hall : keys.Perm m.data.keys := (hnodup.subperm hkeys).perm_of_length_le (by omega)
    exact hlater k (hall.mem_iff.mpr (ExtTreeMap.mem_keys.mpr hk)) hne

/-- Of two keys the first was found after the second was stored, so that the second goes. -/
theorem lru_victim_stale_of_two :
    let m₀ := newLRUStore 10 10 2
    let calls : History := [(0, .set default [1] [7]), (0, .set default [2] [7]), (0, .get [1])]
    [2] ∈ (m₀.after calls).data ∧
      [2] ∉ ((m₀.after calls).call 0 (.set default [3] [7])).2.data ∧
      ∀ k ∈ (m₀.after calls).data, k ≠ [2] →
        (watch m₀ calls).last [2] < (watch m₀ calls).last k := by
  intro m₀ calls
  have hv : [2] ∈ (m₀.after calls).data := by decide +kernel
  have hgone : [2] ∉ ((m₀.after calls).call 0 (.set default [3] [7])).2.data := by decide +kernel
  have hstale := lru_victim_stale 10 10 2 (by decide) calls 0 (.set default [3] [7])
    (by decide +kernel) [3] [7] 0 [2] (by decide +kernel) (by decide +kernel) hv hgone
  exact ⟨hv, hgone, hstale.2.2.2 (by decide)⟩

end Kyria.Store
