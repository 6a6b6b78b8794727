import Kyria.Lib.Cursor
import Kyria.Lib.MapOrder

/-!
The in-memory store of a node (`internal/store`).

Times are nanoseconds since the zero time, so that an `expiresAt` of `0` means that the
entry never expires. A map iteration takes the order in which it visits the entries, a
method that reads the clock takes the time it reads. The eviction policy is a record of
functions over a state of its own; a store without one never evicts.
-/

namespace Kyria.Store

open Std (ExtTreeMap)
open Kyria.Lib.Cursor Kyria.Lib.MapOrder

def defaultMaxKeySize : ℕ := 2 ^ 10
def defaultMaxValueSize : ℕ := 2 ^ 20

inductive StoreError where
  | errEmptyKey
  | errKeyTooLarge
  | errValueTooLarge
  | errInvalidTTL
  deriving DecidableEq

def StoreError.text : StoreError → String
  | .errEmptyKey => "store: key must not be empty"
  | .errKeyTooLarge => "store: key exceeds maximum size"
  | .errValueTooLarge => "store: value exceeds maximum size"
  | .errInvalidTTL => "store: ttl must be positive"

/-- `recordAccess` and `recordInsert` return the policy's next state and the entry's next
hint. -/
structure Policy (σ : Type) where
  recordAccess : σ → Bytes → UInt64 → σ × UInt64
  recordInsert : σ → Bytes → UInt64 → σ × UInt64
  score : σ → Bytes → UInt64 → UInt64
  admits : UInt64 → UInt64 → Bool

def lru : Policy UInt64 where
  recordAccess clock _ _ := (clock + 1, clock + 1)
  recordInsert clock _ _ := (clock + 1, clock + 1)
  score _ _ hint := hint
  admits _ _ := true

structure Entry where
  value : Bytes
  expiresAt : ℕ
  hint : UInt64
  deriving DecidableEq

def Entry.expired (e : Entry) (now : ℕ) : Bool := e.expiresAt ≠ 0 && e.expiresAt < now

/-- A map iteration order for the entries of a store. -/
abbrev EntryOrder := VisitOrder (Bytes × Entry)

/-- `state` is what the policy keeps across calls. -/
structure MapStore (σ : Type) where
  maxKeySize : ℕ := defaultMaxKeySize
  maxValueSize : ℕ := defaultMaxValueSize
  data : ExtTreeMap Bytes Entry := ∅
  maxEntries : ℕ := 0
  policy : Option (Policy σ) := none
  state : σ

namespace MapStore

variable {σ : Type}

def get (m : MapStore σ) (now : ℕ) (key : Bytes) : Option Bytes × MapStore σ :=
  match m.data[key]? with
  | none => (none, m)
  | some e =>
    if e.expired now then (none, m)
    else
      match m.policy with
      | none => (some e.value, m)
      | some p =>
        let (state, hint) := p.recordAccess m.state key e.hint
        (some e.value, { m with state, data := m.data.insert key { e with hint } })

def size (m : MapStore σ) : ℕ := m.data.size

def evictionSampleSize : ℕ := 5

/-- The loop of `sampleVictim` over the entries still to visit: `chosen` is the entry with
the lowest score so far, with that score. -/
def sampleLoop (p : Policy σ) (state : σ) (excludeKey : Bytes) :
    List (Bytes × Entry) → ℕ → Option (Bytes × UInt64) → Option (Bytes × UInt64)
  | [], _, chosen => chosen
  | (k, e) :: rest, counter, chosen =>
    if k = excludeKey then sampleLoop p state excludeKey rest counter chosen
    else
      let tmpCount := p.score state k e.hint
      let chosen := match chosen with
        | none => some (k, tmpCount)
        | some (_, smallestScore) => if smallestScore > tmpCount then some (k, tmpCount) else chosen
      if counter + 1 ≥ evictionSampleSize then chosen
      else sampleLoop p state excludeKey rest (counter + 1) chosen

/-- The weakest incumbent among those sampled, with its score. -/
def sampleVictim (m : MapStore σ) (o : EntryOrder) (p : Policy σ) (excludeKey : Bytes) :
    Option (Bytes × UInt64) :=
  sampleLoop p m.state excludeKey (o.visit 0 m.data.toList) 0 none

def evictIfNeeded (m : MapStore σ) (o : EntryOrder) (p : Policy σ) (newKey : Bytes)
    (newHint : UInt64) (bypassAdmission : Bool) : Bool × MapStore σ :=
  if m.maxEntries = 0 ∨ m.size ≤ m.maxEntries then (true, m)
  else
    match m.sampleVictim o p newKey with
    | none => (true, m)
    | some (k, scoredVictimKey) =>
      let admitted := bypassAdmission || p.admits (p.score m.state newKey newHint) scoredVictimKey
      (admitted, { m with data := m.data.erase (if admitted then k else newKey) })

/-- The unexported `set`, shared by `Set`, `SetWithTTL` and `UpdateReplica`. -/
def setEntry (m : MapStore σ) (o : EntryOrder) (key value : Bytes) (expiresAt : ℕ)
    (bypassAdmission : Bool) : Except StoreError Bool × MapStore σ :=
  if key.length = 0 then (.error .errEmptyKey, m)
  else if key.length > m.maxKeySize then (.error .errKeyTooLarge, m)
  else if value.length > m.maxValueSize then (.error .errValueTooLarge, m)
  else
    match m.policy with
    | none => (.ok true, { m with data := m.data.insert key ⟨value, expiresAt, 0⟩ })
    | some p =>
      let (state, hint) := p.recordInsert m.state key 0
      let m' := { m with state, data := m.data.insert key ⟨value, expiresAt, hint⟩ }
      if m.data.contains key then (.ok true, m')
      else
        let (admitted, m'') := m'.evictIfNeeded o p key hint bypassAdmission
        (.ok admitted, m'')

def set (m : MapStore σ) (o : EntryOrder) (key value : Bytes) :
    Except StoreError Bool × MapStore σ :=
  m.setEntry o key value 0 false

def setWithTTL (m : MapStore σ) (o : EntryOrder) (now : ℕ) (key value : Bytes) (ttl : ℤ) :
    Except StoreError Bool × MapStore σ :=
  if ttl ≤ 0 then (.error .errInvalidTTL, m)
  else m.setEntry o key value (now + ttl.toNat) false

def updateReplica (m : MapStore σ) (o : EntryOrder) (now : ℕ) (key : Bytes)
    (fn : Bytes → Bytes) : Except StoreError Unit × MapStore σ :=
  let (old, m') := m.get now key
  let (admitted, m'') := m'.setEntry o key (fn (old.getD [])) 0 true
  (admitted.map fun _ => (), m'')

def delete (m : MapStore σ) (key : Bytes) : Bool × MapStore σ :=
  (m.data.contains key, { m with data := m.data.erase key })

/-- The entries `Range` calls its function on, in the order it visits them. -/
def range (m : MapStore σ) (o : EntryOrder) (now : ℕ) : List (Bytes × Bytes) :=
  ((o.visit 0 m.data.toList).filter fun (_, e) => !e.expired now).map fun (k, e) => (k, e.value)

def deleteIf (m : MapStore σ) (now : ℕ) (key : Bytes) (pred : Bytes → Bool) :
    Bool × MapStore σ :=
  match m.get now key with
  | (none, m') => (false, m')
  | (some b, m') => if pred b then m'.delete key else (false, m')

/-! ### What the operations do -/

/-- The value stored under a key, whether expired or not; empty when there is none, which is
what `UpdateReplica` hands to its function. -/
def blob (m : MapStore σ) (key : Bytes) : Bytes := (m.data[key]?).elim [] Entry.value

/-- The entry of `key`, if there is one, never expires. -/
def Permanent (m : MapStore σ) (key : Bytes) : Prop :=
  ∀ e, m.data[key]? = some e → e.expiresAt = 0

/-- The size limits let the pair through. -/
def Accepts (m : MapStore σ) (key value : Bytes) : Prop :=
  key.length ≠ 0 ∧ key.length ≤ m.maxKeySize ∧ value.length ≤ m.maxValueSize

instance (m : MapStore σ) (key value : Bytes) : Decidable (m.Accepts key value) :=
  inferInstanceAs (Decidable (_ ∧ _))

/-- `m'` is `m` after some operations: its limits and its policy are those of `m`. -/
structure SameLimits (m m' : MapStore σ) : Prop where
  maxKeySize : m'.maxKeySize = m.maxKeySize
  maxValueSize : m'.maxValueSize = m.maxValueSize
  maxEntries : m'.maxEntries = m.maxEntries
  policy : m'.policy = m.policy

lemma SameLimits.refl (m : MapStore σ) : SameLimits m m := ⟨rfl, rfl, rfl, rfl⟩

lemma SameLimits.symm {m m' : MapStore σ} (h : SameLimits m m') : SameLimits m' m :=
  ⟨h.maxKeySize.symm, h.maxValueSize.symm, h.maxEntries.symm, h.policy.symm⟩

lemma SameLimits.trans {m₁ m₂ m₃ : MapStore σ} (h : SameLimits m₁ m₂) (h' : SameLimits m₂ m₃) :
    SameLimits m₁ m₃ where
  maxKeySize := h'.maxKeySize.trans h.maxKeySize
  maxValueSize := h'.maxValueSize.trans h.maxValueSize
  maxEntries := h'.maxEntries.trans h.maxEntries
  policy := h'.policy.trans h.policy

lemma SameLimits.accepts_iff {m m' : MapStore σ} (h : SameLimits m m') (key value : Bytes) :
    m'.Accepts key value ↔ m.Accepts key value := by
  simp only [Accepts, h.maxKeySize, h.maxValueSize]

/-- `m'` holds at `key` what `m` held, up to the eviction hint. -/
def Keeps (m m' : MapStore σ) (key : Bytes) : Prop :=
  (m'.data[key]?).map (fun e => (e.value, e.expiresAt)) =
    (m.data[key]?).map fun e => (e.value, e.expiresAt)

lemma Keeps.refl (m : MapStore σ) (key : Bytes) : Keeps m m key := rfl

lemma Keeps.blob {m m' : MapStore σ} {key : Bytes} (h : Keeps m m' key) :
    m'.blob key = m.blob key := by
  unfold Keeps at h
  unfold MapStore.blob
  cases h₁ : m'.data[key]? <;> cases h₂ : m.data[key]? <;> simp_all

lemma Keeps.permanent {m m' : MapStore σ} {key : Bytes} (h : Keeps m m' key)
    (hp : m.Permanent key) : m'.Permanent key := by
  intro e he
  rw [Keeps, he] at h
  obtain ⟨e', he', heq⟩ := Option.map_eq_some_iff.mp h.symm
  exact (Prod.ext_iff.mp heq).2.symm.trans (hp e' he')

lemma Keeps.trans {m₁ m₂ m₃ : MapStore σ} {k : Bytes} (h : Keeps m₁ m₂ k) (h' : Keeps m₂ m₃ k) :
    Keeps m₁ m₃ k := Eq.trans h' h

lemma Keeps.of_eq {m m' : MapStore σ} {k : Bytes} (h : m'.data[k]? = m.data[k]?) :
    Keeps m m' k := by
  rw [Keeps, h]

lemma Keeps.mem_iff {m m' : MapStore σ} {k : Bytes} (h : Keeps m m' k) :
    k ∈ m'.data ↔ k ∈ m.data := by
  have hsome := congrArg Option.isSome h
  rw [Option.isSome_map, Option.isSome_map] at hsome
  rw [← ExtTreeMap.isSome_getElem?_iff_mem, ← ExtTreeMap.isSome_getElem?_iff_mem, hsome]

lemma get_sameLimits (m : MapStore σ) (now : ℕ) (key : Bytes) :
    SameLimits m (m.get now key).2 := by
  unfold get
  split
  · exact .refl m
  · split
    · exact .refl m
    · split <;> exact ⟨rfl, rfl, rfl, rfl⟩

lemma get_keeps (m : MapStore σ) (now : ℕ) (key k : Bytes) : Keeps m (m.get now key).2 k := by
  unfold get
  split
  · exact .refl m k
  · rename_i e he
    split
    · exact .refl m k
    · split
      · exact .refl m k
      · by_cases hk : key = k
        · subst hk; simp [Keeps, he]
        · simp [Keeps, ExtTreeMap.getElem?_insert, hk]

lemma get_fst (m : MapStore σ) (now : ℕ) (key : Bytes) :
    (m.get now key).1 = ((m.data[key]?).filter fun e => !e.expired now).map Entry.value := by
  unfold get
  rcases hk : m.data[key]? with _ | e
  · rfl
  · by_cases he : e.expired now = true
    · simp [he]
    · simp only [he, if_false, Option.filter_some_pos, Bool.not_false, Option.map_some,
        Bool.false_eq_true]
      split <;> rfl

lemma get_of_ne (m : MapStore σ) (now : ℕ) {key k : Bytes} (hk : k ≠ key) :
    (m.get now key).2.data[k]? = m.data[k]? := by
  unfold get
  split
  · rfl
  · split_ifs
    · rfl
    · split
      · rfl
      · simp [ExtTreeMap.getElem?_insert, Ne.symm hk]

lemma get_fst_of_permanent {m : MapStore σ} {key : Bytes} (h : m.Permanent key) (now : ℕ) :
    (m.get now key).1 = (m.data[key]?).map Entry.value := by
  rw [get_fst]
  rcases hk : m.data[key]? with _ | e
  · rfl
  · rw [Option.filter_some_pos (by simp [Entry.expired, h e hk])]

lemma getD_get_of_permanent {m : MapStore σ} {key : Bytes} (h : m.Permanent key) (now : ℕ) :
    (m.get now key).1.getD [] = m.blob key := by
  rw [get_fst_of_permanent h, blob]
  cases m.data[key]? <;> rfl

/-! ### Deleting on a condition -/

lemma deleteIf_cases (m : MapStore σ) (now : ℕ) (key : Bytes) (pred : Bytes → Bool) :
    (∃ e, m.data[key]? = some e ∧ e.expired now = false ∧ pred e.value = true ∧
      (m.deleteIf now key pred).1 = true ∧ (m.deleteIf now key pred).2.data[key]? = none) ∨
    ((∀ e, m.data[key]? = some e → e.expired now = false → pred e.value = false) ∧
      (m.deleteIf now key pred).1 = false ∧ Keeps m (m.deleteIf now key pred).2 key) := by
  have hfst := get_fst m now key
  have hkeep := get_keeps m now key key
  unfold deleteIf
  generalize m.get now key = r at hfst hkeep
  obtain ⟨_ | b, m'⟩ := r
  · refine .inr ⟨fun e he hexp => ?_, rfl, hkeep⟩
    rw [he, Option.filter_some_pos (by simp [hexp])] at hfst
    cases hfst
  · obtain ⟨e, he, rfl⟩ := Option.map_eq_some_iff.mp hfst.symm
    obtain ⟨hsome, hexp⟩ := Option.filter_eq_some_iff.mp he
    simp only
    split_ifs with hpred
    · refine .inl ⟨e, hsome, by simpa using hexp, hpred, ?_, by simp [delete]⟩
      have hmem : key ∈ m'.data := hkeep.mem_iff.mpr
        (ExtTreeMap.isSome_getElem?_iff_mem.mp (by simp [hsome]))
      exact ExtTreeMap.contains_iff_mem.mpr hmem
    · refine .inr ⟨fun e' he' _ => ?_, rfl, hkeep⟩
      obtain rfl := Option.some.inj (hsome.symm.trans he')
      simpa using hpred

lemma deleteIf_snd (m : MapStore σ) (now : ℕ) (key : Bytes) (pred : Bytes → Bool) :
    (m.deleteIf now key pred).2 = (m.get now key).2 ∨
      (m.deleteIf now key pred).2 = ((m.get now key).2.delete key).2 := by
  unfold deleteIf
  rcases m.get now key with ⟨_ | b, m'⟩
  · exact .inl rfl
  · simp only
    split_ifs
    · exact .inr rfl
    · exact .inl rfl

lemma deleteIf_sameLimits (m : MapStore σ) (now : ℕ) (key : Bytes) (pred : Bytes → Bool) :
    SameLimits m (m.deleteIf now key pred).2 := by
  have hget := get_sameLimits m now key
  rcases deleteIf_snd m now key pred with heq | heq
  · rw [heq]
    exact hget
  · rw [heq]
    exact hget.trans ⟨rfl, rfl, rfl, rfl⟩

lemma deleteIf_of_ne (m : MapStore σ) (now : ℕ) {key k : Bytes} (pred : Bytes → Bool)
    (hk : k ≠ key) : (m.deleteIf now key pred).2.data[k]? = m.data[k]? := by
  have hget := get_of_ne m now hk
  rcases deleteIf_snd m now key pred with heq | heq
  · rw [heq]
    exact hget
  · rw [heq]
    simpa [delete, ExtTreeMap.getElem?_erase, Ne.symm hk] using hget

/-! ### Evicting -/

/-- Nothing has to make way for the key. -/
def Room (m : MapStore σ) (key : Bytes) : Prop :=
  m.policy = none ∨ m.maxEntries = 0 ∨ m.data.contains key = true ∨ m.data.size < m.maxEntries

lemma room_get {m : MapStore σ} {key : Bytes} (h : m.Room key) (now : ℕ) :
    (m.get now key).2.Room key := by
  unfold get
  split
  · exact h
  · next e he =>
    split
    · exact h
    · split
      · exact h
      · exact .inr (.inr (.inl (by simp)))

/-- Nothing has to make way, even if the store comes to hold all of `keys`. -/
def HasRoom (m : MapStore σ) (keys : List Bytes) : Prop :=
  m.policy = none ∨ m.maxEntries = 0 ∨ (∀ key ∈ m.data, key ∈ keys) ∧ keys.length ≤ m.maxEntries

lemma HasRoom.room {m : MapStore σ} {keys : List Bytes} (h : m.HasRoom keys) {key : Bytes}
    (hk : key ∈ keys) : m.Room key := by
  rcases h with h | h | ⟨hsub, hlen⟩
  · exact .inl h
  · exact .inr (.inl h)
  · by_cases hc : key ∈ m.data
    · exact .inr (.inr (.inl (ExtTreeMap.contains_iff_mem.mpr hc)))
    · have hnd : (key :: m.data.keys).Nodup :=
        List.nodup_cons.mpr ⟨fun hmem => hc (ExtTreeMap.mem_keys.mp hmem), m.data.nodup_keys⟩
      have hall : key :: m.data.keys ⊆ keys := by
        intro k hmem
        rcases List.mem_cons.mp hmem with rfl | hmem
        · exact hk
        · exact hsub k (ExtTreeMap.mem_keys.mp hmem)
      have hle := (hnd.subperm hall).length_le
      rw [List.length_cons, ExtTreeMap.length_keys] at hle
      exact .inr (.inr (.inr (by omega)))

lemma HasRoom.of_sub {m m' : MapStore σ} {keys : List Bytes} (h : m.HasRoom keys)
    (hl : SameLimits m m') (hsub : ∀ k ∈ m'.data, k ∈ m.data ∨ k ∈ keys) : m'.HasRoom keys := by
  rcases h with h | h | ⟨hmem, hlen⟩
  · exact .inl (hl.policy.trans h)
  · exact .inr (.inl (hl.maxEntries.trans h))
  · exact .inr (.inr ⟨fun k hk => (hsub k hk).elim (hmem k) id, hl.maxEntries ▸ hlen⟩)

lemma evictIfNeeded_of_le {m : MapStore σ} (h : m.maxEntries = 0 ∨ m.size ≤ m.maxEntries)
    (o : EntryOrder) (p : Policy σ) (newKey : Bytes) (newHint : UInt64) (bypass : Bool) :
    m.evictIfNeeded o p newKey newHint bypass = (true, m) := by
  unfold evictIfNeeded
  rw [if_pos h]

lemma sampleLoop_of {p : Policy σ} {state : σ} {x : Bytes} {P : Bytes → Prop}
    (l : List (Bytes × Entry)) :
    ∀ (counter : ℕ) (chosen : Option (Bytes × UInt64)), (∀ c ∈ chosen, P c.1) →
      (∀ a ∈ l, a.1 ≠ x → P a.1) → ∀ c ∈ sampleLoop p state x l counter chosen, P c.1 := by
  induction l with
  | nil => exact fun _ _ h _ => h
  | cons a rest ih =>
    obtain ⟨k, e⟩ := a
    intro counter chosen h hl
    have hrest : ∀ a ∈ rest, a.1 ≠ x → P a.1 := fun a ha => hl a (List.mem_cons_of_mem _ ha)
    simp only [sampleLoop]
    split
    · exact ih counter chosen h hrest
    · rename_i hk
      have hnew : ∀ c ∈ some (k, p.score state k e.hint), P c.1 := by
        simpa using hl (k, e) List.mem_cons_self hk
      have hc : ∀ c ∈ (match chosen with
          | none => some (k, p.score state k e.hint)
          | some (_, s) => if s > p.score state k e.hint then some (k, p.score state k e.hint)
              else chosen), P c.1 := by
        split
        · exact hnew
        · split
          · exact hnew
          · exact h
      split
      · exact hc
      · exact ih _ _ hc hrest

lemma sampleLoop_isSome {p : Policy σ} {state : σ} {x : Bytes} (l : List (Bytes × Entry)) :
    ∀ (counter : ℕ) (chosen : Option (Bytes × UInt64)),
      (chosen.isSome = true ∨ ∃ a ∈ l, a.1 ≠ x) →
      (sampleLoop p state x l counter chosen).isSome = true := by
  induction l with
  | nil => exact fun _ _ h => h.elim id fun ⟨a, ha, _⟩ => absurd ha List.not_mem_nil
  | cons a rest ih =>
    obtain ⟨k, e⟩ := a
    intro counter chosen h
    simp only [sampleLoop]
    split
    · rename_i hk
      refine ih counter chosen (h.imp_right fun ⟨a, ha, hne⟩ => ⟨a, ?_, hne⟩)
      exact (List.mem_cons.mp ha).resolve_left fun heq => hne (heq ▸ hk)
    · have hc : (match chosen with
          | none => some (k, p.score state k e.hint)
          | some (_, s) => if s > p.score state k e.hint then some (k, p.score state k e.hint)
              else chosen).isSome = true := by
        split
        · rfl
        · split <;> rfl
      split
      · exact hc
      · exact ih _ _ (.inl hc)

lemma sampleVictim_spec {m : MapStore σ} {o : EntryOrder} {p : Policy σ} {x k : Bytes} {s : UInt64}
    (h : m.sampleVictim o p x = some (k, s)) : k ∈ m.data ∧ k ≠ x := by
  refine sampleLoop_of (P := fun k => k ∈ m.data ∧ k ≠ x) _ 0 none (by simp) ?_ (k, s) h
  rintro ⟨k, e⟩ ha hne
  rw [VisitOrder.mem_visit, ExtTreeMap.mem_toList_iff_getElem?_eq_some] at ha
  exact ⟨(ExtTreeMap.getElem?_eq_some_iff.mp ha).1, hne⟩

lemma sampleVictim_isSome {m : MapStore σ} {k x : Bytes} (hk : k ∈ m.data) (hne : k ≠ x)
    (o : EntryOrder) (p : Policy σ) : (m.sampleVictim o p x).isSome = true := by
  refine sampleLoop_isSome _ 0 none (.inr ⟨(k, m.data[k]), ?_, hne⟩)
  rw [VisitOrder.mem_visit, ExtTreeMap.mem_toList_iff_getElem?_eq_some]
  exact ExtTreeMap.getElem?_eq_some_getElem hk

lemma evictIfNeeded_sameLimits (m : MapStore σ) (o : EntryOrder) (p : Policy σ) (newKey : Bytes)
    (newHint : UInt64) (bypass : Bool) :
    SameLimits m (m.evictIfNeeded o p newKey newHint bypass).2 := by
  unfold evictIfNeeded
  split
  · exact .refl m
  · split <;> exact ⟨rfl, rfl, rfl, rfl⟩

lemma evictIfNeeded_data (m : MapStore σ) (o : EntryOrder) (p : Policy σ) (newKey : Bytes)
    (newHint : UInt64) (bypass : Bool) (k : Bytes) :
    (m.evictIfNeeded o p newKey newHint bypass).2.data[k]? = m.data[k]? ∨
      (m.evictIfNeeded o p newKey newHint bypass).2.data[k]? = none := by
  unfold evictIfNeeded
  split
  · exact .inl rfl
  · split
    · exact .inl rfl
    · rw [ExtTreeMap.getElem?_erase]
      exact (em _).symm.imp (fun h => if_neg h) fun h => if_pos h

lemma entry_of_evictIfNeeded {m : MapStore σ} {o : EntryOrder} {p : Policy σ} {newKey : Bytes}
    {newHint : UInt64} {bypass : Bool} {k : Bytes} {e : Entry}
    (he : (m.evictIfNeeded o p newKey newHint bypass).2.data[k]? = some e) :
    m.data[k]? = some e := by
  rcases evictIfNeeded_data m o p newKey newHint bypass k with hkeep | hgone
  · exact hkeep.symm.trans he
  · exact absurd (hgone.symm.trans he) (by simp)

lemma evictIfNeeded_bypass (m : MapStore σ) (o : EntryOrder) (p : Policy σ) (newKey : Bytes)
    (newHint : UInt64) :
    (m.evictIfNeeded o p newKey newHint true).2.data[newKey]? = m.data[newKey]? := by
  unfold evictIfNeeded
  split
  · rfl
  · split
    · rfl
    · rename_i k s hk
      have hne : k ≠ newKey := (sampleVictim_spec hk).2
      simp [ExtTreeMap.getElem?_erase, hne]

/-! ### Storing -/

lemma setEntry_of_not_accepts {m : MapStore σ} {key value : Bytes} (h : ¬ m.Accepts key value)
    (o : EntryOrder) (expiresAt : ℕ) (bypass : Bool) :
    ∃ err, m.setEntry o key value expiresAt bypass = (.error err, m) := by
  unfold setEntry
  split
  · exact ⟨_, rfl⟩
  · split
    · exact ⟨_, rfl⟩
    · split
      · exact ⟨_, rfl⟩
      · exact absurd ⟨‹_›, by omega, by omega⟩ h

lemma setEntry_of_no_policy {m : MapStore σ} {key value : Bytes} (h : m.Accepts key value)
    (hp : m.policy = none) (o : EntryOrder) (expiresAt : ℕ) (bypass : Bool) :
    m.setEntry o key value expiresAt bypass =
      (.ok true, { m with data := m.data.insert key ⟨value, expiresAt, 0⟩ }) := by
  obtain ⟨h₁, h₂, h₃⟩ := h
  unfold setEntry
  simp only [h₁, ↓reduceIte, not_lt.mpr h₂, not_lt.mpr h₃, hp]

/-- The insertion of a pair, before anything has to make way for it. -/
def put (m : MapStore σ) (p : Policy σ) (key value : Bytes) (expiresAt : ℕ) : MapStore σ :=
  let (state, hint) := p.recordInsert m.state key 0
  { m with state, data := m.data.insert key ⟨value, expiresAt, hint⟩ }

lemma setEntry_of_policy {m : MapStore σ} {p : Policy σ} (hp : m.policy = some p)
    {key value : Bytes} (h : m.Accepts key value) (o : EntryOrder) (expiresAt : ℕ) (bypass : Bool) :
    m.setEntry o key value expiresAt bypass =
      if m.data.contains key then (.ok true, m.put p key value expiresAt)
      else
        let r := (m.put p key value expiresAt).evictIfNeeded o p key
          (p.recordInsert m.state key 0).2 bypass
        (.ok r.1, r.2) := by
  obtain ⟨h₁, h₂, h₃⟩ := h
  unfold setEntry
  simp only [h₁, ↓reduceIte, not_lt.mpr h₂, not_lt.mpr h₃, hp, put]

section Put

variable (m : MapStore σ) (p : Policy σ) (key value : Bytes) (expiresAt : ℕ)

lemma put_sameLimits : SameLimits m (m.put p key value expiresAt) := ⟨rfl, rfl, rfl, rfl⟩

lemma getElem?_put_self :
    (m.put p key value expiresAt).data[key]? =
      some ⟨value, expiresAt, (p.recordInsert m.state key 0).2⟩ :=
  ExtTreeMap.getElem?_insert_self

lemma getElem?_put_of_ne {k : Bytes} (hk : k ≠ key) :
    (m.put p key value expiresAt).data[k]? = m.data[k]? := by
  simp [put, ExtTreeMap.getElem?_insert, Ne.symm hk]

lemma size_put_le : (m.put p key value expiresAt).size ≤ m.data.size + 1 :=
  ExtTreeMap.size_insert_le

lemma size_put_of_notMem {m : MapStore σ} {key : Bytes} (h : key ∉ m.data) :
    (m.put p key value expiresAt).size = m.size + 1 := by
  simp [put, size, ExtTreeMap.size_insert, h]

end Put

/-- What storing an accepted pair does to the whole store. -/
structure Stored (m m' : MapStore σ) (key value : Bytes) (expiresAt : ℕ) (bypass : Bool) :
    Prop where
  limits : SameLimits m m'
  here : bypass = true → ∃ hint, m'.data[key]? = some ⟨value, expiresAt, hint⟩
  others : ∀ k, k ≠ key → m'.data[k]? = m.data[k]? ∨ ¬ m.Room key ∧ m'.data[k]? = none

lemma setEntry_of_accepts {m : MapStore σ} {key value : Bytes} (h : m.Accepts key value)
    (o : EntryOrder) (expiresAt : ℕ) (bypass : Bool) :
    ∃ admitted m', m.setEntry o key value expiresAt bypass = (.ok admitted, m') ∧
      Stored m m' key value expiresAt bypass := by
  cases hp : m.policy with
  | none =>
    refine ⟨_, _, setEntry_of_no_policy h hp o expiresAt bypass, ⟨rfl, rfl, rfl, rfl⟩, ?_, ?_⟩
    · exact fun _ => ⟨0, by simp⟩
    · exact fun k hk => .inl (by simp [ExtTreeMap.getElem?_insert, Ne.symm hk])
  | some p =>
    have hlim := put_sameLimits m p key value expiresAt
    have hhere := getElem?_put_self m p key value expiresAt
    rw [setEntry_of_policy hp h]
    split
    · exact ⟨_, _, rfl, hlim, fun _ => ⟨_, hhere⟩,
        fun k hk => .inl (getElem?_put_of_ne m p key value expiresAt hk)⟩
    · rename_i hnew
      refine ⟨_, _, rfl, hlim.trans (evictIfNeeded_sameLimits _ o p key _ bypass), ?_, ?_⟩
      · rintro rfl
        exact ⟨_, (evictIfNeeded_bypass _ o p key _).trans hhere⟩
      · intro k hk
        have hkeep := getElem?_put_of_ne m p key value expiresAt hk
        by_cases hroom : m.Room key
        · -- the newcomer fits under the cap
          have hsize : m.maxEntries = 0 ∨ (m.put p key value expiresAt).size ≤ m.maxEntries := by
            rcases hroom with h | h | h | h
            · rw [hp] at h
              cases h
            · exact .inl h
            · exact absurd h hnew
            · have hle := size_put_le m p key value expiresAt
              exact .inr (by omega)
          rw [evictIfNeeded_of_le hsize]
          exact .inl hkeep
        · exact (evictIfNeeded_data _ o p key _ bypass k).imp (fun he => he.trans hkeep)
            fun he => ⟨hroom, he⟩

lemma entry_of_setEntry {m : MapStore σ} {key value : Bytes} (h : m.Accepts key value)
    {o : EntryOrder} {expiresAt : ℕ} {bypass : Bool} {e : Entry}
    (he : (m.setEntry o key value expiresAt bypass).2.data[key]? = some e) :
    e.value = value ∧ e.expiresAt = expiresAt := by
  obtain ⟨h₁, h₂, h₃⟩ := h
  unfold setEntry at he
  simp only [h₁, if_false, not_lt.mpr h₂, not_lt.mpr h₃] at he
  have hnew : ∀ hint : UInt64, (m.data.insert key ⟨value, expiresAt, hint⟩)[key]? = some e →
      e.value = value ∧ e.expiresAt = expiresAt := by
    intro hint hins
    rw [ExtTreeMap.getElem?_insert_self] at hins
    cases hins
    exact ⟨rfl, rfl⟩
  split at he
  · exact hnew _ he
  · split at he
    · exact hnew _ he
    · exact hnew _ (entry_of_evictIfNeeded he)

/-- What `UpdateReplica` does to the store: the update goes through and is there afterwards,
or the limits refuse it and the key keeps what it held. -/
inductive Updated (m m' : MapStore σ) (key value : Bytes) : Except StoreError Unit → Prop where
  | done : m.Accepts key value → m'.blob key = value → m'.data.contains key = true →
      Updated m m' key value (.ok ())
  | refused (err) : ¬ m.Accepts key value → Keeps m m' key → Updated m m' key value (.error err)

section UpdateReplica

variable (m : MapStore σ) (o : EntryOrder) (now : ℕ) (key : Bytes) (fn : Bytes → Bytes)

lemma updateReplica_cases :
    (∃ err, ¬ m.Accepts key (fn ((m.get now key).1.getD [])) ∧
      m.updateReplica o now key fn = (.error err, (m.get now key).2)) ∨
    (∃ m', m.Accepts key (fn ((m.get now key).1.getD [])) ∧
      m.updateReplica o now key fn = (.ok (), m') ∧
      Stored (m.get now key).2 m' key (fn ((m.get now key).1.getD [])) 0 true) := by
  have hlim := (get_sameLimits m now key).accepts_iff key (fn ((m.get now key).1.getD []))
  unfold updateReplica
  by_cases hacc : m.Accepts key (fn ((m.get now key).1.getD []))
  · obtain ⟨adm, m', hset, hst⟩ := setEntry_of_accepts (hlim.mpr hacc) o 0 true
    simp only [hset]
    exact .inr ⟨m', hacc, rfl, hst⟩
  · obtain ⟨err, hset⟩ := setEntry_of_not_accepts (mt hlim.mp hacc) o 0 true
    simp only [hset]
    exact .inl ⟨err, hacc, rfl⟩

lemma updateReplica_sameLimits : SameLimits m (m.updateReplica o now key fn).2 := by
  have hget := get_sameLimits m now key
  rcases updateReplica_cases m o now key fn with ⟨err, -, heq⟩ | ⟨m', -, heq, hst⟩
  · rwa [heq]
  · rw [heq]
    exact hget.trans hst.limits

lemma updateReplica_others {k : Bytes} (hk : k ≠ key) :
    Keeps m (m.updateReplica o now key fn).2 k ∨
      (m.updateReplica o now key fn).2.data[k]? = none := by
  have hget := get_keeps m now key k
  rcases updateReplica_cases m o now key fn with ⟨err, -, heq⟩ | ⟨m', -, heq, hst⟩
  · rw [heq]
    exact .inl hget
  · rw [heq]
    exact (hst.others k hk).imp (fun h => by rw [Keeps, h]; exact hget) And.right

lemma updateReplica_keeps (hr : m.Room key) {k : Bytes} (hk : k ≠ key) :
    Keeps m (m.updateReplica o now key fn).2 k := by
  have hget := get_keeps m now key k
  rcases updateReplica_cases m o now key fn with ⟨err, -, heq⟩ | ⟨m', -, heq, hst⟩
  · rwa [heq]
  · rw [heq]
    rcases hst.others k hk with h | ⟨h, -⟩
    · rw [Keeps, h]
      exact hget
    · exact absurd (room_get hr now) h

variable {m key}

lemma updateReplica_permanent (h : m.Permanent key) :
    (m.updateReplica o now key fn).2.Permanent key := by
  rcases updateReplica_cases m o now key fn with ⟨err, -, heq⟩ | ⟨m', -, heq, hst⟩
  · rw [heq]
    exact (get_keeps m now key key).permanent h
  · obtain ⟨hint, hhere⟩ := hst.here rfl
    rw [heq]
    intro e he
    rw [hhere] at he
    cases he
    rfl

theorem updateReplica_updated (h : m.Permanent key) :
    Updated m (m.updateReplica o now key fn).2 key (fn (m.blob key))
      (m.updateReplica o now key fn).1 := by
  rcases updateReplica_cases m o now key fn with ⟨err, hacc, heq⟩ | ⟨m', hacc, heq, hst⟩ <;>
    rw [getD_get_of_permanent h] at hacc <;> rw [heq]
  · exact .refused err hacc (get_keeps m now key key)
  · rw [getD_get_of_permanent h] at hst
    obtain ⟨hint, hhere⟩ := hst.here rfl
    refine .done hacc ?_ ?_
    · simp [MapStore.blob, hhere]
    · rw [ExtTreeMap.contains_iff_mem, ← ExtTreeMap.isSome_getElem?_iff_mem, hhere]
      rfl

end UpdateReplica

end MapStore

end Kyria.Store
