import Kyria.Store.Ops

/-!
The eviction policies (`internal/store/policy.go`, `internal/store/sketch.go`), and what a cap
on the number of entries keeps to, whatever the policy and whatever the sampling visits.
-/

namespace Kyria.Store

open Std (ExtTreeMap)
open Kyria.Lib.Cursor Kyria.Lib.MapOrder
open MapStore (SameLimits Keeps)

variable {σ : Type}

/-! ### The policies -/

def lfuBaseCount : UInt64 := 5

/-- The hint counts the accesses; the policy keeps nothing itself. -/
def lfu : Policy Unit where
  recordAccess _ _ hint := ((), hint + 1)
  recordInsert _ _ _ := ((), lfuBaseCount)
  score _ _ hint := hint
  admits _ _ := true

def sketchDepth : ℕ := 4
def counterMax : UInt32 := 15

/-- Rows of counters, one after the other; `hash` is the hash of the seed. -/
structure CountMinSketch where
  width : ℕ
  counters : Vector UInt32 (sketchDepth * width)
  size : UInt64 := 0
  sampleSize : ℕ
  hash : Bytes → UInt64
  pos : 0 < width

/-- The smallest power of two that is at least `n`. -/
def nextPowerOfTwo (n : ℕ) : ℕ := if n ≤ 1 then 1 else 2 ^ (Nat.log2 (n - 1) + 1)

lemma nextPowerOfTwo_pos (n : ℕ) : 0 < nextPowerOfTwo n := by
  unfold nextPowerOfTwo
  split_ifs <;> positivity

def newCountMinSketch (capacity : ℤ) (hash : Bytes → UInt64) : CountMinSketch where
  width := nextPowerOfTwo (max capacity 1).toNat
  counters := Vector.replicate _ 0
  sampleSize := 10 * (max capacity 1).toNat
  hash := hash
  pos := nextPowerOfTwo_pos _

namespace CountMinSketch

def mask (s : CountMinSketch) : UInt32 := UInt32.ofNat (s.width - 1)

lemma and_mask_lt (s : CountMinSketch) (x : UInt32) : (x &&& s.mask).toNat < s.width := by
  have hand : (x &&& s.mask).toNat ≤ s.mask.toNat := by
    rw [UInt32.toNat_and]
    exact Nat.and_le_right
  have hmask : s.mask.toNat ≤ s.width - 1 := by
    rw [mask, UInt32.toNat_ofNat']
    exact Nat.mod_le _ _
  have hpos := s.pos
  omega

/-- The cell of a key in a row, by double hashing. -/
def column (s : CountMinSketch) (row : Fin sketchDepth) (h₁ h₂ : UInt32) :
    Fin (sketchDepth * s.width) :=
  ⟨row * s.width + ((h₁ + UInt32.ofNat row * h₂) &&& s.mask).toNat, by
    have hcol := s.and_mask_lt (h₁ + UInt32.ofNat row * h₂)
    have hrow : (row + 1) * s.width ≤ sketchDepth * s.width :=
      Nat.mul_le_mul_right s.width row.isLt
    rw [Nat.add_mul, Nat.one_mul] at hrow
    omega⟩

/-- The cells of a key, one in each row. -/
def cells (s : CountMinSketch) (key : Bytes) : List (Fin (sketchDepth * s.width)) :=
  let h := s.hash key
  (List.finRange sketchDepth).map fun row => s.column row h.toUInt32 (h >>> 32).toUInt32

def reset (s : CountMinSketch) : CountMinSketch :=
  { s with counters := s.counters.map fun c : UInt32 => c >>> 1, size := 0 }

def add (s : CountMinSketch) (key : Bytes) : CountMinSketch :=
  let counters := (s.cells key).foldl (fun counters i =>
    if counters.get i < counterMax then counters.set i (counters.get i + 1) i.isLt
    else counters) s.counters
  let s' := { s with counters, size := s.size + 1 }
  if s'.size.toNat ≥ s'.sampleSize then s'.reset else s'

def estimate (s : CountMinSketch) (key : Bytes) : UInt32 :=
  (s.cells key).foldl (fun minCount i =>
    if s.counters.get i < minCount then s.counters.get i else minCount) counterMax

end CountMinSketch

/-- Admits a newcomer only if it is estimated to be more frequent than the victim. -/
def tinyLFU : Policy CountMinSketch where
  recordAccess s key hint := (s.add key, hint)
  recordInsert s key hint := (s.add key, hint)
  score s key _ := (s.estimate key).toUInt64
  admits candidateScore victimScore := candidateScore > victimScore

/-! ### What an insertion into a store with a cap does -/

/-- The ways in which an accepted pair is stored, with the flag that is returned. -/
inductive Inserted (m m' : MapStore σ) (key : Bytes) (e : Entry) (bypass : Bool) : Bool → Prop where
  /-- There was room, or an entry to overwrite. -/
  | fits : m'.data = m.data.insert key e → (key ∈ m.data ∨ m.size < m.maxEntries) →
      Inserted m m' key e bypass true
  | evicts (k : Bytes) : m'.data = (m.data.insert key e).erase k → k ∈ m.data → k ≠ key →
      key ∉ m.data → m.size = m.maxEntries → Inserted m m' key e bypass true
  | rejected : m'.data = (m.data.insert key e).erase key → key ∉ m.data → bypass = false →
      Inserted m m' key e bypass false

section Cap

variable {p : Policy σ} {m : MapStore σ}

lemma evictIfNeeded_of_full {key : Bytes} (hover : m.maxEntries < m.size)
    (hcap : m.maxEntries ≠ 0) {k₀ : Bytes} (hk₀ : k₀ ∈ m.data) (hne : k₀ ≠ key) (o : EntryOrder)
    (hint : UInt64) (bypass : Bool) :
    (∃ k : Bytes, k ∈ m.data ∧ k ≠ key ∧
      m.evictIfNeeded o p key hint bypass = (true, { m with data := m.data.erase k })) ∨
    (bypass = false ∧
      m.evictIfNeeded o p key hint bypass = (false, { m with data := m.data.erase key })) := by
  obtain ⟨⟨k, score⟩, hvictim⟩ := Option.isSome_iff_exists.mp
    (MapStore.sampleVictim_isSome hk₀ hne o p)
  obtain ⟨hk, hkne⟩ := MapStore.sampleVictim_spec hvictim
  have hfull : ¬ (m.maxEntries = 0 ∨ m.size ≤ m.maxEntries) := by omega
  simp only [MapStore.evictIfNeeded, if_neg hfull, hvictim]
  rcases hadm : bypass || p.admits (p.score m.state key hint) score with _ | _
  · exact .inr ⟨(Bool.or_eq_false_iff.mp hadm).1, rfl⟩
  · exact .inl ⟨k, hk, hkne, rfl⟩

lemma exists_mem_of_size_pos (h : 0 < m.size) : ∃ k, k ∈ m.data := by
  by_contra hnone
  rw [MapStore.size, ExtTreeMap.eq_empty_iff_forall_not_mem.mpr (not_exists.mp hnone),
    ExtTreeMap.size_empty] at h
  omega

lemma evictIfNeeded_inserted (hcap : 1 ≤ m.maxEntries) (hsize : m.size ≤ m.maxEntries)
    {key : Bytes} (hnew : key ∉ m.data) {n : MapStore σ} {e : Entry}
    (hdata : n.data = m.data.insert key e) (hmax : n.maxEntries = m.maxEntries) (o : EntryOrder)
    (bypass : Bool) :
    Inserted m (n.evictIfNeeded o p key e.hint bypass).2 key e bypass
      (n.evictIfNeeded o p key e.hint bypass).1 := by
  have hsize' : n.size = m.size + 1 := by
    simp [MapStore.size, hdata, ExtTreeMap.size_insert, hnew]
  by_cases hroom : m.size < m.maxEntries
  · rw [MapStore.evictIfNeeded_of_le (.inr (by omega))]
    exact .fits hdata (.inr hroom)
  · -- at its cap of at least one the store holds a key that can make way
    obtain ⟨k₀, hk₀⟩ := exists_mem_of_size_pos (m := m) (by omega)
    have hk₀' : k₀ ≠ key := fun heq => hnew (heq ▸ hk₀)
    have hin : k₀ ∈ n.data := by
      rw [hdata]
      exact ExtTreeMap.mem_insert.mpr (.inr hk₀)
    rcases evictIfNeeded_of_full (p := p) (m := n) (by omega) (by omega) hin hk₀' o e.hint bypass
      with ⟨k, hk, hkne, heq⟩ | ⟨hby, heq⟩
    · rw [heq]
      have hkm : k ∈ m.data := by
        rw [hdata] at hk
        refine (ExtTreeMap.mem_insert.mp hk).resolve_left fun h => hkne ?_
        exact (Std.LawfulEqCmp.eq_of_compare h).symm
      exact .evicts k (by rw [hdata]) hkm hkne hnew (by omega)
    · rw [heq]
      exact .rejected (by rw [hdata]) hnew hby

lemma setEntry_inserted (hp : m.policy = some p) (hcap : 1 ≤ m.maxEntries)
    (hsize : m.size ≤ m.maxEntries) {key value : Bytes} (hacc : m.Accepts key value)
    (o : EntryOrder) (expiresAt : ℕ) (bypass : Bool) :
    ∃ hint b m', m.setEntry o key value expiresAt bypass = (.ok b, m') ∧
      Inserted m m' key ⟨value, expiresAt, hint⟩ bypass b := by
  refine ⟨(p.recordInsert m.state key 0).2, ?_⟩
  rw [MapStore.setEntry_of_policy hp hacc]
  split_ifs with hold
  · exact ⟨true, _, rfl, .fits rfl (.inl (ExtTreeMap.contains_iff_mem.mp hold))⟩
  · have hnew : key ∉ m.data := mt ExtTreeMap.contains_iff_mem.mpr hold
    exact ⟨_, _, rfl, evictIfNeeded_inserted (n := m.put p key value expiresAt) hcap hsize hnew rfl
      rfl o bypass⟩

end Cap

/-! ### The contract of a call -/

/-- What a successful write did, with the flag it returned. -/
structure Wrote (cap : ℕ) (m m' : MapStore σ) (key value : Bytes) (expiresAt : ℕ) (b : Bool) :
    Prop where
  admitted : b = true ↔ ∃ e : Entry, m'.data[key]? = some e ∧ e.value = value
  expiry : ∀ e : Entry, m'.data[key]? = some e → e.expiresAt = expiresAt
  rejected : b = false → ∀ k, Keeps m m' k
  others : ∀ k, k ≠ key → ¬ Keeps m m' k →
    m'.data[k]? = none ∧ key ∉ m.data ∧ m.size = cap
  one : ∀ k₁ k₂, k₁ ≠ key → k₂ ≠ key → ¬ Keeps m m' k₁ → ¬ Keeps m m' k₂ → k₁ = k₂

/-- The pair a call writes, with its expiry. -/
def Op.pair (m : MapStore σ) (now : ℕ) : Op → Option (Bytes × Bytes × ℕ)
  | .set _ key value => some (key, value, 0)
  | .setWithTTL _ key value ttl => some (key, value, now + ttl.toNat)
  | .updateReplica _ key fn => some (key, fn (m.get now key).1, 0)
  | _ => none

def Reply.failed : Reply → Bool
  | .stored (.error _) | .updated _ (.error _) => true
  | _ => false

/-- The flag a successful write returns; `UpdateReplica` has none because it cannot be refused. -/
def Reply.admitted : Reply → Option Bool
  | .stored (.ok b) => some b
  | .updated _ (.ok _) => some true
  | _ => none

/-- What a call on a store with a cap keeps to. -/
structure KeepsCap (cap : ℕ) (m : MapStore σ) (now : ℕ) (op : Op) : Prop where
  size_le : (m.call now op).2.size ≤ cap
  failed : (m.call now op).1.failed = true → ∀ k, Keeps m (m.call now op).2 k
  wrote : ∀ key value expiresAt b, op.pair m now = some (key, value, expiresAt) →
    (m.call now op).1.admitted = some b → Wrote cap m (m.call now op).2 key value expiresAt b

namespace MapStore

variable {p : Policy σ} {m : MapStore σ}

lemma size_get (m : MapStore σ) (now : ℕ) (key : Bytes) : (m.get now key).2.size = m.size := by
  unfold get
  split
  · rfl
  · rename_i e he
    split
    · rfl
    · split
      · rfl
      · have hin : key ∈ m.data := (ExtTreeMap.getElem?_eq_some_iff.mp he).1
        simp [size, ExtTreeMap.size_insert, hin]

lemma size_reapExpired_le (m : MapStore σ) (o : EntryOrder) (now : ℕ) :
    (m.reapExpired o now).2.size ≤ m.size := by
  have hfold : ∀ (l : List (Bytes × Entry)) (d : ExtTreeMap Bytes Entry),
      (l.foldl (fun d p => d.erase p.1) d).size ≤ d.size := by
    intro l
    induction l with
    | nil => exact fun d => le_rfl
    | cons a l ih => exact fun d => (ih _).trans ExtTreeMap.size_erase_le
  rw [reapExpired, reapExpired_loop]
  exact hfold _ _

end MapStore

namespace Inserted

variable {m m' : MapStore σ} {key : Bytes} {e : Entry} {bypass b : Bool}

lemma size_le (h : Inserted m m' key e bypass b) (hsize : m.size ≤ m.maxEntries) :
    m'.size ≤ m.maxEntries := by
  unfold MapStore.size at *
  cases h with
  | fits hd hroom =>
    rw [hd, ExtTreeMap.size_insert]
    split_ifs with hin
    · exact hsize
    · have := hroom.resolve_left fun h => hin (ExtTreeMap.contains_iff_mem.mpr h)
      exact this
  | evicts k hd hk hne hnew hfull =>
    have hin : k ∈ m.data.insert key e := ExtTreeMap.mem_insert.mpr (.inr hk)
    rw [hd, ExtTreeMap.size_erase, if_pos (ExtTreeMap.contains_iff_mem.mpr hin)]
    have := ExtTreeMap.size_insert_le (t := m.data) (k := key) (v := e)
    omega
  | rejected hd hnew =>
    have hin : key ∈ m.data.insert key e := ExtTreeMap.mem_insert_self
    rw [hd, ExtTreeMap.size_erase, if_pos (ExtTreeMap.contains_iff_mem.mpr hin)]
    have := ExtTreeMap.size_insert_le (t := m.data) (k := key) (v := e)
    omega

lemma others (h : Inserted m m' key e bypass b) :
    (∀ k, k ≠ key → m'.data[k]? = m.data[k]?) ∨
    ∃ v, (∀ k, k ≠ key → k ≠ v → m'.data[k]? = m.data[k]?) ∧ m'.data[v]? = none ∧
      key ∉ m.data ∧ m.size = m.maxEntries := by
  have hins : ∀ k, k ≠ key → (m.data.insert key e)[k]? = m.data[k]? := by
    intro k hk
    simp [ExtTreeMap.getElem?_insert, Ne.symm hk]
  cases h with
  | fits hd _ => exact .inl fun k hk => hd ▸ hins k hk
  | evicts v hd _ _ hnew hfull =>
    refine .inr ⟨v, fun k hk hkv => ?_, by simp [hd], hnew, hfull⟩
    rw [hd, ExtTreeMap.getElem?_erase, if_neg (by simpa using Ne.symm hkv), hins k hk]
  | rejected hd _ _ =>
    refine .inl fun k hk => ?_
    rw [hd, ExtTreeMap.getElem?_erase, if_neg (by simpa using Ne.symm hk), hins k hk]

lemma here (h : Inserted m m' key e bypass b) :
    m'.data[key]? = if b = true then some e else none := by
  cases h with
  | fits hd _ => simp [hd]
  | evicts v hd _ hne _ _ => simp [hd, hne]
  | rejected hd _ _ => simp [hd]

/-- **An insertion keeps to the contract**, also when lookups came before it. -/
lemma wrote {m₀ : MapStore σ} (h : Inserted m m' key e bypass b) (hkeep : ∀ k, Keeps m₀ m k)
    (hsize : m₀.size = m.size) :
    Wrote m.maxEntries m₀ m' key e.value e.expiresAt b := by
  have hhere := h.here
  refine ⟨?_, ?_, ?_, ?_, ?_⟩
  · cases b <;> simp [hhere]
  · intro e' he'
    cases b <;> simp [hhere] at he'
    rw [he']
  · rintro rfl k
    refine (hkeep k).trans (.of_eq ?_)
    cases h with
    | rejected hd hnew _ =>
      rw [hd, ExtTreeMap.getElem?_erase, ExtTreeMap.getElem?_insert]
      split_ifs with hk
      · rw [← Std.LawfulEqCmp.eq_of_compare hk, ExtTreeMap.getElem?_eq_none hnew]
      · rfl
  · intro k hk hlost
    rcases h.others with hall | ⟨v, hall, hv, hnew, hfull⟩
    · exact absurd ((hkeep k).trans (.of_eq (hall k hk))) hlost
    · have hkv : k = v := by
        by_contra hkv
        exact hlost ((hkeep k).trans (.of_eq (hall k hk hkv)))
      exact ⟨hkv ▸ hv, mt (hkeep key).mem_iff.mpr hnew, hsize.trans hfull⟩
  · intro k₁ k₂ hk₁ hk₂ hlost₁ hlost₂
    rcases h.others with hall | ⟨v, hall, -⟩
    · exact absurd ((hkeep k₁).trans (.of_eq (hall k₁ hk₁))) hlost₁
    · have hv : ∀ k, k ≠ key → ¬ Keeps m₀ m' k → k = v := by
        intro k hk hlost
        by_contra hkv
        exact hlost ((hkeep k).trans (.of_eq (hall k hk hkv)))
      rw [hv k₁ hk₁ hlost₁, hv k₂ hk₂ hlost₂]

end Inserted

lemma keepsCap_of_le {m : MapStore σ} (hsize : m.size ≤ m.maxEntries) {now : ℕ} {op : Op}
    (hle : (m.call now op).2.size ≤ m.size) (hpair : op.pair m now = none)
    (hfail : (m.call now op).1.failed = false) : KeepsCap m.maxEntries m now op where
  size_le := hle.trans hsize
  failed h := by rw [hfail] at h; cases h
  wrote _ _ _ _ h := by rw [hpair] at h; cases h

section Step

variable {p : Policy σ} {m m' : MapStore σ} (hp : m.policy = some p) (hcap : 1 ≤ m.maxEntries)
  (hsize : m.size ≤ m.maxEntries)

include hp hcap hsize

lemma setEntry_cases (o : EntryOrder) (key value : Bytes) (expiresAt : ℕ) (bypass : Bool) :
    (∃ err, m.setEntry o key value expiresAt bypass = (.error err, m)) ∨
    ∃ hint b m', m.setEntry o key value expiresAt bypass = (.ok b, m') ∧
      Inserted m m' key ⟨value, expiresAt, hint⟩ bypass b := by
  by_cases hacc : m.Accepts key value
  · exact .inr (setEntry_inserted hp hcap hsize hacc o expiresAt bypass)
  · exact .inl (MapStore.setEntry_of_not_accepts hacc o expiresAt bypass)

/-- How a write answers: with the flag, or, past the admission filter, without it. -/
inductive AnswersWrite (bypass : Bool) : (Except StoreError Bool → Reply) → Prop where
  | stored : AnswersWrite bypass .stored
  | updated (handed : Option Bytes) : bypass = true →
      AnswersWrite bypass fun r => .updated handed (r.map fun _ => ())

lemma keepsCap_of_setEntry {m₀ : MapStore σ} (hkeep : ∀ k, Keeps m₀ m k) (hsize₀ : m₀.size = m.size)
    {now : ℕ} {op : Op} {o : EntryOrder} {key value : Bytes} {expiresAt : ℕ} {bypass : Bool}
    {answer : Except StoreError Bool → Reply} (hans : AnswersWrite bypass answer)
    (hcall : m₀.call now op = (answer (m.setEntry o key value expiresAt bypass).1,
      (m.setEntry o key value expiresAt bypass).2))
    (hpair : op.pair m₀ now = some (key, value, expiresAt)) :
    KeepsCap m.maxEntries m₀ now op := by
  rcases setEntry_cases hp hcap hsize o key value expiresAt bypass with
    ⟨err, heq⟩ | ⟨hint, b, m', heq, hins⟩
  · rw [heq] at hcall
    refine ⟨by rw [hcall]; exact hsize, fun _ k => by rw [hcall]; exact hkeep k, ?_⟩
    intro _ _ _ b _ hb
    rw [hcall] at hb
    cases hans <;> cases hb
  · rw [heq] at hcall
    refine ⟨by rw [hcall]; exact hins.size_le hsize, ?_, ?_⟩
    · intro hfail
      rw [hcall] at hfail
      cases hans <;> cases hfail
    · intro key' value' expiresAt' b' hpair' hb
      rw [hpair] at hpair'
      cases hpair'
      have hbb : b' = b := by
        rw [hcall] at hb
        cases hans with
        | stored => exact (Option.some.inj hb).symm
        | updated handed hbypass =>
          cases hins with
          | fits | evicts => exact (Option.some.inj hb).symm
          | rejected _ _ hby => rw [hbypass] at hby; cases hby
      rw [hcall, hbb]
      exact hins.wrote hkeep hsize₀

/-- **Every call keeps to the contract.** -/
lemma keepsCap_call (now : ℕ) (op : Op) : KeepsCap m.maxEntries m now op := by
  cases op with
  | get key => exact keepsCap_of_le hsize (MapStore.size_get m now key).le rfl rfl
  | set o key value =>
    exact keepsCap_of_setEntry hp hcap hsize (fun k => .refl m k) rfl .stored rfl rfl
  | setWithTTL o key value ttl =>
    by_cases httl : ttl ≤ 0
    · -- refused before anything is looked at
      have hcall : m.call now (.setWithTTL o key value ttl) =
          (.stored (.error .errInvalidTTL), m) := by
        simp only [MapStore.call, MapStore.setWithTTL, if_pos httl]
      refine ⟨by rw [hcall]; exact hsize, fun _ k => by rw [hcall]; exact .refl m k, ?_⟩
      intro _ _ _ b _ hb
      rw [hcall] at hb
      cases hb
    · have hcall : m.call now (.setWithTTL o key value ttl) =
          (.stored (m.setEntry o key value (now + ttl.toNat) false).1,
            (m.setEntry o key value (now + ttl.toNat) false).2) := by
        simp only [MapStore.call, MapStore.setWithTTL, if_neg httl]
      exact keepsCap_of_setEntry hp hcap hsize (fun k => .refl m k) rfl .stored hcall rfl
  | updateReplica o key fn =>
    have hlim := MapStore.get_sameLimits m now key
    have hsize' := MapStore.size_get m now key
    have hkeep : KeepsCap (m.get now key).2.maxEntries m now (.updateReplica o key fn) :=
      keepsCap_of_setEntry (hlim.policy.trans hp) (hlim.maxEntries ▸ hcap)
        (by rw [hsize', hlim.maxEntries]; exact hsize) (fun k => MapStore.get_keeps m now key k)
        hsize'.symm (.updated (m.get now key).1 rfl) rfl rfl
    rwa [hlim.maxEntries] at hkeep
  | delete key => exact keepsCap_of_le hsize ExtTreeMap.size_erase_le rfl rfl
  | deleteIf key pred =>
    refine keepsCap_of_le hsize ?_ rfl rfl
    rw [← MapStore.size_get m now key]
    simp only [MapStore.call]
    rcases MapStore.deleteIf_snd m now key pred with heq | heq
    · rw [heq]
    · rw [heq]
      exact ExtTreeMap.size_erase_le
  | size => exact keepsCap_of_le hsize le_rfl rfl rfl
  | range o => exact keepsCap_of_le hsize le_rfl rfl rfl
  | reapExpired o => exact keepsCap_of_le hsize (MapStore.size_reapExpired_le m o now) rfl rfl

end Step

lemma size_after_le {p : Policy σ} {m : MapStore σ} (hp : m.policy = some p)
    (hcap : 1 ≤ m.maxEntries) (hsize : m.size ≤ m.maxEntries) (calls : History) :
    SameLimits m (m.after calls) ∧ (m.after calls).size ≤ m.maxEntries := by
  induction calls generalizing m with
  | nil => exact ⟨.refl m, hsize⟩
  | cons c calls ih =>
    have hlim := MapStore.call_sameLimits m c.1 c.2
    have hstep := (keepsCap_call hp hcap hsize c.1 c.2).size_le
    obtain ⟨hafter, hle⟩ := ih (hlim.policy.trans hp) (hlim.maxEntries ▸ hcap)
      (hlim.maxEntries ▸ hstep)
    exact ⟨hlim.trans hafter, hlim.maxEntries ▸ hle⟩

/-- **The eviction invariant**: under every policy, after every history of a store with a cap of at
least one, every further call keeps to the contract. -/
theorem eviction_keeps_cap (p : Policy σ) (state : σ) (maxKeySize maxValueSize maxEntries : ℕ)
    (hcap : 1 ≤ maxEntries) (calls : History) (now : ℕ) (op : Op) :
    KeepsCap maxEntries
      (({ maxKeySize, maxValueSize, maxEntries, policy := some p, state } : MapStore σ).after calls)
      now op := by
  obtain ⟨hlim, hsize⟩ := size_after_le (p := p)
    (m := { maxKeySize, maxValueSize, maxEntries, policy := some p, state }) rfl hcap
    (Nat.zero_le maxEntries) calls
  have hkeep := keepsCap_call (hlim.policy.trans rfl) (hlim.maxEntries ▸ hcap)
    (hlim.maxEntries ▸ hsize) now op
  rwa [hlim.maxEntries] at hkeep

/-- A store for one entry, whose sketch counts every key in the same cell. -/
def tinyStore : MapStore CountMinSketch where
  maxEntries := 1
  policy := some tinyLFU
  state := newCountMinSketch 1 fun _ => 0

/-- With room for one entry, and a sketch that finds both keys equally frequent, a second key is
not admitted; the contract says that the first is still there. -/
theorem eviction_keeps_cap_rejecting :
    1 ≤ 1 ∧
    ((tinyStore.after [(0, .set default [1] [7])]).call 0 (.set default [2] [8])).1.admitted =
      some false ∧
    KeepsCap 1 (tinyStore.after [(0, .set default [1] [7])]) 0 (.set default [2] [8]) :=
  ⟨le_rfl, by decide +kernel, eviction_keeps_cap tinyLFU _ _ _ 1 le_rfl _ 0 _⟩

end Kyria.Store
