import Kyria.Store.Eviction
import Kyria.Lib.CountMin

/-!
What the estimates of the count-min sketch are worth.

A key shares its counters with whatever keys the hash puts into the same cells. Saturation and
halving are the same for all counters, so the sketch is a tally with shared cells, and no
estimate is below the count the key would have alone.
-/

namespace Kyria.Store

open Kyria.Lib.Cursor Kyria.Lib.CountMin

namespace CountMinSketch

/-- The loop of `add` over the key's cells. -/
def bump {n : ℕ} (counters : Vector UInt32 n) (is : List (Fin n)) : Vector UInt32 n :=
  is.foldl (fun counters i =>
    if counters.get i < counterMax then counters.set i (counters.get i + 1) i.isLt
    else counters) counters

/-- The first half of `add`, before the aging. -/
def record (s : CountMinSketch) (key : Bytes) : CountMinSketch :=
  { s with counters := bump s.counters (s.cells key), size := s.size + 1 }

lemma add_eq (s : CountMinSketch) (key : Bytes) :
    s.add key = if (s.record key).size.toNat ≥ s.sampleSize then (s.record key).reset
      else s.record key := rfl

/-- The sketch after a sequence of calls. -/
def addAll (s : CountMinSketch) (keys : List Bytes) : CountMinSketch := keys.foldl add s

lemma addAll_snoc (s : CountMinSketch) (keys : List Bytes) (key : Bytes) :
    s.addAll (keys ++ [key]) = (s.addAll keys).add key := by
  simp [addAll]

/-- The index into the flat slice that `column` computes. -/
def index (s : CountMinSketch) (key : Bytes) (row : ℕ) : ℕ :=
  row * s.width + (((s.hash key).toUInt32 + UInt32.ofNat row * (s.hash key >>> 32).toUInt32) &&&
    s.mask).toNat

def indices (s : CountMinSketch) (key : Bytes) : List ℕ :=
  (List.range sketchDepth).map (s.index key)

lemma map_val_cells (s : CountMinSketch) (key : Bytes) :
    (s.cells key).map Fin.val = s.indices key := rfl

lemma nodup_cells (s : CountMinSketch) (key : Bytes) : (s.cells key).Nodup := by
  refine List.Nodup.of_map Fin.val ?_
  rw [map_val_cells]
  refine List.nodup_range.map_on ?_
  intro row _ row' _ heq
  have hdiv : ∀ r, s.index key r / s.width = r := by
    intro r
    have hcol := s.and_mask_lt
      ((s.hash key).toUInt32 + UInt32.ofNat r * (s.hash key >>> 32).toUInt32)
    rw [index, mul_comm, Nat.mul_add_div s.pos, Nat.div_eq_of_lt hcol, add_zero]
  rw [← hdiv row, heq, hdiv row']

lemma index_lt (s : CountMinSketch) (key : Bytes) {row : ℕ} (hrow : row < sketchDepth) :
    s.index key row < sketchDepth * s.width :=
  (s.column ⟨row, hrow⟩ (s.hash key).toUInt32 (s.hash key >>> 32).toUInt32).isLt

/-! ### The sketch is a tally -/

def count {n : ℕ} (counters : Vector UInt32 n) (i : ℕ) : ℕ := (counters[i]?.getD 0).toNat

lemma count_eq {n : ℕ} (counters : Vector UInt32 n) (i : Fin n) :
    count counters i = (counters.get i).toNat := by
  simp [count, Vector.get_eq_getElem]

lemma count_replicate (n i : ℕ) : count (Vector.replicate n 0) i = 0 := by
  unfold count
  rw [Vector.getElem?_replicate]
  split_ifs <;> rfl

lemma count_raised {n : ℕ} {counters : Vector UInt32 n} (hle : ∀ j, count counters j ≤ 15)
    (i : Fin n) (j : ℕ) :
    count (if counters.get i < counterMax then counters.set i (counters.get i + 1) i.isLt
      else counters) j = if j = i then min 15 (count counters j + 1) else count counters j := by
  have hi := hle i
  have hmax : counterMax.toNat = 15 := rfl
  rw [count_eq] at hi
  split_ifs with hlt hji hji
  · subst hji
    rw [UInt32.lt_iff_toNat_lt, hmax] at hlt
    have hnext : (counters.get i + 1).toNat = (counters.get i).toNat + 1 := by
      have hone : (1 : UInt32).toNat = 1 := rfl
      rw [UInt32.toNat_add, hone]
      exact Nat.mod_eq_of_lt (by omega)
    rw [count_eq counters i, count, Vector.getElem?_set_self, Option.getD_some, hnext]
    omega
  · rw [count, Vector.getElem?_set_ne i.isLt (Ne.symm hji), count]
  · subst hji
    rw [UInt32.lt_iff_toNat_lt, hmax] at hlt
    rw [count_eq]
    omega
  · rfl

lemma count_bump {n : ℕ} {is : List (Fin n)} (hnd : is.Nodup) {counters : Vector UInt32 n}
    (hle : ∀ j, count counters j ≤ 15) :
    count (bump counters is) = raise 15 (is.map Fin.val) (count counters) := by
  induction is generalizing counters with
  | nil =>
    funext j
    simp [bump, raise]
  | cons i is ih =>
    obtain ⟨hnot, hnd⟩ := List.nodup_cons.mp hnd
    have hone := count_raised hle i
    have hle' : ∀ j, count (if counters.get i < counterMax then
        counters.set i (counters.get i + 1) i.isLt else counters) j ≤ 15 := by
      intro j
      rw [hone j]
      split_ifs
      · exact min_le_left _ _
      · exact hle j
    rw [bump, List.foldl_cons, ← bump, ih hnd hle']
    funext j
    have hmem : j ∈ is.map Fin.val → j ≠ i := by
      rintro hj rfl
      obtain ⟨k, hk, hki⟩ := List.mem_map.mp hj
      exact hnot (Fin.ext hki ▸ hk)
    simp only [raise, List.map_cons, List.mem_cons, hone j]
    by_cases hj : j ∈ is.map Fin.val
    · rw [if_pos hj, if_neg (hmem hj), if_pos (.inr hj)]
    · by_cases hji : j = i
      · rw [if_neg hj, if_pos hji, if_pos (.inl hji)]
      · rw [if_neg hj, if_neg hji, if_neg (not_or.mpr ⟨hji, hj⟩)]

lemma count_reset (s : CountMinSketch) : count s.reset.counters = halve (count s.counters) := by
  funext i
  have hmap : s.reset.counters[i]? = (s.counters[i]?).map fun c : UInt32 => c >>> 1 :=
    Vector.getElem?_map
  rw [count, hmap, halve, count]
  rcases s.counters[i]? with _ | c
  · rfl
  · simp only [Option.map_some, Option.getD_some, UInt32.toNat_shiftRight]
    exact Nat.shiftRight_one _

/-- The counters and the size, as natural numbers. -/
def tallied (s : CountMinSketch) : Tally ℕ := ⟨count s.counters, s.size.toNat⟩

lemma tallied_size (s : CountMinSketch) : s.tallied.size = s.size.toNat := rfl

lemma tallied_record {s : CountMinSketch} (hle : ∀ i, s.tallied.counts i ≤ 15)
    (hsize : s.tallied.size + 1 < 2 ^ 64) (key : Bytes) :
    (s.record key).tallied =
      ⟨raise 15 (s.indices key) s.tallied.counts, s.tallied.size + 1⟩ := by
  have hone : (1 : UInt64).toNat = 1 := rfl
  have hnext : (s.size + 1).toNat = s.tallied.size + 1 := by
    rw [UInt64.toNat_add, hone, ← tallied_size, Nat.mod_eq_of_lt hsize]
  have hcounts := count_bump (s.nodup_cells key) hle
  rw [map_val_cells] at hcounts
  simp only [tallied, record, hcounts, hnext]

lemma tallied_reset (s : CountMinSketch) : s.reset.tallied = ⟨halve s.tallied.counts, 0⟩ :=
  congrArg (Tally.mk · 0) (count_reset s)

/-- **A call of `add` is one occurrence in the tally.** -/
lemma tallied_add {s : CountMinSketch} (hle : ∀ i, s.tallied.counts i ≤ 15)
    (hsize : s.tallied.size + 1 < 2 ^ 64) (key : Bytes) :
    (s.add key).tallied = s.tallied.add 15 s.sampleSize s.indices key := by
  have hrecord := tallied_record hle hsize key
  have hnext : (s.record key).size.toNat = s.tallied.size + 1 := congrArg Tally.size hrecord
  rw [add_eq, Tally.add, hnext]
  split_ifs
  · rw [tallied_reset, hrecord]
  · exact hrecord

/-- The sketch has the layout of `s₀`. -/
structure SameLayout (s₀ s : CountMinSketch) : Prop where
  width : s.width = s₀.width
  sampleSize : s.sampleSize = s₀.sampleSize
  hash : s.hash = s₀.hash

lemma SameLayout.indices_eq {s₀ s : CountMinSketch} (h : SameLayout s₀ s) :
    s.indices = s₀.indices := by
  funext key
  refine List.map_congr_left fun row _ => ?_
  rw [index, index, mask, mask, h.width, h.hash]

lemma sameLayout_add (s : CountMinSketch) (key : Bytes) : SameLayout s (s.add key) := by
  unfold add
  dsimp only
  split <;> exact ⟨rfl, rfl, rfl⟩

lemma sameLayout_addAll (s : CountMinSketch) (keys : List Bytes) :
    SameLayout s (s.addAll keys) := by
  induction keys using List.reverseRecOn with
  | nil => exact ⟨rfl, rfl, rfl⟩
  | append_singleton keys key ih =>
    have hadd := sameLayout_add (s.addAll keys) key
    rw [addAll_snoc]
    exact ⟨hadd.width.trans ih.width, hadd.sampleSize.trans ih.sampleSize,
      hadd.hash.trans ih.hash⟩

/-- **The sketch is the tally of the keys added**, with the cells it was made with. -/
lemma tallied_addAll {s : CountMinSketch} (hzero : s.tallied = ⟨fun _ => 0, 0⟩)
    (hpos : 0 < s.sampleSize) (hlt : s.sampleSize < 2 ^ 63) (keys : List Bytes) :
    (s.addAll keys).tallied = tally 15 s.sampleSize s.indices keys := by
  induction keys using List.reverseRecOn with
  | nil => exact hzero
  | append_singleton keys key ih =>
    have hlayout := sameLayout_addAll s keys
    have hsize : (s.addAll keys).tallied.size < s.sampleSize := by
      rw [ih, size_tally hpos]
      exact Nat.mod_lt _ hpos
    rw [addAll_snoc, tallied_add (fun i => ih ▸ counts_tally_le keys i) (by omega), ih, tally_snoc,
      hlayout.sampleSize, hlayout.indices_eq]

lemma add_eq_of_size {s : CountMinSketch} {n : ℕ} (hpos : 0 < s.sampleSize)
    (hlt : s.sampleSize < 2 ^ 63) (hsize : s.size.toNat = n % s.sampleSize) (key : Bytes) :
    s.add key = if s.sampleSize ∣ n + 1 then (s.record key).reset else s.record key := by
  have hmod : n % s.sampleSize < s.sampleSize := Nat.mod_lt _ hpos
  have hone : (1 : UInt64).toNat = 1 := rfl
  have hnext : (s.record key).size.toNat = n % s.sampleSize + 1 := by
    have hadd : (s.size + 1).toNat = (s.size.toNat + 1) % 2 ^ 64 := UInt64.toNat_add _ _
    rw [hsize] at hadd
    rw [record, hadd]
    exact Nat.mod_eq_of_lt (by omega)
  have hdvd : (s.record key).size.toNat ≥ s.sampleSize ↔ s.sampleSize ∣ n + 1 := by
    rw [hnext, Nat.dvd_iff_mod_eq_zero, ← Nat.mod_add_mod]
    constructor
    · intro hge
      have hlast : n % s.sampleSize + 1 = s.sampleSize := by omega
      rw [hlast, Nat.mod_self]
    · intro hzero
      by_contra hnot
      rw [Nat.mod_eq_of_lt (by omega)] at hzero
      omega
  rw [add_eq]
  exact if_congr hdvd rfl rfl

lemma le_estimate_iff (s : CountMinSketch) (key : Bytes) (b : ℕ) :
    b ≤ (s.estimate key).toNat ↔ b ≤ 15 ∧ ∀ i ∈ s.cells key, b ≤ (s.counters.get i).toNat := by
  have hfold : ∀ (is : List (Fin (sketchDepth * s.width))) (minCount : UInt32),
      b ≤ (is.foldl (fun minCount i =>
        if s.counters.get i < minCount then s.counters.get i else minCount) minCount).toNat ↔
        b ≤ minCount.toNat ∧ ∀ i ∈ is, b ≤ (s.counters.get i).toNat := by
    intro is
    induction is with
    | nil => simp
    | cons i is ih =>
      intro minCount
      rw [List.foldl_cons, ih, List.forall_mem_cons, ← and_assoc]
      refine and_congr_left fun _ => ?_
      split_ifs with hlt
      · rw [UInt32.lt_iff_toNat_lt] at hlt
        omega
      · rw [UInt32.lt_iff_toNat_lt] at hlt
        omega
  exact hfold (s.cells key) counterMax

end CountMinSketch

open CountMinSketch

/-- **The sketch never undercounts.** Whatever the hash and whatever keys are added, an estimate
is at least the key's own count, saturated and halved along with the counters, and at most 15. The
counters are halved at every `sampleSize`-th call, and the cells of a key are inside the slice. -/
theorem sketch_never_undercounts {capacity : ℤ} (hcap : 1 ≤ capacity) (hov : 10 * capacity < 2 ^ 63)
    (hash : Bytes → UInt64) (keys : List Bytes) :
    let s := (newCountMinSketch capacity hash).addAll keys
    (s.sampleSize : ℤ) = 10 * capacity ∧
    (∀ key, (ownTally 15 s.sampleSize keys).counts key ≤ (s.estimate key).toNat ∧
      (s.estimate key).toNat ≤ 15) ∧
    (∀ i, (s.counters.get i).toNat ≤ 15) ∧
    s.size.toNat = keys.length % s.sampleSize ∧ s.size.toNat < s.sampleSize ∧
    (∀ key, s.add key =
      if s.sampleSize ∣ keys.length + 1 then (s.record key).reset else s.record key) ∧
    ∀ key row, row < sketchDepth → s.index key row < s.counters.toArray.size := by
  intro s
  have hlayout : SameLayout (newCountMinSketch capacity hash) s := sameLayout_addAll _ keys
  have hsample : ((newCountMinSketch capacity hash).sampleSize : ℤ) = 10 * capacity := by
    have hmax : max capacity 1 = capacity := max_eq_left hcap
    simp only [newCountMinSketch, hmax]
    omega
  have hpos : 0 < (newCountMinSketch capacity hash).sampleSize := by omega
  have hlt : (newCountMinSketch capacity hash).sampleSize < 2 ^ 63 := by omega
  have hzero : (newCountMinSketch capacity hash).tallied = ⟨fun _ => 0, 0⟩ := by
    have hcounts : count (newCountMinSketch capacity hash).counters = fun _ => 0 :=
      funext fun i => count_replicate _ i
    exact congrArg (Tally.mk · 0) hcounts
  have htally := tallied_addAll hzero hpos hlt keys
  have hcounts : ∀ i, (s.counters.get i).toNat =
      (tally 15 s.sampleSize s.indices keys).counts i := by
    intro i
    rw [hlayout.sampleSize, hlayout.indices_eq, ← htally, ← count_eq]
    rfl
  have hsize : s.size.toNat = keys.length % s.sampleSize := by
    have hsz := congrArg Tally.size htally
    rw [size_tally hpos] at hsz
    rw [hlayout.sampleSize]
    exact hsz
  rw [← hlayout.sampleSize] at hsample hpos hlt
  refine ⟨hsample, fun key => ⟨?_, ?_⟩, fun i => ?_, hsize, hsize ▸ Nat.mod_lt _ hpos,
    add_eq_of_size hpos hlt hsize, fun key row hrow => ?_⟩
  · rw [le_estimate_iff]
    refine ⟨counts_tally_le keys key, fun i hi => ?_⟩
    rw [hcounts i]
    exact ownTally_le keys key (map_val_cells s key ▸ List.mem_map_of_mem hi)
  · exact ((le_estimate_iff s key _).mp le_rfl).1
  · rw [hcounts i]
    exact counts_tally_le keys (i : ℕ)
  · rw [Vector.size_toArray]
    exact index_lt s key hrow

/-- Two keys in the same cells, with one aging on the way: the second is counted too high, the
first is not counted too low. -/
theorem sketch_never_undercounts_shared :
    (1 : ℤ) ≤ 1 ∧ (10 * 1 : ℤ) < 2 ^ 63 ∧
    let keys : List Bytes := List.replicate 9 [1] ++ [[2], [1], [1]]
    let s := (newCountMinSketch 1 fun _ => 0).addAll keys
    (ownTally 15 s.sampleSize keys).counts [1] = 6 ∧ (s.estimate [1]).toNat = 7 ∧
      (ownTally 15 s.sampleSize keys).counts [1] ≤ (s.estimate [1]).toNat := by
  refine ⟨le_rfl, by decide, by decide +kernel, by decide +kernel, ?_⟩
  exact ((sketch_never_undercounts le_rfl (by decide) (fun _ => 0) _).2.1 [1]).1

end Kyria.Store
