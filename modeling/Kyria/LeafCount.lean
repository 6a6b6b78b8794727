import Kyria.Handler

/-!
The leaf count that a peer asks for (`Handler.rtree`, `Handler.rbucket`).

The count is rounded up to a power of two and doubled in 64 bits. Above `2 ^ 42` leaves the slots
are more than `make` accepts, above `2 ^ 61` their number overflows, and above `2 ^ 62` the power
of two does; nothing between the parser and `merkle.New` stops such a count. How much memory the
machine has is not part of the model.
-/

namespace Kyria.Server

open Kyria.Lib.Cursor Kyria.Lib.MapOrder Kyria.Store Kyria.Replica Kyria.Protocol Kyria.Sha256
open Kyria.BucketCodec Kyria.Text

variable {σ : Type} (H : Hash)

/-- A tree that was made for `n` leaves and has all the slots it needs. -/
structure Sized (n : ℤ) (t : Merkle.Tree) : Prop where
  power : ∃ k : ℕ, t.leafCount = 2 ^ k
  covers : n ≤ t.leafCount
  slots : (t.nodes.length : ℤ) = 2 * t.leafCount
  bucket : ∀ key, 0 ≤ t.bucket H key ∧ t.bucket H key < t.leafCount
  served : ∀ entries, ∃ t' b, Merkle.fill H t entries = some t' ∧ t'.encode = some b

/-- A request for `n` leaves builds such a tree, and both commands answer it. -/
def Servable (σ : Type) (arg : Bytes) (n : ℤ) : Prop :=
  (∃ t, Merkle.new n = some t ∧ Sized H n t) ∧
    ∀ (m : MapStore σ) (env : Env), (∃ v, rtree H m env arg = some v) ∧
      ∀ o bucketSet, ∃ v, rbucket H m env o arg bucketSet = some v

variable {H}

lemma le_two_pow_depth (n : ℤ) : n ≤ 2 ^ Merkle.depth n := by
  unfold Merkle.depth
  split_ifs with h
  · exact h
  · have hlt : (n - 1).toNat < 2 ^ ((n - 1).toNat.log2 + 1) := Nat.lt_log2_self
    have hcast : ((2 ^ ((n - 1).toNat.log2 + 1) : ℕ) : ℤ) = 2 ^ ((n - 1).toNat.log2 + 1) := by
      push_cast
      rfl
    omega

lemma exists_sized {n : ℤ} (hn : n ≤ 2 ^ 42) : ∃ t, Merkle.new n = some t ∧ Sized H n t := by
  obtain ⟨t, ht, hperf, hempty⟩ := Merkle.new_spec hn
  have hk := (Merkle.depth_le hn).trans (by norm_num : 42 ≤ 61)
  refine ⟨t, ht, ⟨_, hperf.leafCount⟩, ?_, ?_, fun key => ?_, fun entries => ?_⟩
  · rw [hperf.leafCount]
    exact le_two_pow_depth n
  · rw [hperf.heap.slots, hperf.leafCount_eq]
    push_cast
    rfl
  · rw [hperf.bucket hk, hperf.leafCount_eq]
    exact ⟨Int.natCast_nonneg _, Int.ofNat_lt.mpr (Merkle.bucketOf_lt H _ key)⟩
  · obtain ⟨t', hfill, hperf', -⟩ := Merkle.fill_spec (H := H) hperf hk
      (fun i => .inl (hempty _)) entries
    obtain ⟨b, hb⟩ := hperf'.heap.exists_encode
    exact ⟨t', b, hfill, hb⟩

lemma new_eq_none {n : ℤ} (hlo : 2 ^ 42 < n) (hhi : n ≤ 2 ^ 62) : Merkle.new n = none := by
  have hpow : Merkle.nextPowerOfTwo n = Merkle.wrap (2 ^ ((n - 1).toNat.log2 + 1)) :=
    if_neg (by omega)
  have hge : 42 ≤ (n - 1).toNat.log2 := (Nat.le_log2 (by omega)).mpr (by omega)
  have hlt : (n - 1).toNat.log2 < 62 := (Nat.log2_lt (by omega)).mpr (by omega)
  unfold Merkle.new
  rw [hpow]
  generalize (n - 1).toNat.log2 = d at hge hlt
  interval_cases d <;> decide

lemma new_of_large {n : ℤ} (hlo : 2 ^ 62 < n) (hhi : n < 2 ^ 63) :
    Merkle.new n = some ⟨-2 ^ 63, []⟩ := by
  have hpow : Merkle.nextPowerOfTwo n = Merkle.wrap (2 ^ ((n - 1).toNat.log2 + 1)) :=
    if_neg (by omega)
  have hge : 62 ≤ (n - 1).toNat.log2 := (Nat.le_log2 (by omega)).mpr (by omega)
  have hlt : (n - 1).toNat.log2 < 63 := (Nat.log2_lt (by omega)).mpr (by omega)
  unfold Merkle.new
  rw [hpow, show (n - 1).toNat.log2 = 62 by omega]
  decide

/-- **A leaf count can be served exactly if it is at most `2 ^ 42`.** -/
theorem leaf_count_servable_iff {arg : Bytes} {n : ℤ} (hn : atoi arg = some n) :
    Servable H σ arg n ↔ n ≤ 2 ^ 42 := by
  constructor
  · rintro ⟨⟨t, ht, hsized⟩, -⟩
    by_contra hlarge
    rcases le_or_gt n (2 ^ 62) with hle | hgt
    · rw [new_eq_none (by omega) hle] at ht
      cases ht
    · rw [new_of_large hgt (atoi_lt hn)] at ht
      cases ht
      obtain ⟨k, hk⟩ := hsized.power
      have hpos : (0 : ℤ) < 2 ^ k := by positivity
      simp only at hk
      omega
  · intro hle
    refine ⟨exists_sized hle, fun m env => ⟨?_, fun o bucketSet => ?_⟩⟩
    · obtain ⟨t, ht, hsized⟩ := exists_sized (H := H) hle
      obtain ⟨t', b, hfill, hb⟩ := hsized.served (m.range env.entries env.now)
      refine ⟨.bulkString (some b), ?_⟩
      simp only [rtree, hn, buildTree, ht, hfill, hb, Option.bind_eq_bind, Option.bind_some]
      rfl
    · obtain ⟨t, ht, -⟩ := exists_sized (H := H) hle
      simp only [rbucket, hn]
      split
      · exact ⟨_, rfl⟩
      · rw [ht]
        exact ⟨_, rfl⟩

theorem leaf_count_servable_thousand : Servable sha256 Unit (ascii "1000") 1000 :=
  (leaf_count_servable_iff (by decide)).mpr (by norm_num)

/-- One leaf more than `2 ^ 42`, `2 ^ 61` or `2 ^ 62`, and the handler panics on an empty store. -/
theorem leaf_count_overflows :
    rtree sha256 ({ state := () } : MapStore Unit) default (ascii "4398046511105") = none ∧
      rtree sha256 ({ state := () } : MapStore Unit) default (ascii "2305843009213693953") = none ∧
      rbucket sha256 ({ state := () } : MapStore Unit) default default
        (ascii "2305843009213693953") (encodeBuckets []) = none ∧
      rtree sha256 ({ state := () } : MapStore Unit) default (ascii "4611686018427387905") = none ∧
      ¬ Servable sha256 Unit (ascii "4398046511105") 4398046511105 ∧
      ¬ Servable sha256 Unit (ascii "2305843009213693953") 2305843009213693953 := by
  have hmake : Merkle.new 4398046511105 = none := new_eq_none (by norm_num) (by norm_num)
  have hslots : Merkle.new 2305843009213693953 = none := new_eq_none (by norm_num) (by norm_num)
  have hleaves : Merkle.new 4611686018427387905 = some ⟨-2 ^ 63, []⟩ :=
    new_of_large (by norm_num) (by norm_num)
  refine ⟨?_, ?_, ?_, ?_, ?_, ?_⟩
  · rw [rtree, show atoi (ascii "4398046511105") = some 4398046511105 by decide]
    simp only [buildTree, hmake, Option.bind_eq_bind, Option.bind_none]
  · rw [rtree, show atoi (ascii "2305843009213693953") = some 2305843009213693953 by decide]
    simp only [buildTree, hslots, Option.bind_eq_bind, Option.bind_none]
  · rw [rbucket, show atoi (ascii "2305843009213693953") = some 2305843009213693953 by decide]
    simp only [hslots]
    rfl
  · rw [rtree, show atoi (ascii "4611686018427387905") = some 4611686018427387905 by decide]
    simp only [buildTree, hleaves]
    rfl
  · rintro ⟨⟨t, ht, -⟩, -⟩
    rw [hmake] at ht
    cases ht
  · rintro ⟨⟨t, ht, -⟩, -⟩
    rw [hslots] at ht
    cases ht

end Kyria.Server
