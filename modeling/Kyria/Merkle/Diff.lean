import Kyria.Merkle

/-!
What `Diff` finds (`Tree.Diff`, `Tree.collect`).

A node is the hash of its children one behind the other, and a leaf without entries is empty: a
digest in the left leaf of a pair and an empty right leaf hash to the same node as the digest on
the right and nothing on the left. With a hash that does not collide, this is the only way for
`Diff` to miss a bucket.
-/

namespace Kyria.Merkle

open Kyria.Lib.Cursor Kyria.Lib.HashTree Kyria.Binenc Kyria.Sha256

variable {k : ℕ} {t o : Tree} {H : Hash}

/-- The inputs of the hash, when `Root` is called. -/
def Hashed (H : Hash) (t : Tree) (b : Bytes) : Prop :=
  ∃ r t', t.root H = some (r, t') ∧ ∃ i : ℕ, 1 ≤ i ∧ (i : ℤ) < t.leafCount ∧
    b = t'.node (2 * i) ++ t'.node (2 * i + 1)

/-- No two inputs that occur in the trees have the same hash. -/
def CollisionFree (H : Hash) (t o : Tree) : Prop :=
  ∀ a b, Hashed H t a ∨ Hashed H o a → Hashed H t b ∨ Hashed H o b → H.sum a = H.sum b → a = b

/-- The numbers of the buckets that differ, in order. -/
def NamesDiffering (H : Hash) (k : ℕ) (t o : Tree) : Prop :=
  ∃ ds : List ℕ, t.diff H o = some (ds.map Nat.cast) ∧ ds.Pairwise (· < ·) ∧
    ∀ i, i ∈ ds ↔ i < 2 ^ k ∧ leaf k t i ≠ leaf k o i

/-- What one pair of leaves has on the left, the other has on the right, and nothing else. -/
def Moved (a b : Bytes × Bytes) : Prop := a.1 ≠ [] ∧ a.2 = [] ∧ b.1 = [] ∧ b.2 = a.1

/-- The leaves `2 * j` and `2 * j + 1`. -/
def pair (k : ℕ) (t : Tree) (j : ℕ) : Bytes × Bytes := (leaf k t (2 * j), leaf k t (2 * j + 1))

/-- A digest has moved within a pair of leaves. -/
def Shifted (k : ℕ) (t o : Tree) (j : ℕ) : Prop :=
  2 * j + 1 < 2 ^ k ∧ (Moved (pair k t j) (pair k o j) ∨ Moved (pair k o j) (pair k t j))

lemma Moved.append_eq {a b : Bytes × Bytes} (h : Moved a b) : a.1 ++ a.2 = b.1 ++ b.2 := by
  obtain ⟨-, h₁, h₂, h₃⟩ := h
  rw [h₁, h₂, h₃, List.append_nil, List.nil_append]

lemma moved_of_append {a b c : Bytes} (ha : a.length = 32) (hc : IsDigest c) (h : a ++ b = c) :
    Moved (a, b) ([], c) := by
  have hlen := congrArg List.length h
  rw [List.length_append, ha] at hlen
  have hne : a ≠ [] := List.ne_nil_of_length_pos (by omega)
  have hb : b = [] := by
    refine List.length_eq_zero_iff.mp ?_
    rcases hc with rfl | hc
    · simp at hlen
    · omega
  refine ⟨hne, hb, rfl, ?_⟩
  rw [← h, hb, List.append_nil]

lemma eq_or_moved {a b : Bytes × Bytes} (ha₁ : IsDigest a.1) (ha₂ : IsDigest a.2)
    (hb₁ : IsDigest b.1) (hb₂ : IsDigest b.2) (h : a.1 ++ a.2 = b.1 ++ b.2) :
    a = b ∨ Moved a b ∨ Moved b a := by
  obtain ⟨a₁, a₂⟩ := a
  obtain ⟨b₁, b₂⟩ := b
  rcases ha₁ with rfl | ha₁ <;> rcases hb₁ with rfl | hb₁
  · exact .inl (Prod.ext rfl h)
  · exact .inr (.inr (moved_of_append hb₁ ha₂ h.symm))
  · exact .inr (.inl (moved_of_append ha₁ hb₂ h))
  · obtain ⟨h₁, h₂⟩ := List.append_inj h (ha₁.trans hb₁.symm)
    exact .inl (Prod.ext h₁ h₂)

lemma exists_half (h : 1 < 2 ^ k) : ∃ m, 2 ^ k = 2 * m := by
  cases k with
  | zero => simp at h
  | succ k => exact ⟨2 ^ k, pow_succ' 2 k⟩

section Exactness

variable {t' o' : Tree} (h : Perfect k t) (ho : Perfect k o) (ht' : Rooted H (2 ^ k) t t')
  (ho' : Rooted H (2 ^ k) o o')

include ht' in
lemma Rooted.leaf (i : ℕ) : t'.node (2 ^ k + i) = leaf k t i := ht'.same _ (.inr (by omega))

include h ht' in
lemma hashed_of_rooted {i : ℕ} (h1 : 1 ≤ i) (hi : i < 2 ^ k) :
    Hashed H t (t'.node (2 * i) ++ t'.node (2 * i + 1)) :=
  ⟨_, t', ht'.root, i, h1, by rw [h.leafCount_eq]; exact_mod_cast hi, rfl⟩

include ht' in
lemma isDigest_node (hd : ∀ i < 2 ^ k, IsDigest (leaf k t i)) {i : ℕ} (h1 : 1 ≤ i)
    (hi : i < 2 * 2 ^ k) : IsDigest (t'.node i) := by
  by_cases hin : i < 2 ^ k
  · right
    rw [ht'.built i h1 hin]
    exact H.length_sum _
  · have hleaf := ht'.leaf (i - 2 ^ k)
    rw [show 2 ^ k + (i - 2 ^ k) = i by omega] at hleaf
    rw [hleaf]
    exact hd _ (by omega)

include ht' in
lemma pair_eq {i j : ℕ} (hij : 2 * i = 2 ^ k + 2 * j) :
    pair k t j = (t'.node (2 * i), t'.node (2 * i + 1)) := by
  rw [pair, ← ht'.leaf, ← ht'.leaf, hij, add_assoc]

include ht' ho' in
lemma node_eq_of_shifted {i j : ℕ} (hs : Shifted k t o j) (hij : 2 * i = 2 ^ k + 2 * j) :
    t'.node i = o'.node i := by
  obtain ⟨hj, hmoved⟩ := hs
  rw [ht'.built i (by omega) (by omega), ho'.built i (by omega) (by omega)]
  rw [pair_eq ht' hij, pair_eq ho' hij] at hmoved
  rcases hmoved with hm | hm
  · exact congrArg H.sum hm.append_eq
  · exact congrArg H.sum hm.append_eq.symm

include h ho ht' ho' in
lemma shifted_of_clash (hd : ∀ i < 2 ^ k, IsDigest (leaf k t i))
    (hd' : ∀ i < 2 ^ k, IsDigest (leaf k o i)) (hfree : CollisionFree H t o) {i : ℕ}
    (h1 : 1 ≤ i) (hi : i < 2 ^ k) (hc : Clash t'.node o'.node i) : ∃ j, Shifted k t o j := by
  obtain ⟨heq, hne⟩ := hc
  rw [ht'.built i h1 hi, ho'.built i h1 hi] at heq
  have happ := hfree _ _ (.inl (hashed_of_rooted h ht' h1 hi))
    (.inr (hashed_of_rooted ho ho' h1 hi)) heq
  have hmoved := eq_or_moved (a := (t'.node (2 * i), t'.node (2 * i + 1)))
    (b := (o'.node (2 * i), o'.node (2 * i + 1)))
    (isDigest_node ht' hd (by omega) (by omega)) (isDigest_node ht' hd (by omega) (by omega))
    (isDigest_node ho' hd' (by omega) (by omega)) (isDigest_node ho' hd' (by omega) (by omega)) happ
  rcases hmoved with hsame | hmoved
  · rw [Prod.mk.injEq] at hsame
    exact absurd hne (by simp [hsame.1, hsame.2])
  -- the right child of a node above is a hash, and not empty
  have hbottom : 2 ^ k ≤ 2 * i + 1 := by
    by_contra hlt
    have hhash : ∀ {x x' : Tree}, Rooted H (2 ^ k) x x' → x'.node (2 * i + 1) ≠ [] := by
      intro x x' hx hnil
      rw [hx.built (2 * i + 1) (by omega) (by omega)] at hnil
      simpa [hnil] using H.length_sum (x'.node (2 * (2 * i + 1)) ++ x'.node (2 * (2 * i + 1) + 1))
    rcases hmoved with hm | hm
    · exact hhash ht' hm.2.1
    · exact hhash ho' hm.2.1
  obtain ⟨m, hm⟩ := exists_half (k := k) (by omega)
  have hij : 2 * i = 2 ^ k + 2 * (i - m) := by omega
  refine ⟨i - m, by omega, ?_⟩
  rw [pair_eq ht' hij, pair_eq ho' hij]
  exact hmoved

include ht' ho' in
lemma not_mem_walk_of_shifted {j : ℕ} (hs : Shifted k t o j) :
    2 * j ∉ walk t'.node o'.node (2 ^ k) (2 ^ k + 1) 1 := by
  have hj := hs.1
  intro hmem
  rw [mem_walk _ le_rfl (by omega) (by rw [one_mul]; exact Nat.lt_two_pow_self.le)] at hmem
  obtain ⟨-, e, he, hdiff⟩ := hmem
  have he1 : 1 ≤ e := by
    rcases Nat.eq_zero_or_pos e with rfl | hpos
    · rw [pow_zero, Nat.div_one] at he
      omega
    · exact hpos
  obtain ⟨m, hm⟩ := exists_half (k := k) (by omega)
  refine hdiff 1 he1 ?_
  rw [pow_one]
  exact node_eq_of_shifted ht' ho' hs (by omega)

end Exactness

/-- **`Diff` names the buckets that differ exactly if no digest has moved within a pair of
leaves**, as long as the hash does not collide. -/
theorem diff_names_differing_iff (h : Perfect k t) (ho : Perfect k o)
    (hd : ∀ i < 2 ^ k, IsDigest (leaf k t i)) (hd' : ∀ i < 2 ^ k, IsDigest (leaf k o i))
    (hfree : CollisionFree H t o) : NamesDiffering H k t o ↔ ∀ j, ¬ Shifted k t o j := by
  obtain ⟨t', ht'⟩ := root_spec H h.heap
  obtain ⟨o', ho'⟩ := root_spec H ho.heap
  have hdiff := diff_eq h.heap ho.heap ht' ho'
  constructor
  · rintro ⟨ds, hds, -, hmem⟩ j hs
    obtain rfl : walk t'.node o'.node (2 ^ k) (2 ^ k + 1) 1 = ds := by
      have hcast := Option.some.inj (hdiff.symm.trans hds)
      exact List.map_injective_iff.mpr Nat.cast_injective hcast
    have hj := hs.1
    refine not_mem_walk_of_shifted ht' ho' hs ((hmem _).mpr ⟨by omega, fun heq => ?_⟩)
    rcases hs.2 with hm | hm
    · exact hm.1 (heq.trans hm.2.2.1)
    · exact hm.1 (heq.symm.trans hm.2.2.1)
  · intro hno
    have hclash : ∀ i, 1 ≤ i → i < 2 ^ k → ¬ Clash t'.node o'.node i := by
      intro i h1 hi hc
      obtain ⟨j, hs⟩ := shifted_of_clash h ho ht' ho' hd hd' hfree h1 hi hc
      exact hno j hs
    refine ⟨_, hdiff, (walk_sorted k k Nat.lt_two_pow_self.le (by simp)
      (by rw [pow_succ'])).1, fun i => ?_⟩
    rw [mem_walk_of_not_clash hclash Nat.one_le_two_pow Nat.lt_two_pow_self.le, ht'.leaf, ho'.leaf]

/-- A tree with two leaves. -/
def twoLeaves (a b : Bytes) : Tree := ⟨2, [[], [], a, b]⟩

lemma perfect_twoLeaves (a b : Bytes) : Perfect 1 (twoLeaves a b) := ⟨rfl, rfl⟩

lemma isDigest_twoLeaves {a b : Bytes} (ha : IsDigest a) (hb : IsDigest b) :
    ∀ i < 2 ^ 1, IsDigest (leaf 1 (twoLeaves a b) i) := by
  intro i hi
  rcases (by omega : i = 0 ∨ i = 1) with rfl | rfl
  · exact ha
  · exact hb

lemma eq_of_hashed_twoLeaves {a b x : Bytes} (hx : Hashed H (twoLeaves a b) x) : x = a ++ b := by
  obtain ⟨r, t', hroot, i, h1, hi, rfl⟩ := hx
  obtain ⟨t'', ht''⟩ := root_spec H (perfect_twoLeaves a b).heap
  obtain ⟨-, rfl⟩ := Prod.mk.inj (Option.some.inj (hroot.symm.trans ht''.root))
  obtain rfl : i = 1 := by
    have : (i : ℤ) < 2 := hi
    omega
  exact congrArg₂ (· ++ ·) (ht''.leaf 0) (ht''.leaf 1)

lemma collisionFree_twoLeaves {a b c d : Bytes}
    (h : H.sum (a ++ b) = H.sum (c ++ d) → a ++ b = c ++ d) :
    CollisionFree H (twoLeaves a b) (twoLeaves c d) := by
  intro x y hx hy heq
  rcases hx with hx | hx <;> rcases hy with hy | hy <;>
    rw [eq_of_hashed_twoLeaves hx, eq_of_hashed_twoLeaves hy] at heq ⊢
  · exact h heq
  · exact (h heq.symm).symm

theorem diff_names_differing_of_two :
    NamesDiffering sha256 1 (twoLeaves (List.replicate 32 1) [])
      (twoLeaves (List.replicate 32 2) []) := by
  have hne : sha256.sum (List.replicate 32 1) ≠ sha256.sum (List.replicate 32 2) := by
    decide +kernel
  refine (diff_names_differing_iff (perfect_twoLeaves _ _) (perfect_twoLeaves _ _)
    (isDigest_twoLeaves (.inr rfl) (.inl rfl)) (isDigest_twoLeaves (.inr rfl) (.inl rfl))
    (collisionFree_twoLeaves fun heq => absurd heq (by simpa using hne))).mpr fun j hs => ?_
  obtain rfl : j = 0 := by
    have := hs.1
    omega
  rcases hs.2 with hm | hm <;> exact absurd hm.2.2.1 (by decide)

/-- The digest of the one entry of a store. -/
def loneDigest : Bytes := Tree.entryHash sha256 [97] [118]

/-- A peer answers with that digest in the other leaf, and `Diff` finds nothing. -/
theorem diff_misses_moved_digest :
    ofEntries sha256 2 [([97], [118])] = some (twoLeaves loneDigest []) ∧
      decode (putUint32 2 ++ Tree.encodeLeaf [] ++ Tree.encodeLeaf loneDigest) =
        .ok (twoLeaves [] loneDigest) ∧
      CollisionFree sha256 (twoLeaves loneDigest []) (twoLeaves [] loneDigest) ∧
      (twoLeaves loneDigest []).diff sha256 (twoLeaves [] loneDigest) = some [] ∧
      ¬ NamesDiffering sha256 1 (twoLeaves loneDigest []) (twoLeaves [] loneDigest) := by
  have hdiff : (twoLeaves loneDigest []).diff sha256 (twoLeaves [] loneDigest) = some [] := by
    decide +kernel
  refine ⟨by decide +kernel, by decide +kernel, collisionFree_twoLeaves fun _ => by simp, hdiff, ?_⟩
  rintro ⟨ds, hds, -, hmem⟩
  rw [hdiff] at hds
  obtain rfl : ds = [] := by simpa using hds.symm
  have hne : leaf 1 (twoLeaves loneDigest []) 0 ≠ leaf 1 (twoLeaves [] loneDigest) 0 := by
    intro heq
    have hlen := congrArg List.length heq
    rw [show leaf 1 (twoLeaves loneDigest []) 0 = loneDigest from rfl, loneDigest,
      length_entryHash] at hlen
    exact absurd hlen (by decide)
  exact List.not_mem_nil ((hmem 0).mpr ⟨by norm_num, hne⟩)

end Kyria.Merkle
