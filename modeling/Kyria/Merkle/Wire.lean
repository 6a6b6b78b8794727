import Kyria.Merkle

/-!
Trees that come over the wire (`Tree.Encode`, `Decode`).

A tree is determined by the entries that were added, and what a peer makes of its encoding
compares like the tree itself. Other bytes decode to an error or to a tree on which all
operations stay inside of the array, except for two leaf counts: no leaf at all, and one so
large that the number of slots overflows.
-/

namespace Kyria.Merkle

open Kyria.Lib.Cursor Kyria.Lib.HashTree Kyria.Binenc Kyria.Sha256

variable {k n : ℕ} {t o : Tree} {H : Hash}

/-! ### What a tree depends on -/

lemma Rooted.node_eq {t' o' : Tree} (ht' : Rooted H n t t') (ho' : Rooted H n o o')
    (hleaf : ∀ i, n ≤ i → i < 2 * n → t.node i = o.node i) :
    ∀ i, 1 ≤ i → i < 2 * n → t'.node i = o'.node i := by
  refine ht'.built.eq_of_leaves ho'.built fun i hin hlt => ?_
  rw [ht'.same i (.inr hin), ho'.same i (.inr hin), hleaf i hin hlt]

lemma Rooted.idempotent {t' : Tree} (ht' : Rooted H n t t') :
    t'.root H = some (t'.node 1, t') := by
  obtain ⟨t'', ht''⟩ := root_spec H ht'.heap
  have hnode : ∀ i, t''.node i = t'.node i := by
    intro i
    by_cases hi : i = 0 ∨ n ≤ i
    · exact ht''.same i hi
    · exact ht''.built.eq_of_leaves ht'.built (fun j hj _ => ht''.same j (.inr hj)) i
        (by omega) (by omega)
  obtain rfl := ht''.heap.ext ht'.heap hnode
  exact ht''.root

/-- **`Diff` reads nothing but the leaves** of the other tree. -/
lemma diff_congr {m : ℕ} {l : Tree} (hl : Heap m l) (h : Heap n t) (ho : Heap n o)
    (hleaf : ∀ i, n ≤ i → i < 2 * n → t.node i = o.node i) :
    ∃ ds, l.diff H t = some ds ∧ l.diff H o = some ds := by
  by_cases hmn : m = n
  · subst hmn
    obtain ⟨l', hl'⟩ := root_spec H hl
    obtain ⟨t', ht'⟩ := root_spec H h
    obtain ⟨o', ho'⟩ := root_spec H ho
    have hpos := hl.pos
    refine ⟨_, diff_eq hl h hl' ht', ?_⟩
    rw [diff_eq hl ho hl' ho', walk_congr (fun i _ _ => rfl)
      (fun i h1 hi => (ht'.node_eq ho' hleaf i h1 hi).symm) _ le_rfl (by omega)]
  · have hne : ∀ x : Tree, Heap n x → l.diff H x = some [] := by
      intro x hx
      refine if_pos ?_
      rw [hl.leafCount, hx.leafCount]
      exact_mod_cast hmn
    exact ⟨[], hne t h, hne o ho⟩

/-- **The order of the entries does not matter.** -/
lemma ofEntries_perm {leaves : ℤ} (hl : leaves ≤ 2 ^ 42) {entries entries' : List (Bytes × Bytes)}
    (hperm : entries.Perm entries') : ofEntries H leaves entries = ofEntries H leaves entries' := by
  obtain ⟨t, ht, hp, hnode, -, hleaf⟩ := ofEntries_spec (H := H) hl entries
  obtain ⟨o, ho, hp', hnode', -, hleaf'⟩ := ofEntries_spec (H := H) hl entries'
  have heq : t = o := by
    refine hp.heap.ext hp'.heap fun i => ?_
    by_cases hi : i < 2 ^ depth leaves
    · rw [hnode i hi, hnode' i hi]
    · have hbucket : ∀ x : Tree, x.node i = leaf (depth leaves) x (i - 2 ^ depth leaves) := by
        intro x
        rw [leaf, Tree.node, show 2 ^ depth leaves + (i - 2 ^ depth leaves) = i by omega]
      rw [hbucket t, hbucket o, hleaf, hleaf']
      exact bucketLeaf_congr (hperm.filter _) []
  rw [ht, ho, heq]

/-! ### Sending a tree -/

/-- `peer` is sent to the owner of `own`, who gets its leaves and finds the same differences. -/
def Survives (H : Hash) (own peer : Tree) : Prop :=
  ∃ b decoded, peer.encode = some b ∧ decode b = .ok decoded ∧
    decoded.leafCount = peer.leafCount ∧
    (∃ leaves, peer.leaves = some leaves ∧ decoded.leaves = some leaves) ∧
    ∃ diffs, own.diff H peer = some diffs ∧ own.diff H decoded = some diffs

lemma Perfect.survives (h : Perfect k t) (hk : k ≤ 30) (hd : ∀ i, IsDigest (leaf k t i))
    (ho : Heap n o) : Survives H o t := by
  have hlen : ∀ i < 2 ^ k, (leaf k t i).length < 2 ^ 32 := by
    intro i _
    rcases hd i with h0 | h32
    · simp [h0]
    · omega
  obtain ⟨b, t', hb, hdec, h', hleaf⟩ := decode_encode h hk hlen
  refine ⟨b, t', hb, hdec, h'.leafCount.trans h.leafCount.symm, ⟨_, leaves_eq h, ?_⟩, ?_⟩
  · rw [leaves_eq h', leafList, leafList]
    refine congrArg some (List.map_congr_left fun i hi => ?_)
    exact hleaf i (List.mem_range.mp hi)
  · refine diff_congr ho h.heap h'.heap fun i hin hlt => ?_
    have := hleaf (i - 2 ^ k) (by omega)
    rwa [leaf, leaf, show 2 ^ k + (i - 2 ^ k) = i by omega, eq_comm] at this

/-- **A tree depends on the set of its entries and survives the wire.** The entries in another
order give the same tree; a second `Root` changes nothing; and a tree that is sent compares with
every other one as it did before. -/
theorem built_tree_survives_wire (H : Hash) {leaves leaves' : ℤ} (hl : leaves ≤ 2 ^ 30)
    (hl' : leaves' ≤ 2 ^ 30) {entries reordered : List (Bytes × Bytes)}
    (hperm : entries.Perm reordered) (entries' : List (Bytes × Bytes)) :
    ∃ own peer, ofEntries H leaves entries = some own ∧ ofEntries H leaves reordered = some own ∧
      ofEntries H leaves' entries' = some peer ∧
      (∃ ls, own.leaves = some ls) ∧ (∃ b, own.encode = some b) ∧
      (∃ r built, own.root H = some (r, built) ∧ built.root H = some (r, built)) ∧
      Survives H own peer := by
  obtain ⟨own, hown, hp, -⟩ := ofEntries_spec (H := H) (hl.trans (by norm_num)) entries
  obtain ⟨peer, hpeer, hp', -, hd', -⟩ := ofEntries_spec (H := H) (hl'.trans (by norm_num)) entries'
  obtain ⟨built, hbuilt⟩ := root_spec H hp.heap
  refine ⟨own, peer, hown, ?_, hpeer, ⟨_, leaves_eq hp⟩, hp.heap.exists_encode,
    ⟨_, built, hbuilt.root, hbuilt.idempotent⟩, hp'.survives (depth_le hl') hd' hp.heap⟩
  rw [← ofEntries_perm (hl.trans (by norm_num)) hperm, hown]

theorem built_tree_survives_wire_of_two :
    ∃ own peer, ofEntries sha256 3 [([97], [1]), ([98], [2])] = some own ∧
      ofEntries sha256 3 [([98], [2]), ([97], [1])] = some own ∧
      ofEntries sha256 4 [([97], [1])] = some peer ∧ Survives sha256 own peer := by
  obtain ⟨own, peer, hown, hswap, hpeer, -, -, -, hsurvives⟩ :=
    built_tree_survives_wire sha256 (show (3 : ℤ) ≤ 2 ^ 30 by norm_num)
      (show (4 : ℤ) ≤ 2 ^ 30 by norm_num)
      (List.Perm.swap ([98], [2]) ([97], [1]) []) [([97], [1])]
  exact ⟨own, peer, hown, hswap, hpeer, hsurvives⟩

/-! ### Bytes from anywhere -/

/-- The operations on the tree, alone or with another one, stay inside of the arrays. -/
structure Usable (H : Hash) (t : Tree) : Prop where
  pos : 1 ≤ t.leafCount
  slots : (t.nodes.length : ℤ) = 2 * t.leafCount
  root : ∃ r, t.root H = some r
  diff : ∀ n o, Heap n o → (∃ ds, t.diff H o = some ds) ∧ ∃ ds, o.diff H t = some ds
  encode : ∃ b, t.encode = some b

/-- Decoding fails in an orderly way or gives a tree that can be used. -/
def DecodesSafely (H : Hash) (b : Bytes) : Prop :=
  decode b = .error .errMalformed ∨ ∃ t, decode b = .ok t ∧ Usable H t

lemma Heap.usable (h : Heap n t) : Usable H t where
  pos := by
    rw [h.leafCount]
    exact_mod_cast h.pos
  slots := by
    rw [h.slots, h.leafCount]
    push_cast
    rfl
  root := by
    obtain ⟨t', ht'⟩ := root_spec H h
    exact ⟨_, ht'.root⟩
  diff n' o ho := by
    obtain ⟨ds, hds, -⟩ := diff_congr (H := H) h ho ho fun _ _ _ => rfl
    obtain ⟨ds', hds', -⟩ := diff_congr (H := H) ho h h fun _ _ _ => rfl
    exact ⟨⟨ds, hds⟩, ds', hds'⟩
  encode := h.exists_encode

lemma yields_decodeStep {c : UInt32} (hc : c.toNat < 2 ^ 31) {j : ℕ} (hj : j < c.toNat)
    {s : UInt32 × Tree} (hs : Heap c.toNat s.2 ∧ s.1.toNat = j) :
    Yields (decodeStep c s) (· = .errMalformed)
      fun s' => Heap c.toNat s'.2 ∧ s'.1.toNat = j + 1 := by
  refine (Yields.mapError decodeLeaf _).bind fun leaf _ => ?_
  have hidx : (c + s.1).toNat = c.toNat + j := by
    rw [UInt32.toNat_add, hs.2]
    exact Nat.mod_eq_of_lt (by omega)
  have hnext : (s.1 + 1).toNat = j + 1 := by rw [toNat_succ (by omega), hs.2]
  rw [hidx, hs.1.put (by omega)]
  exact Yields.pure ⟨hs.1.set _ _, hnext⟩

/-- The empty tree that `Decode` begins with. -/
def blank (c : UInt32) : Tree := ⟨c.toNat, List.replicate (c * 2).toNat []⟩

lemma decode_of_error {b : Bytes} {e : Malformed} (h : uint32 b 0 = .error e) :
    decode b = .error .errMalformed := by
  simp only [decode, decodeTree, Bind.bind, Reader.mapError, h]
  rfl

lemma decode_of_ok {b : Bytes} {c : UInt32} {off : ℕ} (h : uint32 b 0 = .ok (c, off)) :
    decode b =
      (Reader.loop (decodeStep c) c.toNat (0, blank c) b off).map fun s => s.1.2 := by
  simp only [decode, decodeTree, Bind.bind, Reader.mapError, h, Except.mapError, blank]
  rcases Reader.loop (decodeStep c) c.toNat (0, _) b off with e | ⟨s, off'⟩ <;> rfl

lemma heap_blank {c : UInt32} (h0 : c ≠ 0) (hc : c.toNat < 2 ^ 31) : Heap c.toNat (blank c) := by
  have hpos : c.toNat ≠ 0 := fun h => h0 (UInt32.toNat_inj.mp h)
  refine ⟨by omega, rfl, ?_⟩
  rw [blank, List.length_replicate, UInt32.toNat_mul, mul_comm]
  exact Nat.mod_eq_of_lt (by simp; omega)

lemma decodesSafely_of_lt {b : Bytes} {c : UInt32} {off : ℕ} (h : uint32 b 0 = .ok (c, off))
    (h0 : c ≠ 0) (hc : c.toNat < 2 ^ 31) : DecodesSafely H b := by
  have hloop := Yields.loop (P := fun j (s : UInt32 × Tree) => Heap c.toNat s.2 ∧ s.1.toNat = j)
    (fun j hj s hs => yields_decodeStep hc hj hs) (Nat.zero_add c.toNat)
    (s := (0, blank c)) ⟨heap_blank h0 hc, rfl⟩
  rw [DecodesSafely, decode_of_ok h]
  rcases hloop b off with ⟨e, he, rfl⟩ | ⟨s, off', hs, hheap, -⟩
  · exact .inl (by rw [he]; rfl)
  · exact .inr ⟨s.2, by rw [hs]; rfl, hheap.usable⟩

lemma decode_of_ge {b : Bytes} {c : UInt32} {off : ℕ} (h : uint32 b 0 = .ok (c, off))
    (hc : 2 ^ 31 ≤ c.toNat) :
    decode b = match decodeLeaf b off with
      | .error _ => .error .errMalformed
      | .ok _ => .error .indexOutOfRange := by
  obtain ⟨m, hm⟩ : ∃ m, c.toNat = m + 1 := ⟨c.toNat - 1, by omega⟩
  have hput : ∀ leaf, (blank c).put (c + 0).toNat leaf = none := by
    intro leaf
    have hslots : (c * 2).toNat = 2 * c.toNat - 2 ^ 32 := by
      have := c.toNat_lt
      rw [UInt32.toNat_mul, mul_comm]
      simp only [UInt32.reduceToNat]
      omega
    refine if_pos (.inr ?_)
    have := c.toNat_lt
    simp only [blank, List.length_replicate, hslots, Int.toNat_natCast, UInt32.add_zero]
    omega
  rw [decode_of_ok h, hm, Reader.loop]
  simp only [decodeStep, Bind.bind, Reader.mapError]
  rcases decodeLeaf b off with e | ⟨leaf, off'⟩
  · rfl
  · simp only [Except.mapError, hput]
    rfl

/-- **Decoding is safe exactly if** the leaf count, where there is one, is positive and below
`2 ^ 31`, or else no leaf can be read. -/
theorem decodes_safely_iff (H : Hash) (b : Bytes) :
    DecodesSafely H b ↔ ∀ c off, uint32 b 0 = .ok (c, off) →
      c ≠ 0 ∧ (c.toNat < 2 ^ 31 ∨ ∃ e, decodeLeaf b off = .error e) := by
  constructor
  · intro hsafe c off h
    have hzero : c ≠ 0 := by
      rintro rfl
      have hdec : decode b = .ok ⟨0, []⟩ := decode_of_ok h
      rw [DecodesSafely, hdec] at hsafe
      rcases hsafe with herr | ⟨t, ht, husable⟩
      · cases herr
      · cases ht
        exact absurd husable.pos (by norm_num)
    refine ⟨hzero, or_iff_not_imp_left.mpr fun hc => ?_⟩
    rw [DecodesSafely, decode_of_ge h (by omega)] at hsafe
    rcases hleaf : decodeLeaf b off with e | x
    · exact ⟨e, rfl⟩
    · rw [hleaf] at hsafe
      rcases hsafe with herr | ⟨t, ht, -⟩
      · cases herr
      · cases ht
  · intro hcond
    rcases h : uint32 b 0 with e | ⟨c, off⟩
    · exact .inl (decode_of_error h)
    obtain ⟨h0, hc⟩ := hcond c off h
    by_cases hlt : c.toNat < 2 ^ 31
    · exact decodesSafely_of_lt h h0 hlt
    · obtain ⟨e, hleaf⟩ := hc.resolve_left hlt
      left
      rw [decode_of_ge h (by omega), hleaf]

/-- No leaf at all gives a tree without a root; `2 ^ 31` leaves need `2 ^ 32` slots, and get
none. -/
theorem decode_is_unsafe :
    (decode [0, 0, 0, 0] = .ok ⟨0, []⟩ ∧ Tree.root sha256 ⟨0, []⟩ = none) ∧
      decode [128, 0, 0, 0, 0, 0, 0, 0] = .error .indexOutOfRange ∧
      ¬ DecodesSafely sha256 [0, 0, 0, 0] ∧ ¬ DecodesSafely sha256 [128, 0, 0, 0, 0, 0, 0, 0] := by
  have hempty : decode [0, 0, 0, 0] = .ok ⟨0, []⟩ := by decide
  have hhuge : decode [128, 0, 0, 0, 0, 0, 0, 0] = .error .indexOutOfRange := by
    have hcount : uint32 [128, 0, 0, 0, 0, 0, 0, 0] 0 = .ok (2147483648, 4) := by decide
    rw [decode_of_ge hcount (by decide)]
    rfl
  refine ⟨⟨hempty, by decide⟩, hhuge, ?_, ?_⟩
  · rintro (herr | ⟨t, ht, husable⟩)
    · rw [hempty] at herr
      cases herr
    · rw [hempty] at ht
      cases ht
      exact absurd husable.pos (by norm_num)
  · rintro (herr | ⟨t, ht, -⟩)
    · rw [hhuge] at herr
      cases herr
    · rw [hhuge] at ht
      cases ht

end Kyria.Merkle
