import Kyria.Binenc
import Kyria.Lib.HashTree
import Kyria.Sha256

/-!
The Merkle tree two replicas compare their stores by (`internal/merkle`).

The tree is a heap in one array. An array that is too large to make and an index outside of the
array are run-time panics: the operations return `none` then. For a leaf count up to `2 ^ 42`
`New` builds a tree, and on this tree, filled by `Add`, they never do; nor on what is read back
from the wire up to `2 ^ 30`.
-/

namespace Kyria.Merkle

open Kyria.Lib.Cursor Kyria.Lib.HashTree Kyria.Binenc Kyria.Sha256

/-- An `int`, after an operation that may overflow. -/
def wrap (n : ℤ) : ℤ := n.bmod (2 ^ 64)

/-- A slot that was never set is empty. -/
structure Tree where
  leafCount : ℤ
  nodes : List Bytes
  deriving DecidableEq

def nextPowerOfTwo (n : ℤ) : ℤ :=
  if n ≤ 1 then 1 else wrap (2 ^ ((n - 1).toNat.log2 + 1))

/-- The longest `[][]byte` that `make` accepts: an element takes 24 bytes, and the addresses of a
64-bit machine have 48 bits. -/
def maxSlots : ℤ := 2 ^ 48 / 24

def new (leaves : ℤ) : Option Tree :=
  let leafCount := nextPowerOfTwo leaves
  let slots := wrap (leafCount * 2)
  if slots < 0 ∨ maxSlots < slots then none
  else some { leafCount, nodes := List.replicate slots.toNat [] }

namespace Tree

def at? (t : Tree) (i : ℤ) : Option Bytes := if i < 0 then none else t.nodes[i.toNat]?

def put (t : Tree) (i : ℤ) (b : Bytes) : Option Tree :=
  if i < 0 ∨ t.nodes.length ≤ i.toNat then none
  else some { t with nodes := t.nodes.set i.toNat b }

/-- The leaf a key belongs to: the low bits of the first eight bytes of its hash. -/
def bucket (H : Hash) (t : Tree) (key : Bytes) : ℤ :=
  wrap (ofBigEndian ((H.sum key).take 8) &&& ((t.leafCount - 1) % 2 ^ 64).toNat : ℕ)

def entryHash (H : Hash) (key blob : Bytes) : Bytes := H.sum (H.sum key ++ blob)

/-- Folds an entry into its leaf. -/
def add (H : Hash) (t : Tree) (key blob : Bytes) : Option Tree := do
  let leafIndex := wrap (t.leafCount + bucket H t key)
  let leaf ← t.at? leafIndex
  let leaf := if leaf = [] then List.replicate 32 0 else leaf
  if leaf.length < 32 then none
  else t.put leafIndex (leaf.zipWith (· ^^^ ·) (entryHash H key blob) ++ leaf.drop 32)

/-- The loop of `Root`, from node `i` down to node 1. -/
def rootLoop (H : Hash) : ℕ → Tree → Option Tree
  | 0, t => some t
  | i + 1, t => do
    let left ← t.at? (2 * (i + 1))
    let right ← t.at? (2 * (i + 1) + 1)
    let t ← t.put (i + 1) (H.sum (left ++ right))
    rootLoop H i t

/-- The root hash, and the tree with its internal nodes built. -/
def root (H : Hash) (t : Tree) : Option (Bytes × Tree) := do
  let t ← rootLoop H (t.leafCount - 1).toNat t
  let r ← t.at? 1
  return (r, t)

/-- The depth of the recursion is bounded by `fuel`. -/
def collect (t other : Tree) : ℕ → ℤ → Option (List ℤ)
  | 0, _ => none
  | fuel + 1, start => do
    let a ← t.at? start
    let b ← other.at? start
    if a = b then return []
    else if start ≥ t.leafCount then return [start - t.leafCount]
    else
      let left ← collect t other fuel (2 * start)
      let right ← collect t other fuel (2 * start + 1)
      return left ++ right

/-- The numbers of the buckets that differ. -/
def diff (H : Hash) (t other : Tree) : Option (List ℤ) :=
  if t.leafCount ≠ other.leafCount then some []
  else do
    let (_, t) ← t.root H
    let (_, other) ← other.root H
    collect t other (t.leafCount.toNat + 1) 1

/-- The leaf slots, in order. -/
def leaves (t : Tree) : Option (List Bytes) :=
  if t.leafCount < 0 then none
  else (List.range t.leafCount.toNat).mapM fun l : ℕ => t.at? (t.leafCount + l)

def encodeLeaf (leaf : Bytes) : Bytes := putUint32 (UInt32.ofNat leaf.length) ++ leaf

def encode (t : Tree) : Option Bytes := do
  let leaves ← t.leaves
  return putUint32 (UInt32.ofNat (t.leafCount % 2 ^ 32).toNat) ++ leaves.flatMap encodeLeaf

end Tree

/-- How decoding a tree fails. -/
inductive Fault
  | errMalformed
  | indexOutOfRange
  deriving DecidableEq

def decodeLeaf : Reader Malformed Bytes := do
  let leafSize ← uint32
  if leafSize = 0 then return [] else bytes leafSize.toNat

/-- One round of the loop of `Decode`, with the number of the leaf. -/
def decodeStep (leafCount : UInt32) (s : UInt32 × Tree) : Reader Fault (UInt32 × Tree) := do
  let leaf ← decodeLeaf.mapError fun _ => Fault.errMalformed
  match s.2.put (leafCount + s.1).toNat leaf with
  | none => Reader.fail .indexOutOfRange
  | some t => return (s.1 + 1, t)

def decodeTree : Reader Fault Tree := do
  let leafCount ← uint32.mapError fun _ => Fault.errMalformed
  -- the number of slots is computed in 32 bits
  let tree : Tree :=
    { leafCount := leafCount.toNat, nodes := List.replicate (leafCount * 2).toNat [] }
  let s ← Reader.loop (decodeStep leafCount) leafCount.toNat (0, tree)
  return s.2

def decode (b : Bytes) : Except Fault Tree := (decodeTree b 0).map Prod.fst

/-! ### Heaps -/

/-- The content of a slot. -/
def Tree.node (t : Tree) (i : ℕ) : Bytes := t.nodes.getD i []

/-- What the operations rely on: at least one leaf, and two slots for each. -/
structure Heap (n : ℕ) (t : Tree) : Prop where
  pos : 1 ≤ n
  leafCount : t.leafCount = n
  slots : t.nodes.length = 2 * n

variable {k n : ℕ} {t o : Tree} {H : Hash}

lemma at?_natCast (t : Tree) (n : ℕ) : t.at? n = t.nodes[n]? := by
  simp [Tree.at?, Int.not_ofNat_neg]

lemma Heap.at? (h : Heap n t) {i : ℕ} (hi : i < 2 * n) : t.at? i = some (t.node i) := by
  rw [at?_natCast, Tree.node, List.getD_eq_getElem?_getD,
    List.getElem?_eq_getElem (h.slots ▸ hi), Option.getD_some]

lemma Heap.put (h : Heap n t) {i : ℕ} (hi : i < 2 * n) (b : Bytes) :
    t.put i b = some { t with nodes := t.nodes.set i b } := by
  have hneg : ¬ ((i : ℤ) < 0 ∨ t.nodes.length ≤ (i : ℤ).toNat) := by
    rw [h.slots]
    simp only [Int.toNat_natCast]
    omega
  unfold Tree.put
  rw [if_neg hneg]
  rfl

lemma Heap.set (h : Heap n t) (i : ℕ) (b : Bytes) : Heap n { t with nodes := t.nodes.set i b } :=
  ⟨h.pos, h.leafCount, by simpa using h.slots⟩

lemma Heap.node_set (h : Heap n t) {j : ℕ} (hj : j < 2 * n) (b : Bytes) (i : ℕ) :
    ({ t with nodes := t.nodes.set j b } : Tree).node i = if i = j then b else t.node i := by
  simp only [Tree.node, List.getD_eq_getElem?_getD, List.getElem?_set]
  by_cases hij : i = j
  · rw [if_pos hij.symm, if_pos (by rw [h.slots]; exact hj), if_pos hij, Option.getD_some]
  · rw [if_neg (Ne.symm hij), if_neg hij]

lemma Heap.ext (h : Heap n t) (ho : Heap n o) (hnode : ∀ i, t.node i = o.node i) : t = o := by
  obtain ⟨c, ns⟩ := t
  obtain ⟨c', ns'⟩ := o
  obtain rfl : c = c' := h.leafCount.trans ho.leafCount.symm
  congr 1
  refine List.ext_getElem (h.slots.trans ho.slots.symm) fun i hi hi' => ?_
  have := hnode i
  simp only [Tree.node, List.getD_eq_getElem?_getD, List.getElem?_eq_getElem hi,
    List.getElem?_eq_getElem hi', Option.getD_some] at this
  exact this

/-! ### Perfect trees -/

/-- A heap with `2 ^ k` leaves. -/
structure Perfect (k : ℕ) (t : Tree) : Prop where
  leafCount : t.leafCount = 2 ^ k
  slots : t.nodes.length = 2 ^ (k + 1)

/-- The content of leaf `i` of a perfect tree. -/
def leaf (k : ℕ) (t : Tree) (i : ℕ) : Bytes := t.nodes.getD (2 ^ k + i) []

lemma wrap_of_lt {n : ℤ} (h : 0 ≤ n) (h' : n < 2 ^ 63) : wrap n = n := by
  unfold wrap
  exact Int.bmod_eq_of_le (by norm_num; omega) (by norm_num; omega)

lemma Perfect.leafCount_eq (h : Perfect k t) : t.leafCount = ((2 ^ k : ℕ) : ℤ) := by
  rw [h.leafCount]
  push_cast
  rfl

lemma Perfect.heap (h : Perfect k t) : Heap (2 ^ k) t :=
  ⟨Nat.one_le_two_pow, h.leafCount_eq, h.slots.trans (pow_succ' 2 k)⟩

lemma Perfect.of_heap (h : Heap (2 ^ k) t) : Perfect k t :=
  ⟨by rw [h.leafCount]; push_cast; rfl, h.slots.trans (pow_succ' 2 k).symm⟩

lemma Perfect.set (h : Perfect k t) (n : ℕ) (b : Bytes) :
    Perfect k { t with nodes := t.nodes.set n b } :=
  .of_heap (h.heap.set n b)

lemma leaf_set (h : Perfect k t) {j : ℕ} (hj : j < 2 ^ k) (b : Bytes) (i : ℕ) :
    leaf k { t with nodes := t.nodes.set (2 ^ k + j) b } i = if i = j then b else leaf k t i := by
  have hset := h.heap.node_set (j := 2 ^ k + j) (by omega) b (2 ^ k + i)
  simp only [Nat.add_left_cancel_iff] at hset
  exact hset

/-- The depth of the tree `New` builds. -/
def depth (leaves : ℤ) : ℕ := if leaves ≤ 1 then 0 else (leaves - 1).toNat.log2 + 1

lemma depth_le {leaves : ℤ} {k : ℕ} (h : leaves ≤ 2 ^ k) : depth leaves ≤ k := by
  unfold depth
  split_ifs with h1
  · exact Nat.zero_le k
  · refine (Nat.log2_lt (by omega)).mpr ?_
    have hcast : ((2 ^ k : ℕ) : ℤ) = 2 ^ k := by push_cast; rfl
    omega

/-- **`New` builds an empty perfect tree.** -/
theorem new_spec {leaves : ℤ} (h : leaves ≤ 2 ^ 42) :
    ∃ t, new leaves = some t ∧ Perfect (depth leaves) t ∧ ∀ i, t.node i = [] := by
  have hk := depth_le h
  have hpow : (2 : ℤ) ^ depth leaves ≤ 2 ^ 42 := pow_le_pow_right₀ (by norm_num) hk
  have hpos : (0 : ℤ) < 2 ^ depth leaves := by positivity
  have hcount : nextPowerOfTwo leaves = 2 ^ depth leaves := by
    unfold nextPowerOfTwo depth at *
    split_ifs at * with h1
    · rfl
    · exact wrap_of_lt hpos.le (by omega)
  have hslots : wrap (2 ^ depth leaves * 2) = 2 ^ depth leaves * 2 :=
    wrap_of_lt (by omega) (by omega)
  have hlen : (2 ^ depth leaves * 2 : ℤ).toNat = 2 ^ (depth leaves + 1) := by
    rw [pow_succ]
    have : ((2 ^ depth leaves * 2 : ℕ) : ℤ) = 2 ^ depth leaves * 2 := by push_cast; rfl
    rw [← this, Int.toNat_natCast]
  refine ⟨⟨2 ^ depth leaves, List.replicate (2 ^ (depth leaves + 1)) []⟩, ?_, ⟨rfl, by simp⟩, ?_⟩
  · unfold new
    simp only [hcount, hslots, hlen]
    rw [if_neg (by simp only [maxSlots]; omega)]
  · intro i
    simp only [Tree.node, List.getD_eq_getElem?_getD, List.getElem?_replicate]
    split_ifs <;> rfl

/-! ### Filling a tree -/

/-- The bucket of a key among `2 ^ k`. -/
def bucketOf (H : Hash) (k : ℕ) (key : Bytes) : ℕ := ofBigEndian ((H.sum key).take 8) % 2 ^ k

lemma bucketOf_lt (H : Hash) (k : ℕ) (key : Bytes) : bucketOf H k key < 2 ^ k :=
  Nat.mod_lt _ (by positivity)

lemma Perfect.bucket (h : Perfect k t) (hk : k ≤ 61) (key : Bytes) :
    t.bucket H key = bucketOf H k key := by
  have hpow : 2 ^ k ≤ 2 ^ 61 := Nat.pow_le_pow_right (by norm_num) hk
  have hmask : ((t.leafCount - 1) % 2 ^ 64).toNat = 2 ^ k - 1 := by
    have hpos : 1 ≤ 2 ^ k := Nat.one_le_two_pow
    rw [h.leafCount_eq]
    omega
  have hlt := bucketOf_lt H k key
  unfold Tree.bucket
  rw [hmask, Nat.and_two_pow_sub_one_eq_mod]
  exact wrap_of_lt (by positivity) (by unfold bucketOf at hlt; omega)

/-- What `Add` makes of a leaf. -/
def mix (leaf h : Bytes) : Bytes :=
  (if leaf = [] then List.replicate 32 0 else leaf).zipWith (· ^^^ ·) h

/-- A leaf that `Add` has written, or has not. -/
def IsDigest (b : Bytes) : Prop := b = [] ∨ b.length = 32

lemma length_mix {leaf h : Bytes} (hl : IsDigest leaf) (hh : h.length = 32) :
    (mix leaf h).length = 32 := by
  rcases hl with rfl | hl
  · simp [mix, hh]
  · have hne : leaf ≠ [] := by
      rintro rfl
      simp at hl
    simp [mix, hne, hl, hh]

lemma mix_comm (leaf : Bytes) {x y : Bytes} (hx : x.length = 32) (hy : y.length = 32) :
    mix (mix leaf x) y = mix (mix leaf y) x := by
  obtain ⟨l, hne, hl⟩ : ∃ l : Bytes, l ≠ [] ∧ ∀ h, mix leaf h = l.zipWith (· ^^^ ·) h := by
    by_cases h0 : leaf = []
    · exact ⟨List.replicate 32 0, by simp, fun h => by simp [mix, h0]⟩
    · exact ⟨leaf, h0, fun h => by simp [mix, h0]⟩
  have hmix : ∀ x y : Bytes, x.length = 32 →
      mix (mix leaf x) y = (l.zipWith (· ^^^ ·) x).zipWith (· ^^^ ·) y := by
    intro x y hx
    have hz : l.zipWith (· ^^^ ·) x ≠ [] := by
      rw [← List.length_pos_iff]
      simpa [hx] using List.length_pos_iff.mpr hne
    rw [hl x, mix, if_neg hz]
  rw [hmix x y hx, hmix y x hy]
  refine List.ext_getElem (by simp [hx, hy]) fun i _ _ => ?_
  simp only [List.getElem_zipWith, UInt8.xor_assoc]
  congr 1
  exact UInt8.xor_comm _ _

lemma length_entryHash (H : Hash) (key blob : Bytes) : (Tree.entryHash H key blob).length = 32 :=
  H.length_sum _

/-- **`Add` changes the leaf of the key's bucket, and no other.** -/
lemma add_spec (h : Perfect k t) (hk : k ≤ 61) (hd : ∀ i, IsDigest (leaf k t i))
    (key blob : Bytes) :
    ∃ t', t.add H key blob = some t' ∧ Perfect k t' ∧ (∀ i < 2 ^ k, t'.node i = t.node i) ∧
      ∀ i, leaf k t' i = if i = bucketOf H k key then mix (leaf k t i) (Tree.entryHash H key blob)
        else leaf k t i := by
  have hpow : 2 ^ k ≤ 2 ^ 61 := Nat.pow_le_pow_right (by norm_num) hk
  have hb := bucketOf_lt H k key
  have hslot : 2 ^ k + bucketOf H k key < 2 * 2 ^ k := by omega
  have hidx : wrap (t.leafCount + t.bucket H key) = ((2 ^ k + bucketOf H k key : ℕ) : ℤ) := by
    rw [h.leafCount, h.bucket hk]
    push_cast
    exact wrap_of_lt (by positivity) (by
      have : ((2 ^ k + bucketOf H k key : ℕ) : ℤ) < 2 ^ 63 := by omega
      push_cast at this
      exact this)
  have hat : t.at? ((2 ^ k + bucketOf H k key : ℕ) : ℤ) = some (leaf k t (bucketOf H k key)) :=
    h.heap.at? hslot
  have hold := hd (bucketOf H k key)
  have hlen : (if leaf k t (bucketOf H k key) = [] then List.replicate 32 0
      else leaf k t (bucketOf H k key)).length = 32 := by
    rcases hold with h0 | h32
    · simp [h0]
    · split_ifs with h0
      · simp [h0] at h32
      · exact h32
  refine ⟨_, ?_, h.set (2 ^ k + bucketOf H k key) (mix (leaf k t (bucketOf H k key))
    (Tree.entryHash H key blob)), fun i hi => ?_, fun i => ?_⟩
  · unfold Tree.add
    simp only [hidx, hat, Option.bind_eq_bind, Option.bind_some]
    rw [hlen, if_neg (by omega), List.drop_eq_nil_of_le hlen.le, List.append_nil, h.heap.put hslot]
    rfl
  · rw [h.heap.node_set hslot, if_neg (by omega)]
  · rw [leaf_set h hb]
    split_ifs with hi
    · rw [hi]
    · rfl

/-- The entries added one after the other, as `Range` hands them out. -/
def fill (H : Hash) (t : Tree) (entries : List (Bytes × Bytes)) : Option Tree :=
  entries.foldlM (fun t e => t.add H e.1 e.2) t

/-- What the entries of bucket `i` leave in its leaf. -/
def bucketLeaf (H : Hash) (k : ℕ) (entries : List (Bytes × Bytes)) (i : ℕ) (init : Bytes) : Bytes :=
  (entries.filter fun e => bucketOf H k e.1 = i).foldl
    (fun l e => mix l (Tree.entryHash H e.1 e.2)) init

lemma isDigest_mix {l h : Bytes} (hl : IsDigest l) (hh : h.length = 32) : IsDigest (mix l h) :=
  .inr (length_mix hl hh)

/-- **A filled tree**: every leaf is the mix of the entries in its bucket. -/
theorem fill_spec (h : Perfect k t) (hk : k ≤ 61) (hd : ∀ i, IsDigest (leaf k t i))
    (entries : List (Bytes × Bytes)) :
    ∃ t', fill H t entries = some t' ∧ Perfect k t' ∧ (∀ i < 2 ^ k, t'.node i = t.node i) ∧
      (∀ i, IsDigest (leaf k t' i)) ∧
      ∀ i, leaf k t' i = bucketLeaf H k entries i (leaf k t i) := by
  induction entries generalizing t with
  | nil => exact ⟨t, rfl, h, fun _ _ => rfl, hd, fun i => rfl⟩
  | cons e entries ih =>
    obtain ⟨t₁, hadd, h₁, hnode₁, hleaf₁⟩ := add_spec (H := H) h hk hd e.1 e.2
    have hd₁ : ∀ i, IsDigest (leaf k t₁ i) := by
      intro i
      rw [hleaf₁]
      split_ifs
      · exact isDigest_mix (hd i) (length_entryHash H _ _)
      · exact hd i
    obtain ⟨t', hfill, h', hnode', hd', hleaf'⟩ := ih h₁ hd₁
    refine ⟨t', ?_, h', fun i hi => (hnode' i hi).trans (hnode₁ i hi), hd', fun i => ?_⟩
    · rw [fill, List.foldlM_cons, hadd]
      exact hfill
    · rw [hleaf', hleaf₁, bucketLeaf, bucketLeaf, List.filter_cons]
      by_cases hi : i = bucketOf H k e.1
      · rw [if_pos hi, if_pos (by simp [hi]), List.foldl_cons]
      · rw [if_neg hi, if_neg (by simpa using Ne.symm hi)]

lemma bucketLeaf_congr {entries entries' : List (Bytes × Bytes)} {i : ℕ}
    (h : (entries.filter fun e => bucketOf H k e.1 = i).Perm
      (entries'.filter fun e => bucketOf H k e.1 = i)) (init : Bytes) :
    bucketLeaf H k entries i init = bucketLeaf H k entries' i init := by
  refine h.foldl_eq' (fun x _ y _ z => ?_) init
  exact mix_comm z (length_entryHash H _ _) (length_entryHash H _ _)

/-- A new tree with the entries added. -/
def ofEntries (H : Hash) (leaves : ℤ) (entries : List (Bytes × Bytes)) : Option Tree := do
  let t ← new leaves
  fill H t entries

theorem ofEntries_spec {leaves : ℤ} (hl : leaves ≤ 2 ^ 42) (entries : List (Bytes × Bytes)) :
    ∃ t, ofEntries H leaves entries = some t ∧ Perfect (depth leaves) t ∧
      (∀ i < 2 ^ depth leaves, t.node i = []) ∧ (∀ i, IsDigest (leaf (depth leaves) t i)) ∧
      ∀ i, leaf (depth leaves) t i = bucketLeaf H (depth leaves) entries i [] := by
  obtain ⟨t₀, hnew, hperf, hempty⟩ := new_spec hl
  have hleaf₀ : ∀ i, leaf (depth leaves) t₀ i = [] := fun i => hempty _
  obtain ⟨t, hfill, hperf', hnode, hdig, hleaf⟩ := fill_spec (H := H) hperf
    ((depth_le hl).trans (by norm_num)) (fun i => .inl (hleaf₀ i)) entries
  refine ⟨t, ?_, hperf', fun i hi => (hnode i hi).trans (hempty i), hdig, fun i => ?_⟩
  · unfold ofEntries
    rw [hnew]
    exact hfill
  · rw [hleaf, hleaf₀]

/-! ### Comparing two trees -/

/-- The internal nodes are the hashes of their children. -/
abbrev Built (H : Hash) (n : ℕ) (t : Tree) : Prop :=
  Labelled (fun left right => H.sum (left ++ right)) n t.node

lemma rootLoop_spec (h : Heap n t) {m : ℕ} (hm : m < n) :
    ∃ t', t.rootLoop H m = some t' ∧ Heap n t' ∧
      (∀ i, i = 0 ∨ m < i → t'.node i = t.node i) ∧
      ∀ i, 1 ≤ i → i ≤ m → t'.node i = H.sum (t'.node (2 * i) ++ t'.node (2 * i + 1)) := by
  induction m generalizing t with
  | zero => exact ⟨t, rfl, h, fun _ _ => rfl, fun i h1 h0 => by omega⟩
  | succ m ih =>
    have hleft : t.at? (2 * ((m : ℤ) + 1)) = some (t.node (2 * (m + 1))) := by
      exact_mod_cast h.at? (i := 2 * (m + 1)) (by omega)
    have hright : t.at? (2 * ((m : ℤ) + 1) + 1) = some (t.node (2 * (m + 1) + 1)) := by
      exact_mod_cast h.at? (i := 2 * (m + 1) + 1) (by omega)
    set b := H.sum (t.node (2 * (m + 1)) ++ t.node (2 * (m + 1) + 1)) with hb
    have hput := h.put (i := m + 1) (by omega) b
    have hnode := h.node_set (j := m + 1) (by omega) b
    obtain ⟨t', hloop, h', hsame, hbuilt⟩ := ih (h.set (m + 1) b) (by omega)
    refine ⟨t', ?_, h', fun i hi => ?_, fun i h1 hi => ?_⟩
    · push_cast at hput
      simp only [Tree.rootLoop, hleft, hright, ← hb, hput, Option.bind_eq_bind, Option.bind_some]
      exact hloop
    · rw [hsame i (by omega), hnode, if_neg (by omega)]
    · rcases Nat.le_succ_iff.mp hi with hle | rfl
      · exact hbuilt i h1 hle
      · -- the children are not touched any more
        rw [hsame _ (by omega), hsame _ (by omega), hsame _ (by omega), hnode, hnode, hnode,
          if_pos rfl, if_neg (by omega), if_neg (by omega)]

/-- What `Root` makes of a tree. -/
structure Rooted (H : Hash) (n : ℕ) (t t' : Tree) : Prop where
  root : t.root H = some (t'.node 1, t')
  heap : Heap n t'
  built : Built H n t'
  same : ∀ i, i = 0 ∨ n ≤ i → t'.node i = t.node i

lemma root_spec (H : Hash) (h : Heap n t) : ∃ t', Rooted H n t t' := by
  have hpos := h.pos
  have hn : (t.leafCount - 1).toNat = n - 1 := by
    rw [h.leafCount]
    omega
  obtain ⟨t', hloop, h', hsame, hbuilt⟩ := rootLoop_spec (H := H) h (m := n - 1) (by omega)
  have hone : t'.at? 1 = some (t'.node 1) := h'.at? (i := 1) (by omega)
  refine ⟨t', ?_, h', fun i h1 hi => hbuilt i h1 (by omega), fun i hi => hsame i (by omega)⟩
  simp only [Tree.root, hn, hloop, hone, Option.bind_eq_bind, Option.bind_some]
  rfl

lemma collect_of_leaf (h : Heap n t) (ho : Heap n o) (fuel : ℕ) {i : ℕ} (hin : n ≤ i)
    (hlt : i < 2 * n) :
    t.collect o (fuel + 1) i = some ((walk t.node o.node n (fuel + 1) i).map Nat.cast) := by
  rw [Tree.collect, walk_of_leaf fuel hin]
  simp only [h.at? hlt, ho.at? hlt, Option.bind_eq_bind, Option.bind_some]
  rw [if_pos (show (i : ℤ) ≥ t.leafCount by rw [h.leafCount]; omega), h.leafCount]
  split_ifs
  · rfl
  · rw [List.map_singleton, Nat.cast_sub hin]
    rfl

/-- **`collect` is the walk** through the two heaps. -/
lemma collect_eq (h : Heap n t) (ho : Heap n o) (fuel : ℕ) {i : ℕ} (h1 : 1 ≤ i)
    (hlt : i < 2 * n) (hfuel : n ≤ i * 2 ^ fuel) :
    t.collect o (fuel + 1) i = some ((walk t.node o.node n (fuel + 1) i).map Nat.cast) := by
  induction fuel generalizing i with
  | zero => exact collect_of_leaf h ho 0 (by simpa using hfuel) hlt
  | succ fuel ih =>
    by_cases hin : n ≤ i
    · exact collect_of_leaf h ho (fuel + 1) hin hlt
    have hchild : i * 2 ^ (fuel + 1) = 2 * i * 2 ^ fuel := by rw [pow_succ]; ring
    have hnext : 2 * i * 2 ^ fuel ≤ (2 * i + 1) * 2 ^ fuel := Nat.mul_le_mul_right _ (by omega)
    have hl := ih (i := 2 * i) (by omega) (by omega) (by omega)
    have hr := ih (i := 2 * i + 1) (by omega) (by omega) (by omega)
    push_cast at hl hr
    rw [Tree.collect, walk, if_neg hin]
    simp only [h.at? hlt, ho.at? hlt, Option.bind_eq_bind, Option.bind_some]
    rw [if_neg (show ¬ (i : ℤ) ≥ t.leafCount by rw [h.leafCount]; omega), hl, hr]
    split_ifs
    · rfl
    · rw [List.map_append]
      rfl

/-- **What `Diff` returns**, from the nodes that `Root` has built. -/
lemma diff_eq (h : Heap n t) (ho : Heap n o) {t' o' : Tree} (ht' : Rooted H n t t')
    (ho' : Rooted H n o o') :
    t.diff H o = some ((walk t'.node o'.node n (n + 1) 1).map Nat.cast) := by
  have hpos := h.pos
  have hcollect := collect_eq ht'.heap ho'.heap n le_rfl (by omega)
    (by rw [one_mul]; exact Nat.lt_two_pow_self.le)
  unfold Tree.diff
  rw [if_neg (by rw [h.leafCount, ho.leafCount]; simp)]
  simp only [ht'.root, ho'.root, ht'.heap.leafCount, Int.toNat_natCast, Option.bind_eq_bind,
    Option.bind_some]
  exact hcollect

/-- **`Diff` reports only buckets whose leaves differ.** -/
theorem diff_spec (h : Perfect k t) (ho : Perfect k o) :
    ∃ ds, t.diff H o = some ds ∧
      ∀ d ∈ ds, ∃ i < 2 ^ k, d = (i : ℕ) ∧ leaf k t i ≠ leaf k o i := by
  obtain ⟨t', ht'⟩ := root_spec H h.heap
  obtain ⟨o', ho'⟩ := root_spec H ho.heap
  have hpos := h.heap.pos
  refine ⟨_, diff_eq h.heap ho.heap ht' ho', fun d hd => ?_⟩
  obtain ⟨i, hi, rfl⟩ := List.mem_map.mp hd
  obtain ⟨hlt, e, -, hdiff⟩ := (mem_walk _ le_rfl (by omega)
    (by rw [one_mul]; exact Nat.lt_two_pow_self.le)).mp hi
  refine ⟨i, hlt, rfl, ?_⟩
  have hne := hdiff 0 (Nat.zero_le e)
  rwa [pow_zero, Nat.div_one, ht'.same _ (.inr (by omega)), ho'.same _ (.inr (by omega))] at hne

/-! ### Over the wire -/

lemma mapM_eq_some {α β : Type} {f : α → Option β} {g : α → β} {l : List α}
    (h : ∀ x ∈ l, f x = some (g x)) : l.mapM f = some (l.map g) := by
  induction l with
  | nil => rfl
  | cons x l ih =>
    rw [List.mapM_cons, h x (by simp), ih fun y hy => h y (by simp [hy])]
    rfl

/-- The leaves of a perfect tree, in order. -/
def leafList (k : ℕ) (t : Tree) : List Bytes := (List.range (2 ^ k)).map (leaf k t)

lemma Heap.leaves (h : Heap n t) :
    t.leaves = some ((List.range n).map fun i => t.node (n + i)) := by
  unfold Tree.leaves
  rw [if_neg (by rw [h.leafCount]; omega), h.leafCount, Int.toNat_natCast]
  refine mapM_eq_some fun l hl => ?_
  rw [List.mem_range] at hl
  rw [← Nat.cast_add]
  exact h.at? (by omega)

lemma leaves_eq (h : Perfect k t) : t.leaves = some (leafList k t) := h.heap.leaves

lemma Heap.exists_encode (h : Heap n t) : ∃ b, t.encode = some b := by
  rw [Tree.encode, h.leaves]
  exact ⟨_, rfl⟩

lemma recovers_leaf {b : Bytes} (h : b.length < 2 ^ 32) :
    Recovers decodeLeaf b (Tree.encodeLeaf b) := by
  have hlen := toNat_ofNat_of_lt h
  refine (recovers_uint32 _).bind ?_
  by_cases h0 : b = []
  · subst h0
    exact Recovers.pure _
  · have hne : UInt32.ofNat b.length ≠ 0 := by
      intro hz
      rw [hz] at hlen
      exact h0 (List.length_eq_zero_iff.mp hlen.symm)
    rw [if_neg hne, hlen]
    exact recovers_slice b

lemma toNat_succ {x : UInt32} (h : x.toNat + 1 < 2 ^ 32) : (x + 1).toNat = x.toNat + 1 := by
  rw [UInt32.toNat_add]
  exact Nat.mod_eq_of_lt h

/-- What the loop of `Decode` does with one leaf. -/
def store (k : ℕ) (s : UInt32 × Tree) (b : Bytes) : UInt32 × Tree :=
  (s.1 + 1, { s.2 with nodes := s.2.nodes.set (2 ^ k + s.1.toNat) b })

/-- The state of the loop with the leaves `rest` still to come. -/
def Loading (k : ℕ) (s : UInt32 × Tree) (rest : List Bytes) : Prop :=
  Perfect k s.2 ∧ s.1.toNat + rest.length = 2 ^ k ∧ ∀ b ∈ rest, b.length < 2 ^ 32

lemma Loading.lt {s : UInt32 × Tree} {b : Bytes} {rest : List Bytes}
    (h : Loading k s (b :: rest)) : s.1.toNat < 2 ^ k := by
  have := h.2.1
  simp only [List.length_cons] at this
  omega

lemma Loading.step (hk : k ≤ 30) {s : UInt32 × Tree} {b : Bytes} {rest : List Bytes}
    (h : Loading k s (b :: rest)) :
    Recovers (decodeStep (UInt32.ofNat (2 ^ k)) s) (store k s b) (Tree.encodeLeaf b) ∧
      Loading k (store k s b) rest := by
  have hpow : 2 ^ k ≤ 2 ^ 30 := Nat.pow_le_pow_right (by norm_num) hk
  have hpow' : 2 ^ (k + 1) = 2 * 2 ^ k := pow_succ' 2 k
  have hlt := h.lt
  have hidx : (UInt32.ofNat (2 ^ k) + s.1).toNat = 2 ^ k + s.1.toNat := by
    rw [UInt32.toNat_add, UInt32.toNat_ofNat', Nat.mod_eq_of_lt (by omega : 2 ^ k < 2 ^ 32)]
    exact Nat.mod_eq_of_lt (by omega)
  have hsucc := toNat_succ (x := s.1) (by omega)
  refine ⟨?_, h.1.set _ b, ?_, fun x hx => h.2.2 x (by simp [hx])⟩
  · rw [← List.append_nil (Tree.encodeLeaf b)]
    refine ((recovers_leaf (h.2.2 b (by simp))).mapError _).bind ?_
    rw [hidx, h.1.heap.put (by omega)]
    exact Recovers.pure _
  · have := h.2.1
    simp only [List.length_cons] at this
    simp only [store, hsucc]
    omega

lemma foldl_store (hk : k ≤ 30) {s : UInt32 × Tree} {rest : List Bytes} (h : Loading k s rest) :
    Perfect k (rest.foldl (store k) s).2 ∧ ∀ i < 2 ^ k, leaf k (rest.foldl (store k) s).2 i =
      if i < s.1.toNat then leaf k s.2 i else rest.getD (i - s.1.toNat) [] := by
  induction rest generalizing s with
  | nil =>
    have hend : s.1.toNat = 2 ^ k := h.2.1
    exact ⟨h.1, fun i hi => by rw [if_pos (hend ▸ hi)]; rfl⟩
  | cons b rest ih =>
    obtain ⟨hp, hleaf⟩ := ih (h.step hk).2
    have hlt := h.lt
    have hpow : 2 ^ k ≤ 2 ^ 30 := Nat.pow_le_pow_right (by norm_num) hk
    have hsucc := toNat_succ (x := s.1) (by omega)
    refine ⟨hp, fun i hi => ?_⟩
    rw [List.foldl_cons, hleaf i hi]
    simp only [store, hsucc, leaf_set h.1 hlt]
    rcases Nat.lt_trichotomy i s.1.toNat with hi' | hi' | hi'
    · rw [if_pos (Nat.lt_succ_of_lt hi'), if_pos hi', if_neg hi'.ne]
    · subst hi'
      rw [if_pos (Nat.lt_succ_self _), if_neg (lt_irrefl _), if_pos rfl, Nat.sub_self]
      rfl
    · rw [if_neg (Nat.not_lt.mpr hi'), if_neg (Nat.not_lt.mpr hi'.le),
        show i - s.1.toNat = i - (s.1.toNat + 1) + 1 by omega]
      rfl

/-- **A tree survives the wire**: what is decoded has the same leaves. -/
theorem decode_encode (h : Perfect k t) (hk : k ≤ 30)
    (hlen : ∀ i < 2 ^ k, (leaf k t i).length < 2 ^ 32) :
    ∃ b t', t.encode = some b ∧ decode b = .ok t' ∧ Perfect k t' ∧
      ∀ i < 2 ^ k, leaf k t' i = leaf k t i := by
  have hpow : 2 ^ k ≤ 2 ^ 30 := Nat.pow_le_pow_right (by norm_num) hk
  have hcount : (UInt32.ofNat (2 ^ k)).toNat = 2 ^ k := toNat_ofNat_of_lt (by omega)
  have hmod : (t.leafCount % 2 ^ 32).toNat = 2 ^ k := by
    rw [h.leafCount_eq]
    omega
  have hslots : (UInt32.ofNat (2 ^ k) * 2).toNat = 2 ^ (k + 1) := by
    rw [UInt32.toNat_mul, hcount, pow_succ]
    exact Nat.mod_eq_of_lt (by simp; omega)
  set empty : Tree := ⟨((2 ^ k : ℕ) : ℤ), List.replicate (2 ^ (k + 1)) []⟩ with hempty
  have hload : Loading k (0, empty) (leafList k t) := by
    refine ⟨⟨by simp [hempty], by simp [hempty]⟩, by simp [leafList], fun b hb => ?_⟩
    obtain ⟨i, hi, rfl⟩ := List.mem_map.mp hb
    exact hlen i (List.mem_range.mp hi)
  obtain ⟨hp, hleaf⟩ := foldl_store hk hload
  have hrec : Recovers decodeTree ((leafList k t).foldl (store k) (0, empty)).2
      (putUint32 (UInt32.ofNat (2 ^ k)) ++ (leafList k t).flatMap Tree.encodeLeaf) := by
    refine ((recovers_uint32 _).mapError _).bind ?_
    rw [← List.append_nil (List.flatMap _ _)]
    have hloop := Recovers.loop_of_inv (leafList k t) (fun s b rest hs => hs.step hk)
      (0, empty) hload
    simp only [hcount, hslots, ← hempty]
    refine Recovers.bind ?_ (Recovers.pure _)
    rwa [show (leafList k t).length = 2 ^ k by simp [leafList]] at hloop
  refine ⟨putUint32 (UInt32.ofNat (2 ^ k)) ++ (leafList k t).flatMap Tree.encodeLeaf, _, ?_, ?_,
    hp, fun i hi => ?_⟩
  · unfold Tree.encode
    rw [leaves_eq h, hmod]
    rfl
  · exact hrec.whole
  · rw [hleaf i hi, if_neg (by simp)]
    simp [leafList, List.getD_eq_getElem?_getD, hi]

end Kyria.Merkle
