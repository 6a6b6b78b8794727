import Kyria.AntiEntropy

/-!
Whether anti-entropy comes to rest: one node syncs with another, the other syncs with it, and
after that their trees should agree.

The trees are built over blobs. What a round leaves in both stores is the join as a set of
versions; the order of the siblings and of the clock entries in the blob is left to how the
round went.
-/

namespace Kyria.Server

open Std (ExtTreeMap)
open Kyria.Lib.Cursor Kyria.Lib.MapOrder Kyria.Lib.Maxima
open Kyria.Binenc Kyria.Store Kyria.Version Kyria.Replica Kyria.Protocol Kyria.BucketCodec
open Kyria.Sha256 Kyria.Text
open Kyria.Store.MapStore (SameLimits)

variable {σ τ : Type} (H : Hash)

/-- A round of `a` against `b`, then one of `b` against `a`; the two stores after that. -/
def exchange (leaves : ℤ) (a : Handler σ) (b : Handler τ) (env env' : SyncEnv) :
    Option (MapStore σ × MapStore τ) := do
  let (_, a', b) ← syncWith H leaves a.store b env
  let (_, b', _) ← syncWith H leaves b.store { a with store := a' } env'
  return (a', b')

/-- Neither round meets a rejection, an eviction or a coincidence of hashes, and neither does
the comparison that follows. -/
structure Exchangeable (leaves : ℤ) (a : Handler σ) (b : Handler τ) (keys : List Bytes) :
    Prop where
  coded : Coded a.store ∧ Coded b.store
  listed : ∀ key, key ∈ a.store.data ∨ key ∈ b.store.data → key ∈ keys
  room : a.store.HasRoom keys ∧ b.store.HasRoom keys
  first : ∀ env : SyncEnv, Reports H leaves a.store b.store env.scan env.tree.env ∧
    Unrejected H leaves a.store b env
  second : ∀ env out a', syncWith H leaves a.store b env = some (out, a', b) →
    ∀ env' : SyncEnv, Reports H leaves b.store a' env'.scan env'.tree.env ∧
      Unrejected H leaves b.store { a with store := a' } env'
  last : ∀ env env' a' b', exchange H leaves a b env env' = some (a', b') →
    ∀ e e', Reports H leaves a' b' e e'

/-- The versions `m` holds under a key that no version `p` holds under it is above. -/
def unbeaten (m : MapStore σ) (p : MapStore τ) (key : Bytes) : List Version :=
  (siblings m key).filter fun v => ∀ w ∈ siblings p key, v.clock.compare w.clock ≠ .before

/-- Under every key of a bucket that differs: of the two nodes' unbeaten versions one list begins
the other, and their clocks have one entry at most. -/
def Settles (leaves : ℤ) (m : MapStore σ) (p : MapStore τ) : Prop :=
  ∀ key, ¬ SameBucket H (Merkle.depth leaves) m p (Merkle.bucketOf H (Merkle.depth leaves) key) →
    (∀ v ∈ unbeaten m p key ++ unbeaten p m key, v.clock.size ≤ 1) ∧
      (unbeaten m p key <+: unbeaten p m key ∨ unbeaten p m key <+: unbeaten m p key)

/-! ### One order for the join -/

section Order

variable {m : MapStore σ} {p : MapStore τ}

lemma unbeaten_eq (m : MapStore σ) (p : MapStore τ) (key : Bytes) :
    unbeaten m p key = undominated clk (siblings m key) (siblings p key) := by
  refine List.filter_congr fun v _ => decide_eq_decide.mpr ?_
  exact forall₂_congr fun w _ => not_congr (compare_eq_before_iff v w)

lemma settled_iff (hm : Coded m) (hp : Coded p) (key : Bytes) :
    ((∀ v ∈ unbeaten m p key ++ unbeaten p m key, v.clock.size ≤ 1) ∧
        (unbeaten m p key <+: unbeaten p m key ∨ unbeaten p m key <+: unbeaten m p key)) ↔
      (∀ v ∈ joined m p key, v.clock.size ≤ 1) ∧
        (joined m p key).foldl reconcile (siblings p key) = joined m p key := by
  have hS := hm.antichain key
  have hL := hp.antichain key
  rw [joined, reconcile_eq, foldl_foldl_absorb_eq_iff hS hL, unbeaten_eq, unbeaten_eq]
  refine and_congr_left fun horder => forall_congr' fun v => ?_
  rw [mem_foldl_absorb_iff hS hL horder, List.mem_append]

end Order

/-! ### Two rounds -/

section Rounds

variable {H} {k : ℕ} {a a' : MapStore σ} {b b' : MapStore τ} {update update' : Bytes → Env}

lemma Synced.coded (h : Synced H k a a' b update) (ha : Coded a) : Coded a' where
  permanent := h.permanent
  encoded key blob hv := by
    by_cases hkey : ¬ SameBucket H k a b (Merkle.bucketOf H k key) ∧ key ∈ b.data
    · obtain ⟨hval, hlen⟩ := h.taken key hkey.1 hkey.2
      cases hval.symm.trans hv
      exact ⟨_, _, rfl, encodable_joined a b hlen, (isMaxima_joined ha b key).antichain⟩
    · rw [valueAt_of_keeps (h.kept key (by tauto))] at hv
      exact ha.encoded key blob hv

lemma Synced.mem (h : Synced H k a a' b update) {key : Bytes} (hkey : key ∈ a'.data) :
    key ∈ a.data ∨ key ∈ b.data := by
  by_cases hb : key ∈ b.data
  · exact .inr hb
  · exact .inl ((h.kept key (.inr hb)).mem_iff.mp hkey)

lemma Synced.mem_of_mem (h : Synced H k a a' b update) {key : Bytes}
    (hne : ¬ SameBucket H k a b (Merkle.bucketOf H k key)) (hkey : key ∈ b.data) :
    key ∈ a'.data := mem_of_valueAt (h.taken key hne hkey).1

lemma Synced.same (h : Synced H k a a' b update) (h' : Synced H k b b' a' update') {key : Bytes}
    (hs : SameBucket H k a b (Merkle.bucketOf H k key)) : valueAt a' key = valueAt b' key := by
  have hs' : SameBucket H k b a' (Merkle.bucketOf H k key) := by
    intro key' hkey'
    rw [valueAt_of_keeps (h.kept key' (.inl (hkey' ▸ hs)))]
    exact (hs key' hkey').symm
  rw [valueAt_of_keeps (h'.kept key (.inl hs'))]
  exact (hs' key rfl).symm

lemma Synced.siblings_second (h : Synced H k a a' b update) (h' : Synced H k b b' a' update')
    (ha : Coded a) (hb : Coded b) (key : Bytes) :
    siblings b' key = (joined a b key).foldl reconcile (siblings b key) := by
  rw [h'.siblings_eq hb key, joined, h.siblings_eq ha key]

end Rounds

section Exchange

variable {H} {leaves : ℤ} (hl₁ : 1 ≤ leaves) (hl : leaves ≤ 2 ^ 30) {a : Handler σ} {b : Handler τ}
  {keys : List Bytes} (hx : Exchangeable H leaves a b keys)

include hl₁ hl hx

lemma Exchangeable.first_round (env : SyncEnv) :
    ∃ out a', syncWith H leaves a.store b env = some (out, a', b) ∧
      Synced H (Merkle.depth leaves) a.store a' b.store env.update := by
  obtain ⟨hrep, hun⟩ := hx.first env
  exact syncWith_synced (by omega) hl hx.coded.1.permanent hx.coded.2.permanent hrep hun hx.room.1
    fun key hkey => hx.listed key (.inr hkey)

lemma Exchangeable.second_round {env : SyncEnv} {out : SyncOutcome} {a' : MapStore σ}
    (hsync : syncWith H leaves a.store b env = some (out, a', b))
    (hs : Synced H (Merkle.depth leaves) a.store a' b.store env.update) (env' : SyncEnv) :
    ∃ b', exchange H leaves a b env env' = some (a', b') ∧
      Synced H (Merkle.depth leaves) b.store b' a' env'.update := by
  obtain ⟨hrep, hun⟩ := hx.second env out a' hsync env'
  have hperm : ∀ key, ({ a with store := a' } : Handler σ).store.Permanent key := hs.permanent
  obtain ⟨out', b', hsync', hs'⟩ := syncWith_synced (by omega) hl hx.coded.2.permanent hperm hrep
    hun hx.room.2 fun key hkey => hx.listed key (hs.mem hkey)
  exact ⟨b', by simp [exchange, hsync, hsync'], hs'⟩

omit hl₁ hx in
lemma comparison_of_values_eq {a' : MapStore σ} {b' : MapStore τ} (ha : ∀ key, a'.Permanent key)
    (hb : ∀ key, b'.Permanent key) (h : ∀ key, valueAt a' key = valueAt b' key) (e e' : Env) :
    comparison H leaves a' b' e e' = some [] := by
  obtain ⟨-, -, -, -, ds, -, -, -, -, -, hcmp, hdiff⟩ := comparison_spec hl ha hb e e' (H := H)
  have hnil : ds = [] := List.eq_nil_iff_forall_not_mem.mpr fun d hd => by
    obtain ⟨i, -, -, hne⟩ := hdiff d hd
    exact hne fun key _ => h key
  rw [hcmp, hnil]

end Exchange

section Settle

variable {H} {leaves : ℤ} {a a' : MapStore σ} {b b' : MapStore τ} {update update' : Bytes → Env}
  (h : Synced H (Merkle.depth leaves) a a' b update)
  (h' : Synced H (Merkle.depth leaves) b b' a' update')

include h h'

lemma values_eq_of_settles (ha : Coded a) (hb : Coded b) (hset : Settles H leaves a b)
    (key : Bytes) : valueAt a' key = valueAt b' key := by
  by_cases hs : SameBucket H (Merkle.depth leaves) a b
      (Merkle.bucketOf H (Merkle.depth leaves) key)
  · exact h.same h' hs
  obtain ⟨hsize, horder⟩ := (settled_iff ha hb key).mp (hset key hs)
  by_cases hs' : SameBucket H (Merkle.depth leaves) b a'
      (Merkle.bucketOf H (Merkle.depth leaves) key)
  · rw [valueAt_of_keeps (h'.kept key (.inl hs')), hs' key rfl]
  by_cases hkey : key ∈ a'.data
  · -- both sides hold an encoding of the join, and there is only one
    obtain ⟨blob, hblob⟩ := exists_valueAt hkey
    obtain ⟨o, vs, rfl, henc, -⟩ := (h.coded ha).encoded key blob hblob
    have hvs : vs = joined a b key := by
      rw [← h.siblings_eq ha key, ← siblingsOf_value hblob, siblingsOf_encode o henc]
    have hsecond : joined b a' key = joined a b key := by
      rw [joined, h.siblings_eq ha key, horder]
    rw [hblob, (h'.taken key hs' hkey).1, hvs, hsecond, encode_eq_of_size_le hsize]
  · have hb' : key ∉ b.data := fun hmem => hkey (h.mem_of_mem hs hmem)
    rw [valueAt_of_keeps (h'.kept key (.inr hkey)), valueAt_of_not_mem hkey, valueAt_of_not_mem hb']

end Settle

/-- A round whose encodings all visit clocks in one order. -/
def orderedBy (o : ClockOrder) : SyncEnv :=
  { (default : SyncEnv) with update := fun _ => { (default : Env) with clocks := o } }

section Unsettled

variable {H} {leaves : ℤ} (hl₁ : 1 ≤ leaves) (hl : leaves ≤ 2 ^ 30) {a : Handler σ} {b : Handler τ}
  {keys : List Bytes} (hx : Exchangeable H leaves a b keys) {key : Bytes}
  (hs : ¬ SameBucket H (Merkle.depth leaves) a.store b.store
    (Merkle.bucketOf H (Merkle.depth leaves) key))
  {v : Version} (hv : v ∈ joined a.store b.store key) (hsize : 2 ≤ v.clock.size)

include hl₁ hl hx hs hv hsize

lemma Exchangeable.exists_unequal :
    ∃ env out a', syncWith H leaves a.store b env = some (out, a', b) ∧
      Synced H (Merkle.depth leaves) a.store a' b.store env.update ∧
      valueAt a' key ≠ valueAt b.store key := by
  by_contra hall
  push Not at hall
  have hround : ∀ o, ∃ a', Synced H (Merkle.depth leaves) a.store a' b.store
      (orderedBy o).update ∧ valueAt a' key = valueAt b.store key := fun o => by
    obtain ⟨out, a', hsync, h⟩ := hx.first_round hl₁ hl (orderedBy o)
    exact ⟨a', h, hall _ out a' hsync h⟩
  by_cases hkey : key ∈ b.store.data
  · obtain ⟨a₁, h₁, he₁⟩ := hround default
    obtain ⟨a₂, h₂, he₂⟩ := hround VisitOrder.reversed
    refine encode_reversed_ne (fun _ => fits_joined) hv hsize ?_
    have := he₁.trans he₂.symm
    rw [(h₁.taken key hs hkey).1, (h₂.taken key hs hkey).1] at this
    exact Option.some.inj this
  · obtain ⟨a₁, h₁, he₁⟩ := hround default
    rw [valueAt_of_not_mem hkey] at he₁
    rw [← h₁.siblings_eq hx.coded.1 key, siblings, blob_eq, he₁] at hv
    simp at hv

end Unsettled

/-! ### When the trees agree -/

section Fixpoint

variable {H} {leaves : ℤ} (hl₁ : 1 ≤ leaves) (hl : leaves ≤ 2 ^ 30) {a : Handler σ} {b : Handler τ}
  {keys : List Bytes} (hx : Exchangeable H leaves a b keys)

include hl₁ hl hx

lemma Exchangeable.settles
    (hfix : ∀ env env' a' b', exchange H leaves a b env env' = some (a', b') →
      ∀ key, valueAt a' key = valueAt b' key) : Settles H leaves a.store b.store := by
  intro key hs
  have horder : (joined a.store b.store key).foldl reconcile (siblings b.store key) =
      joined a.store b.store key := by
    obtain ⟨out, a', hsync, h⟩ := hx.first_round hl₁ hl default
    obtain ⟨b', hex, h'⟩ := hx.second_round hl₁ hl hsync h default
    rw [← h.siblings_second h' hx.coded.1 hx.coded.2 key, ← h.siblings_eq hx.coded.1 key,
      siblings, siblings, blob_eq, blob_eq, hfix _ _ a' b' hex key]
  refine (settled_iff hx.coded.1 hx.coded.2 key).mpr ⟨fun v hv => ?_, horder⟩
  by_contra hsize
  obtain ⟨env, out, a', hsync, h, hne⟩ := hx.exists_unequal hl₁ hl hs hv (by omega)
  have hs' : ¬ SameBucket H (Merkle.depth leaves) b.store a'
      (Merkle.bucketOf H (Merkle.depth leaves) key) := fun hsame => hne (hsame key rfl).symm
  have hkey : key ∈ a'.data := by
    by_contra habs
    rw [← h.siblings_eq hx.coded.1 key, siblings, blob_eq, valueAt_of_not_mem habs] at hv
    simp at hv
  -- the second round may encode the same set in either order
  have hvalue : ∀ o, valueAt a' key = some (encode o (joined a.store b.store key)) := fun o => by
    obtain ⟨b', hex, h'⟩ := hx.second_round hl₁ hl hsync h (orderedBy o)
    have hjoin : joined b.store a' key = joined a.store b.store key := by
      rw [joined, h.siblings_eq hx.coded.1 key, horder]
    rw [hfix _ _ a' b' hex key, (h'.taken key hs' hkey).1, hjoin]
    rfl
  refine encode_reversed_ne (fun _ => fits_joined) hv (by omega) ?_
  exact Option.some.inj ((hvalue default).symm.trans (hvalue VisitOrder.reversed))

/-- **An exchange comes to rest exactly if** in every bucket that differs the versions that stay of
one node's siblings begin those that stay of the other's, all with clocks of at most one entry. -/
theorem exchange_rests_iff :
    (∀ env env', ∃ a' b', exchange H leaves a b env env' = some (a', b') ∧
      ∀ e e', comparison H leaves a' b' e e' = some []) ↔ Settles H leaves a.store b.store := by
  constructor
  · intro hrest
    refine hx.settles hl₁ hl fun env env' a' b' hex key => ?_
    obtain ⟨a'', b'', hex', hcmp⟩ := hrest env env'
    cases hex.symm.trans hex'
    by_contra hne
    have := hx.last env env' a' b' hex default default [] (hcmp default default) key hne
    simp at this
  · intro hset env env'
    obtain ⟨out, a', hsync, h⟩ := hx.first_round hl₁ hl env
    obtain ⟨b', hex, h'⟩ := hx.second_round hl₁ hl hsync h env'
    exact ⟨a', b', hex, comparison_of_values_eq hl h.permanent h'.permanent
      (values_eq_of_settles h h' hx.coded.1 hx.coded.2 hset)⟩

end Fixpoint

/-! ### A node that copies the other's only key -/

section Copy

variable {m : MapStore σ} {p : MapStore τ} (hm : ∀ key, m.Permanent key)
  (hp : ∀ key, p.Permanent key)
  (hval : ∀ k, valueAt m k = if k = [107] then some (encode default [writtenBy [97] [1]]) else none)
  (hnone : ∀ k, valueAt p k = none)

include hm hp hval hnone in
lemma comparison_copy (e e' : Env) :
    comparison sha256 1 m p e e' = some [0] ∧ comparison sha256 1 p m e e' = some [0] := by
  constructor
  · simp only [comparison, buildTree, range_eq_singleton hm _ _ hval, range_eq_nil hp _ _ hnone]
    decide +kernel
  · simp only [comparison, buildTree, range_eq_singleton hm _ _ hval, range_eq_nil hp _ _ hnone]
    decide +kernel

include hm hval in
lemma replies_copy (e e' : Env) (o : VisitOrder (Bytes × Bytes)) :
    (rtree sha256 m e (itoa 1)).all deliverable = true ∧
      (rbucket sha256 m e' o (itoa 1) (encodeBuckets [0])).all deliverable = true := by
  constructor
  · simp only [rtree, buildTree, range_eq_singleton hm _ _ hval]
    decide +kernel
  · rw [rbucket_eq (by norm_num) (by norm_num) m e' o (by decide) (by decide),
      bucketsOf, range_eq_singleton hm _ _ hval, encodeEntries_of_size_le (by decide +kernel)]
    decide +kernel

include hp hnone in
lemma replies_empty (e e' : Env) (o : VisitOrder (Bytes × Bytes)) :
    (rtree sha256 p e (itoa 1)).all deliverable = true ∧
      (rbucket sha256 p e' o (itoa 1) (encodeBuckets [0])).all deliverable = true := by
  constructor
  · simp only [rtree, buildTree, range_eq_nil hp _ _ hnone]
    decide +kernel
  · rw [rbucket_eq (by norm_num) (by norm_num) p e' o (by decide) (by decide),
      bucketsOf, range_eq_nil hp _ _ hnone, encodeEntries_of_size_le (by decide +kernel)]
    decide +kernel

end Copy

/-- A node that holds nothing. -/
def bareNode : Handler Unit where
  store := { state := () }

lemma coded_bareNode : Coded bareNode.store where
  permanent key e he := by simp [bareNode] at he
  encoded key blob hv := by simp [bareNode, valueAt] at hv

lemma valueAt_bareNode (k : Bytes) : valueAt bareNode.store k = none := by
  simp [bareNode, valueAt]

section CopyRounds

variable {m : MapStore Unit} (hm : ∀ key, m.Permanent key)
  (hval : ∀ k, valueAt m k = if k = [107] then some (encode default [writtenBy [97] [1]]) else none)

include hm hval

lemma clean_first (env : SyncEnv) :
    Reports sha256 1 m bareNode.store env.scan env.tree.env ∧
      Unrejected sha256 1 m bareNode env := by
  have hcmp := (comparison_copy hm coded_bareNode.permanent hval valueAt_bareNode
    env.scan env.tree.env).1
  have hrep := replies_empty coded_bareNode.permanent valueAt_bareNode env.tree.env env.bucket.env
    env.bucket.buckets
  refine ⟨reports_of_comparison hcmp (bucketOf_one sha256),
    unrejected_of_comparison hcmp hrep.1 (by decide) hrep.2 fun key hkey => ?_⟩
  obtain ⟨blob, hb⟩ := exists_valueAt hkey
  rw [valueAt_bareNode] at hb
  cases hb

lemma clean_second (a : Handler Unit) (env : SyncEnv) :
    Reports sha256 1 bareNode.store m env.scan env.tree.env ∧
      Unrejected sha256 1 bareNode.store { a with store := m } env := by
  have hcmp := (comparison_copy hm coded_bareNode.permanent hval valueAt_bareNode
    env.scan env.tree.env).2
  have hrep := replies_copy hm hval env.tree.env env.bucket.env env.bucket.buckets
  refine ⟨reports_of_comparison hcmp (bucketOf_one sha256),
    unrejected_of_comparison hcmp hrep.1 (by decide) hrep.2 fun key hkey => ?_⟩
  have hkey : key = [107] := by
    obtain ⟨blob, hb⟩ := exists_valueAt hkey
    change valueAt m key = some blob at hb
    rw [hval] at hb
    split_ifs at hb with h
    exact h
  have hsib : siblings m [107] = [writtenBy [97] [1]] := by
    rw [siblings, blob_eq, hval, if_pos rfl, Option.getD_some,
      siblingsOf_encode default encodable_writtenBy.1]
  have hjoin : joined bareNode.store m [107] = [writtenBy [97] [1]] := by
    rw [joined, hsib]
    decide +kernel
  rw [hkey, hjoin, encode_eq_of_size_le (by decide +kernel) _ default]
  decide +kernel

end CopyRounds

lemma settles_copy : Settles sha256 1 (nodeWith [107] [97] [1]).store bareNode.store := by
  intro key _
  have ha : siblings (nodeWith [107] [97] [1]).store key = if key = [107] then _ else _ :=
    siblings_holding { state := () } [107] encodable_writtenBy.1 key
  have hb : siblings bareNode.store key = [] := by
    rw [siblings, blob_eq, valueAt_bareNode]
    rfl
  rw [unbeaten, unbeaten, hb, ha]
  split_ifs <;> decide +kernel

lemma first_round_copy (env : SyncEnv) :
    ∃ out a', syncWith sha256 1 (nodeWith [107] [97] [1]).store bareNode env =
        some (out, a', bareNode) ∧
      Synced sha256 (Merkle.depth 1) (nodeWith [107] [97] [1]).store a' bareNode.store env.update ∧
      ∀ k, valueAt a' k =
        if k = [107] then some (encode default [writtenBy [97] [1]]) else none := by
  have hval := valueAt_holding { state := () } [107] [writtenBy [97] [1]]
  have hcoded := coded_holding { state := () } [107] encodable_writtenBy.1
    (List.pairwise_singleton _ _)
  obtain ⟨hrep, hun⟩ := clean_first hcoded.permanent hval env
  have hroom : (nodeWith [107] [97] [1]).store.HasRoom [[107]] := .inl rfl
  obtain ⟨out, a', hsync, hs⟩ := syncWith_synced (by norm_num) (by norm_num) hcoded.permanent
    coded_bareNode.permanent hrep hun hroom fun key hkey => by simp [bareNode] at hkey
  refine ⟨out, a', hsync, hs, fun k => ?_⟩
  rw [valueAt_of_keeps (hs.kept k (.inr (by simp [bareNode])))]
  exact hval k

lemma exchangeable_copy :
    Exchangeable sha256 1 (nodeWith [107] [97] [1]) bareNode [[107]] where
  coded := ⟨coded_holding { state := () } [107] encodable_writtenBy.1 (List.pairwise_singleton _ _),
    coded_bareNode⟩
  listed key hkey := by
    rcases hkey with hkey | hkey
    · simp [mem_holding hkey]
    · simp [bareNode] at hkey
  room := ⟨.inl rfl, .inl rfl⟩
  first := clean_first (coded_holding { state := () } [107] encodable_writtenBy.1
    (List.pairwise_singleton _ _)).permanent
      (valueAt_holding { state := () } [107] [writtenBy [97] [1]])
  second env out a' hsync := by
    obtain ⟨out', a'', hsync', hs, hval⟩ := first_round_copy env
    cases hsync.symm.trans hsync'
    exact clean_second hs.permanent hval _
  last env env' a' b' hex e e' := by
    obtain ⟨out, a₁, hsync, hs, hval⟩ := first_round_copy env
    obtain ⟨hrep, hun⟩ := clean_second hs.permanent hval (nodeWith [107] [97] [1]) env'
    have hperm : ∀ key, ({ nodeWith [107] [97] [1] with store := a₁ } :
      Handler Unit).store.Permanent key := hs.permanent
    obtain ⟨out', b₁, hsync', hs'⟩ := syncWith_synced (by norm_num) (by norm_num)
      coded_bareNode.permanent hperm hrep hun (.inl rfl) fun _ hkey => ExtTreeMap.mem_keys.mpr hkey
    have hex' : exchange sha256 1 (nodeWith [107] [97] [1]) bareNode env env' = some (a₁, b₁) := by
      simp [exchange, hsync, hsync']
    cases hex.symm.trans hex'
    intro ds _ key hne
    exact absurd (values_eq_of_settles hs hs' (coded_holding { state := () } [107]
      encodable_writtenBy.1 (List.pairwise_singleton _ _)) coded_bareNode settles_copy key) hne

/-- One node holds a key, the other nothing. -/
theorem exchange_rests_copy :
    Settles sha256 1 (nodeWith [107] [97] [1]).store bareNode.store ∧
      ∀ env env', ∃ a' b', exchange sha256 1 (nodeWith [107] [97] [1]) bareNode env env' =
        some (a', b') ∧ ∀ e e', comparison sha256 1 a' b' e e' = some [] :=
  ⟨settles_copy,
    (exchange_rests_iff (by norm_num) (by norm_num) exchangeable_copy).mpr settles_copy⟩

/-- Two nodes that took concurrent writes of one key: both rounds go through, each node holds
both siblings, and the trees differ as before. -/
theorem exchange_does_not_rest :
    Coded (nodeWith [107] [97] [1]).store ∧ Coded (nodeWith [107] [98] [2]).store ∧
    (∀ key, (held (nodeWith [107] [97] [1]).store (nodeWith [107] [98] [2]).store key).InjOn clk) ∧
    (exchange sha256 1 (nodeWith [107] [97] [1]) (nodeWith [107] [98] [2]) default default).map
      (fun r => (siblings r.1 [107], siblings r.2 [107],
        comparison sha256 1 r.1 r.2 default default)) =
        some ([writtenBy [97] [1], writtenBy [98] [2]], [writtenBy [98] [2], writtenBy [97] [1]],
          some [0]) :=
  ⟨(coded_writtenBy { state := () } { state := () } [107] [107]).1,
    (coded_writtenBy { state := () } { state := () } [107] [107]).2, held_writtenBy _ _ _ _,
    by decide +kernel⟩

end Kyria.Server
