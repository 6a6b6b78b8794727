import Kyria.Handler
import Kyria.Store.Ops

/-!
Anti-entropy (`internal/server/antientropy.go`, `peer.go`): a node compares its Merkle tree
with a peer's and pulls the entries in the buckets that differ.
-/

namespace Kyria.Server

open Std (ExtTreeMap)
open Kyria.Lib.Cursor Kyria.Lib.MapOrder Kyria.Lib.Maxima
open Kyria.Binenc Kyria.Store Kyria.Version Kyria.Replica Kyria.Protocol Kyria.BucketCodec
open Kyria.Sha256 Kyria.Text
open Kyria.Store.MapStore (SameLimits updateReplica_sameLimits updateReplica_permanent
  updateReplica_updated updateReplica_keeps)

variable {σ τ : Type} (H : Hash)

/-! ### Calls to a peer -/

inductive PeerError
  | noReply
  | tooLarge
  | refused (msg : Bytes)
  | malformed

/-- A bulk string over the limit is refused by whoever decodes it. -/
def deliverable : Value → Bool
  | .bulkString (some b) => b.length ≤ maxBulkSize
  | _ => true

/-- `Peer.do`: one command to the peer, and its reply. -/
def call (peer : Handler τ) (amb : Ambient) (cmd : Command) :
    Except PeerError Value × Handler τ :=
  if cmd.args.all fun a => a.length ≤ maxBulkSize then
    let r := handle H peer amb cmd
    (match r.1 with
      | none => .error .noReply
      | some v => if deliverable v then .ok v else .error .tooLarge, r.2)
  else (.error .tooLarge, peer)

/-- The bytes of a bulk reply; anything else reads as none. -/
def bulkOf : Value → Except PeerError Bytes
  | .error msg => .error (.refused msg)
  | .bulkString (some b) => .ok b
  | _ => .ok []

/-- `Peer.Tree`; `none` if decoding the reply panics. -/
def fetchTree (peer : Handler τ) (amb : Ambient) (leaves : ℤ) :
    Option (Except PeerError Merkle.Tree) × Handler τ :=
  let r := call H peer amb { name := ascii "RTREE", args := [itoa leaves] }
  (match r.1.bind bulkOf with
    | .error e => some (.error e)
    | .ok b =>
      match Merkle.decode b with
      | .ok t => some (.ok t)
      | .error .errMalformed => some (.error .malformed)
      | .error .indexOutOfRange => none, r.2)

/-- `Peer.BucketEntries`. -/
def bucketEntries (peer : Handler τ) (amb : Ambient) (leaves : ℤ) (buckets : List ℤ) :
    Except PeerError Entries × Handler τ :=
  let r := call H peer amb
    { name := ascii "RBUCKET", args := [itoa leaves, encodeBuckets buckets] }
  (match r.1.bind bulkOf with
    | .error e => .error e
    | .ok b =>
      match decodeEntries b with
      | .ok entries => .ok entries
      | .error _ => .error .malformed, r.2)

/-! ### A round -/

/-- What a round meets: its own scan of the store, the two calls to the peer, the order of
the entries that come back, and the update of each key. -/
structure SyncEnv where
  scan : Env
  tree : Ambient
  bucket : Ambient
  order : VisitOrder (Bytes × Bytes)
  update : Bytes → Env

instance : Inhabited SyncEnv := ⟨⟨default, default, default, default, fun _ => default⟩⟩

inductive SyncOutcome
  | noTree (e : PeerError)
  | inSync
  | noBuckets (e : PeerError) (diffs : List ℤ)
  | reconciled (diffs : List ℤ)

/-- The entries folded in, one by one. A refused update is passed over. -/
def foldEntries (update : Bytes → Env) (m : MapStore σ) (entries : List (Bytes × Bytes)) :
    MapStore σ :=
  entries.foldl (fun m e => (foldIn m (update e.1) e.1 (siblingsOf e.2)).2) m

/-- `AntiEntropy.syncWith`; `none` if the node panics. -/
def syncWith (leaves : ℤ) (m : MapStore σ) (peer : Handler τ) (env : SyncEnv) :
    Option (SyncOutcome × MapStore σ × Handler τ) := do
  let t ← buildTree H leaves m env.scan
  let r := fetchTree H peer env.tree leaves
  match ← r.1 with
  | .error e => return (.noTree e, m, r.2)
  | .ok pt =>
    let diffs ← t.diff H pt
    if diffs.length = 0 then return (.inSync, m, r.2)
    else
      let b := bucketEntries H r.2 env.bucket leaves diffs
      match b.1 with
      | .error e => return (.noBuckets e diffs, m, b.2)
      | .ok entries =>
        return (.reconciled diffs, foldEntries env.update m (env.order.visit 0 entries.toList), b.2)

/-! ### What a store holds -/

/-- The value stored under a key, if any. -/
def valueAt (m : MapStore σ) (key : Bytes) : Option Bytes := (m.data[key]?).map Entry.value

lemma valueAt_of_keeps {m m' : MapStore σ} {key : Bytes} (h : m.Keeps m' key) :
    valueAt m' key = valueAt m key := by
  have h' := congrArg (Option.map Prod.fst) h
  rw [Option.map_map, Option.map_map] at h'
  exact h'

lemma blob_eq (m : MapStore σ) (key : Bytes) : m.blob key = (valueAt m key).getD [] := by
  unfold MapStore.blob valueAt
  cases m.data[key]? <;> rfl

lemma mem_of_valueAt {m : MapStore σ} {key blob : Bytes} (h : valueAt m key = some blob) :
    key ∈ m.data := by
  rw [valueAt, Option.map_eq_some_iff] at h
  obtain ⟨e, he, -⟩ := h
  exact (ExtTreeMap.getElem?_eq_some_iff.mp he).1

lemma valueAt_of_not_mem {m : MapStore σ} {key : Bytes} (h : key ∉ m.data) :
    valueAt m key = none := by
  rw [valueAt, ExtTreeMap.getElem?_eq_none h, Option.map_none]

lemma exists_valueAt {m : MapStore σ} {key : Bytes} (h : key ∈ m.data) :
    ∃ blob, valueAt m key = some blob :=
  ⟨_, by rw [valueAt, ExtTreeMap.getElem?_eq_some_getElem h, Option.map_some]⟩

lemma range_distinct (m : MapStore σ) (o : EntryOrder) (now : ℕ) :
    (m.range o now).Pairwise fun a b => ¬ compare a.1 b.1 = .eq := by
  refine (List.pairwise_map.mp (MapStore.nodup_keys_range m o now)).imp fun hne heq => hne ?_
  exact Std.LawfulEqOrd.compare_eq_iff_eq.mp heq

section Range

variable {m : MapStore σ} (hp : ∀ key, m.Permanent key) (o : EntryOrder) (now : ℕ)

include hp

lemma mem_range {key value : Bytes} :
    (key, value) ∈ m.range o now ↔ valueAt m key = some value := by
  rw [MapStore.mem_range_iff, valueAt, Option.map_eq_some_iff]
  refine exists_congr fun e => and_congr_right fun he => ?_
  exact and_iff_right (by simp [Entry.expired, hp key e he])

lemma range_eq_singleton {key value : Bytes}
    (h : ∀ k, valueAt m k = if k = key then some value else none) :
    m.range o now = [(key, value)] := by
  refine List.perm_singleton.mp ((List.perm_ext_iff_of_nodup (m.nodup_range o now)
    (List.nodup_singleton _)).mpr ?_)
  rintro ⟨k, w⟩
  rw [mem_range hp, h, List.mem_singleton, Prod.mk.injEq]
  by_cases hk : k = key
  · simp [hk, eq_comm]
  · simp [hk]

lemma range_eq_nil (h : ∀ k, valueAt m k = none) : m.range o now = [] := by
  refine List.eq_nil_iff_forall_not_mem.mpr ?_
  rintro ⟨k, w⟩ hmem
  rw [mem_range hp, h] at hmem
  cases hmem

end Range

/-! ### Comparing two stores -/

/-- The two stores hold the same entries in bucket `i`. -/
def SameBucket (k : ℕ) (m : MapStore σ) (p : MapStore τ) (i : ℕ) : Prop :=
  ∀ key, Merkle.bucketOf H k key = i → valueAt m key = valueAt p key

section Trees

variable {H} {leaves : ℤ} (hl : leaves ≤ 2 ^ 30) {m : MapStore σ} {p : MapStore τ}
  (hm : ∀ key, m.Permanent key) (hp : ∀ key, p.Permanent key)

include hl in
lemma buildTree_spec (m : MapStore σ) (env : Env) :
    ∃ t, buildTree H leaves m env = some t ∧ Merkle.Perfect (Merkle.depth leaves) t ∧
      (∀ i, Merkle.IsDigest (Merkle.leaf (Merkle.depth leaves) t i)) ∧
      ∀ i, Merkle.leaf (Merkle.depth leaves) t i =
        Merkle.bucketLeaf H (Merkle.depth leaves) (m.range env.entries env.now) i [] := by
  obtain ⟨t, ht, hperf, -, hdig, hleaf⟩ := Merkle.ofEntries_spec (H := H)
    (hl.trans (by norm_num)) (m.range env.entries env.now)
  exact ⟨t, ht, hperf, hdig, hleaf⟩

include hm hp in
lemma bucketLeaf_of_same {k i : ℕ} (h : SameBucket H k m p i) (o o' : EntryOrder) (now now' : ℕ) :
    Merkle.bucketLeaf H k (m.range o now) i [] = Merkle.bucketLeaf H k (p.range o' now') i [] := by
  refine Merkle.bucketLeaf_congr ?_ []
  refine (List.perm_ext_iff_of_nodup ((m.nodup_range o now).filter _)
    ((p.nodup_range o' now').filter _)).mpr ?_
  rintro ⟨key, value⟩
  rw [List.mem_filter, List.mem_filter, mem_range hm, mem_range hp]
  refine and_congr_left fun hi => ?_
  rw [h key (by simpa using hi)]

variable (H) in
/-- What `Diff` reports when the peer's tree has come over the wire. -/
def comparison (leaves : ℤ) (m : MapStore σ) (p : MapStore τ) (env env' : Env) :
    Option (List ℤ) := do
  let t ← buildTree H leaves m env
  let pt ← buildTree H leaves p env'
  let b ← pt.encode
  match Merkle.decode b with
  | .ok pt => t.diff H pt
  | .error _ => none

include hl hm hp in
/-- **A comparison reports only buckets in which the stores differ**, and never fails. -/
theorem comparison_spec (env env' : Env) :
    ∃ t pt b pt' ds, buildTree H leaves m env = some t ∧ buildTree H leaves p env' = some pt ∧
      pt.encode = some b ∧ Merkle.decode b = .ok pt' ∧ t.diff H pt' = some ds ∧
      comparison H leaves m p env env' = some ds ∧
      ∀ d ∈ ds, ∃ i < 2 ^ Merkle.depth leaves, d = (i : ℕ) ∧
        ¬ SameBucket H (Merkle.depth leaves) m p i := by
  obtain ⟨t, ht, hperf, -, hleaf⟩ := buildTree_spec (H := H) hl m env
  obtain ⟨pt, hpt, hperf', hdig, hleaf'⟩ := buildTree_spec (H := H) hl p env'
  have hlen : ∀ i < 2 ^ Merkle.depth leaves,
      (Merkle.leaf (Merkle.depth leaves) pt i).length < 2 ^ 32 := by
    intro i _
    rcases hdig i with h | h <;> simp [h]
  obtain ⟨b, pt', hb, hdec, hperf'', hsame⟩ := Merkle.decode_encode hperf' (Merkle.depth_le hl) hlen
  obtain ⟨ds, hds, hmem⟩ := Merkle.diff_spec (H := H) hperf hperf''
  refine ⟨t, pt, b, pt', ds, ht, hpt, hb, hdec, hds, ?_, fun d hd => ?_⟩
  · simp only [comparison, ht, hpt, hb, hdec, Option.bind_eq_bind, Option.bind_some]
    exact hds
  · obtain ⟨i, hi, hdi, hne⟩ := hmem d hd
    refine ⟨i, hi, hdi, fun hsb => hne ?_⟩
    rw [hsame i hi, hleaf, hleaf']
    exact bucketLeaf_of_same hm hp hsb _ _ _ _

end Trees

/-! ### What the peer replies -/

section Replies

variable {H} {peer : Handler τ} {leaves : ℤ} (hl₀ : 0 ≤ leaves) (hl : leaves ≤ 2 ^ 30)
  (hp : ∀ key, peer.store.Permanent key)

lemma handle_of_not_clustered (cmd : Command) (spec : CommandSpec)
    (hspec : commands (toUpper cmd.name) = some spec) (hop : spec.clusteredOp = false)
    (hargs : spec.minArgs ≤ cmd.args.length ∧ cmd.args.length ≤ spec.maxArgs)
    (h : Handler τ) (amb : Ambient) :
    handle H h amb cmd = ((runVerb H h amb cmd.args spec.run).1,
      { h with store := (runVerb H h amb cmd.args spec.run).2 }) := by
  have hnot : ¬ (cmd.args.length < spec.minArgs ∨ cmd.args.length > spec.maxArgs) := by omega
  have hred : redirect h spec (cmd.args.getD 0 []) = none := by
    unfold redirect
    cases h.router <;> simp [hop]
  have hco : coordinatorFor h spec = none := by simp [coordinatorFor, hop]
  unfold handle
  simp only [hspec, if_neg hnot, hred, hco]

lemma handle_rtree (peer : Handler τ) (amb : Ambient) (leaves : Bytes) :
    handle H peer amb { name := ascii "RTREE", args := [leaves] } =
      (rtree H peer.store amb.env leaves, peer) :=
  handle_of_not_clustered ⟨ascii "RTREE", [leaves]⟩ ⟨1, 1, false, .rtree⟩ rfl rfl (by simp) peer amb

lemma handle_rbucket (peer : Handler τ) (amb : Ambient) (leaves buckets : Bytes) :
    handle H peer amb { name := ascii "RBUCKET", args := [leaves, buckets] } =
      (rbucket H peer.store amb.env amb.buckets leaves buckets, peer) :=
  handle_of_not_clustered ⟨ascii "RBUCKET", [leaves, buckets]⟩ ⟨2, 2, false, .rbucket⟩ rfl rfl
    (by simp) peer amb

section Calls

include hl₀ hl

lemma atoi_itoa_leaves : atoi (itoa leaves) = some leaves := atoi_itoa hl₀ (by omega)

lemma length_itoa_leaves : (itoa leaves).length ≤ maxBulkSize :=
  (length_itoa_le (k := 9) hl₀ (by norm_num; omega)).trans (by decide)

lemma fetchTree_eq (amb : Ambient) {t t' : Merkle.Tree} {b : Bytes}
    (ht : buildTree H leaves peer.store amb.env = some t) (hb : t.encode = some b)
    (hdec : Merkle.decode b = .ok t') (hlen : b.length ≤ maxBulkSize) :
    fetchTree H peer amb leaves = (some (.ok t'), peer) := by
  have hreply : rtree H peer.store amb.env (itoa leaves) = some (.bulkString (some b)) := by
    simp [rtree, atoi_itoa_leaves hl₀ hl, ht, hb]
  have hcall : call H peer amb { name := ascii "RTREE", args := [itoa leaves] } =
      (.ok (.bulkString (some b)), peer) := by
    simp [call, length_itoa_leaves hl₀ hl, handle_rtree, hreply, deliverable, hlen]
  simp [fetchTree, hcall, Except.bind, bulkOf, hdec]

end Calls

/-- The entries of the store that lie in the buckets asked for. -/
def bucketsOf (H : Hash) (leaves : ℤ) (m : MapStore σ) (env : Env) (buckets : List ℤ) : Entries :=
  ((m.range env.entries env.now).filter fun e =>
    (Merkle.bucketOf H (Merkle.depth leaves) e.1 : ℤ) ∈ buckets).foldl
      (fun es e => es.insert e.1 e.2) ∅

include hp in
lemma mem_bucketsOf (env : Env) (buckets : List ℤ) {key blob : Bytes} :
    (key, blob) ∈ (bucketsOf H leaves peer.store env buckets).toList ↔
      valueAt peer.store key = some blob ∧
        (Merkle.bucketOf H (Merkle.depth leaves) key : ℤ) ∈ buckets := by
  rw [ExtTreeMap.mem_toList_iff_getElem?_eq_some, bucketsOf,
    getElem?_foldl_insert ((range_distinct _ _ _).filter _), List.mem_filter, mem_range hp]
  simp

include hl in
lemma entriesIn_eq {t : Merkle.Tree} (ht : Merkle.new leaves = some t) (env : Env)
    (buckets : List ℤ) (m : MapStore τ) :
    entriesIn H t buckets (m.range env.entries env.now) = bucketsOf H leaves m env buckets := by
  obtain ⟨t', ht', hperf, -⟩ := Merkle.new_spec (hl.trans (by norm_num))
  cases ht.symm.trans ht'
  simp only [entriesIn, bucketsOf, hperf.bucket ((Merkle.depth_le hl).trans (by norm_num))]

include hl₀ hl in
lemma rbucket_eq (m : MapStore τ) (env : Env) (o : VisitOrder (Bytes × Bytes)) {buckets : List ℤ}
    (hlen : buckets.length < 2 ^ 32) (hb : ∀ b ∈ buckets, 0 ≤ b ∧ b < 2 ^ 32) :
    rbucket H m env o (itoa leaves) (encodeBuckets buckets) =
      some (.bulkString (some (encodeEntries o (bucketsOf H leaves m env buckets)))) := by
  obtain ⟨t, ht, -⟩ := Merkle.new_spec (hl.trans (by norm_num))
  simp [rbucket, atoi_itoa_leaves hl₀ hl, decodeBuckets_encodeBuckets hlen hb, ht,
    entriesIn_eq hl ht]

include hl₀ hl hp in
lemma bucketEntries_eq (amb : Ambient) {buckets : List ℤ} (hb : ∀ b ∈ buckets, 0 ≤ b ∧ b < 2 ^ 32)
    (hkeys : ∀ key ∈ peer.store.data, key.length ≤ maxUint16)
    (hreq : (encodeBuckets buckets).length ≤ maxBulkSize)
    (hrep : (encodeEntries amb.buckets
      (bucketsOf H leaves peer.store amb.env buckets)).length ≤ maxBulkSize) :
    bucketEntries H peer amb leaves buckets =
      (.ok (bucketsOf H leaves peer.store amb.env buckets), peer) := by
  have hmax : maxBulkSize < 2 ^ 32 := by decide
  have hlen : buckets.length < 2 ^ 32 := by
    rw [length_encodeBuckets] at hreq
    omega
  obtain ⟨hsize, hblobs⟩ := sizes_of_length (hrep.trans_lt hmax)
  have hdec : decodeEntries (encodeEntries amb.buckets
      (bucketsOf H leaves peer.store amb.env buckets)) =
        .ok (bucketsOf H leaves peer.store amb.env buckets) := by
    refine decodeEntries_encodeEntries _ hsize fun e he => ⟨?_, hblobs e he⟩
    exact hkeys e.1 (mem_of_valueAt ((mem_bucketsOf hp amb.env buckets).mp he).1)
  have hcall : call H peer amb
      { name := ascii "RBUCKET", args := [itoa leaves, encodeBuckets buckets] } =
      (.ok (.bulkString (some (encodeEntries amb.buckets
        (bucketsOf H leaves peer.store amb.env buckets)))), peer) := by
    simp [call, length_itoa_leaves hl₀ hl, hreq, handle_rbucket,
      rbucket_eq hl₀ hl peer.store amb.env _ hlen hb, deliverable, hrep]
  simp [bucketEntries, hcall, Except.bind, bulkOf, hdec]

end Replies

/-! ### Folding the entries in -/

/-- What is stored under a key once a peer's blob has been folded in. -/
def foldedValue (m : MapStore σ) (env : Env) (key blob : Bytes) : Bytes :=
  encode env.clocks ((siblingsOf blob).foldl reconcile (siblings m key))

/-- The entries of `l`, and no others, have been folded in. -/
structure Folded (update : Bytes → Env) (m m' : MapStore σ) (l : List (Bytes × Bytes)) : Prop where
  limits : SameLimits m m'
  permanent : ∀ key, m'.Permanent key
  here : ∀ e ∈ l, valueAt m' e.1 = some (foldedValue m (update e.1) e.1 e.2)
  others : ∀ key, (∀ e ∈ l, e.1 ≠ key) → m.Keeps m' key

section Fold

variable {m : MapStore σ} (hm : ∀ key, m.Permanent key) {keys : List Bytes}
  (hroom : m.HasRoom keys)

include hm hroom

lemma foldIn_folded (update : Bytes → Env) {e : Bytes × Bytes} (hk : e.1 ∈ keys)
    (hacc : m.Accepts e.1 (foldedValue m (update e.1) e.1 e.2)) :
    Folded update m (foldIn m (update e.1) e.1 (siblingsOf e.2)).2 [e] := by
  obtain ⟨env, henv⟩ : ∃ env, env = update e.1 := ⟨_, rfl⟩
  have hlim := updateReplica_sameLimits m env.entries env.now e.1
    fun old => encode env.clocks ((siblingsOf e.2).foldl reconcile (siblingsOf old))
  have hperm := updateReplica_permanent env.entries env.now
    (fun old => encode env.clocks ((siblingsOf e.2).foldl reconcile (siblingsOf old))) (hm e.1)
  have hupd := updateReplica_updated env.entries env.now
    (fun old => encode env.clocks ((siblingsOf e.2).foldl reconcile (siblingsOf old))) (hm e.1)
  have hkeep := fun k => updateReplica_keeps m env.entries env.now e.1
    (fun old => encode env.clocks ((siblingsOf e.2).foldl reconcile (siblingsOf old)))
    (hroom.room hk) (k := k)
  rw [← henv] at hacc ⊢
  unfold foldIn revise
  generalize m.updateReplica env.entries env.now e.1
    (fun old => encode env.clocks ((siblingsOf e.2).foldl reconcile (siblingsOf old))) = r at *
  obtain ⟨res, m'⟩ := r
  refine ⟨hlim, fun key => ?_, ?_, ?_⟩
  · by_cases hkey : key = e.1
    · exact hkey ▸ hperm
    · exact (hkeep key hkey).permanent (hm key)
  · intro e' he'
    rw [List.mem_singleton.mp he', ← henv]
    cases hupd with
    | done _ hblob hc =>
      obtain ⟨blob, hb⟩ := exists_valueAt (ExtTreeMap.contains_iff_mem.mp hc)
      rw [hb, foldedValue, siblings, ← hblob, blob_eq, hb, Option.getD_some]
    | refused err hrej _ => exact absurd hacc hrej
  · intro key hne
    exact hkeep key (hne e (by simp)).symm

/-- **Entries with distinct keys are folded in one by one**, each into what its key held. -/
theorem foldEntries_folded (update : Bytes → Env) {l : List (Bytes × Bytes)}
    (hl : l.Pairwise fun a b => a.1 ≠ b.1) (hk : ∀ e ∈ l, e.1 ∈ keys)
    (hacc : ∀ e ∈ l, m.Accepts e.1 (foldedValue m (update e.1) e.1 e.2)) :
    Folded update m (foldEntries update m l) l := by
  induction l generalizing m with
  | nil => exact ⟨.refl m, hm, by simp, fun key _ => .refl m key⟩
  | cons e l ih =>
    obtain ⟨hhead, hl⟩ := List.pairwise_cons.mp hl
    have hstep := foldIn_folded hm hroom update (hk e (by simp)) (hacc e (by simp))
    obtain ⟨m₁, hm₁⟩ : ∃ m₁, m₁ = (foldIn m (update e.1) e.1 (siblingsOf e.2)).2 := ⟨_, rfl⟩
    rw [← hm₁] at hstep
    -- the keys still to come hold what they held before this step
    have hkeep : ∀ k, k ≠ e.1 → m.Keeps m₁ k := fun k hne =>
      hstep.others k (by simpa using hne.symm)
    have hsame : ∀ e' ∈ l, foldedValue m₁ (update e'.1) e'.1 e'.2 =
        foldedValue m (update e'.1) e'.1 e'.2 := by
      intro e' he'
      rw [foldedValue, foldedValue, siblings_of_keeps (hkeep e'.1 (hhead e' he').symm)]
    have hroom₁ : m₁.HasRoom keys := hroom.of_sub hstep.limits fun k hmem => by
      by_cases hke : k = e.1
      · exact .inr (hke ▸ hk e (by simp))
      · exact .inl ((hkeep k hke).mem_iff.mp hmem)
    have hrest := ih hstep.permanent hroom₁ hl (fun e' he' => hk e' (by simp [he']))
      fun e' he' => by
        rw [hsame e' he', hstep.limits.accepts_iff]
        exact hacc e' (by simp [he'])
    have hfold : foldEntries update m (e :: l) = foldEntries update m₁ l := by
      rw [hm₁]
      rfl
    rw [hfold]
    refine ⟨hstep.limits.trans hrest.limits, hrest.permanent, ?_, ?_⟩
    · intro e' he'
      rcases List.mem_cons.mp he' with rfl | he'
      · rw [valueAt_of_keeps (hrest.others e'.1 fun x hx => (hhead x hx).symm)]
        exact hstep.here e' (by simp)
      · rw [hrest.here e' he', hsame e' he']
    · intro key hne
      have h₁ := hkeep key (hne e (by simp)).symm
      have h₂ := hrest.others key fun x hx => hne x (by simp [hx])
      exact h₁.trans h₂

end Fold

/-! ### A round against a peer -/

/-- A store of sibling sets as `UpdateReplica` leaves them. -/
structure Coded (m : MapStore σ) : Prop where
  permanent : ∀ key, m.Permanent key
  encoded : ∀ key blob, valueAt m key = some blob →
    ∃ o vs, blob = encode o vs ∧ Encodable vs ∧ Antichain clk vs

/-- The versions the two stores hold under a key. -/
def held (m : MapStore σ) (p : MapStore τ) (key : Bytes) : Set Version :=
  {v | v ∈ siblings m key} ∪ {v | v ∈ siblings p key}

/-- The local set of a key once the peer's has been folded in. -/
def joined (m : MapStore σ) (p : MapStore τ) (key : Bytes) : List Version :=
  (siblings p key).foldl reconcile (siblings m key)

/-- No two different buckets happen to hash alike. -/
def Reports (leaves : ℤ) (m : MapStore σ) (p : MapStore τ) (env env' : Env) : Prop :=
  ∀ ds, comparison H leaves m p env env' = some ds → ∀ key, valueAt m key ≠ valueAt p key →
    (Merkle.bucketOf H (Merkle.depth leaves) key : ℤ) ∈ ds

/-- No message and no value of the round is rejected for its size. -/
structure Unrejected (leaves : ℤ) (m : MapStore σ) (peer : Handler τ) (env : SyncEnv) : Prop where
  tree : ∀ v, rtree H peer.store env.tree.env (itoa leaves) = some v → deliverable v = true
  request : ∀ ds, comparison H leaves m peer.store env.scan env.tree.env = some ds →
    (encodeBuckets ds).length ≤ maxBulkSize
  reply : ∀ ds v, comparison H leaves m peer.store env.scan env.tree.env = some ds →
    rbucket H peer.store env.bucket.env env.bucket.buckets (itoa leaves) (encodeBuckets ds) =
      some v → deliverable v = true
  keys : ∀ key ∈ peer.store.data, key.length ≤ maxUint16
  stored : ∀ ds, comparison H leaves m peer.store env.scan env.tree.env = some ds →
    ∀ key ∈ peer.store.data, (Merkle.bucketOf H (Merkle.depth leaves) key : ℤ) ∈ ds →
      m.Accepts key (encode (env.update key).clocks (joined m peer.store key)) ∧
        (joined m peer.store key).length < 2 ^ 32

/-- What a round does to the local store: it takes in all that the peer holds in the buckets
that differ. -/
structure Synced (k : ℕ) (m m' : MapStore σ) (p : MapStore τ) (update : Bytes → Env) : Prop where
  limits : SameLimits m m'
  permanent : ∀ key, m'.Permanent key
  taken : ∀ key, ¬ SameBucket H k m p (Merkle.bucketOf H k key) → key ∈ p.data →
    valueAt m' key = some (encode (update key).clocks (joined m p key)) ∧
      (joined m p key).length < 2 ^ 32
  kept : ∀ key, SameBucket H k m p (Merkle.bucketOf H k key) ∨ key ∉ p.data → m.Keeps m' key

section Round

variable {H} {leaves : ℤ} (hl₀ : 0 ≤ leaves) (hl : leaves ≤ 2 ^ 30) {m : MapStore σ}
  {peer : Handler τ} (hm : ∀ key, m.Permanent key) (hp : ∀ key, peer.store.Permanent key)

lemma siblingsOf_value {m : MapStore σ} {key blob : Bytes} (h : valueAt m key = some blob) :
    siblingsOf blob = siblings m key := by
  rw [siblings, blob_eq, h, Option.getD_some]

include hl hm hp in
lemma mem_comparison {env env' : Env} {ds : List ℤ}
    (hds : comparison H leaves m peer.store env env' = some ds)
    (hrep : Reports H leaves m peer.store env env') (key : Bytes) :
    (Merkle.bucketOf H (Merkle.depth leaves) key : ℤ) ∈ ds ↔
      ¬ SameBucket H (Merkle.depth leaves) m peer.store
        (Merkle.bucketOf H (Merkle.depth leaves) key) := by
  obtain ⟨-, -, -, -, ds', -, -, -, -, -, hcmp, hdiff⟩ := comparison_spec hl hm hp env env' (H := H)
  cases hds.symm.trans hcmp
  constructor
  · intro hmem
    obtain ⟨i, -, hi, hne⟩ := hdiff _ hmem
    rwa [Int.natCast_inj.mp hi]
  · intro hne
    obtain ⟨key', hkey', hval⟩ : ∃ key', Merkle.bucketOf H (Merkle.depth leaves) key' =
        Merkle.bucketOf H (Merkle.depth leaves) key ∧ valueAt m key' ≠ valueAt peer.store key' := by
      simpa [SameBucket] using hne
    rw [← hkey']
    exact hrep ds hcmp key' hval

include hl₀ hl hp in
lemma Unrejected.fetched {env : SyncEnv} (hun : Unrejected H leaves m peer env) {ds : List ℤ}
    (hcmp : comparison H leaves m peer.store env.scan env.tree.env = some ds)
    (hbuckets : ∀ d ∈ ds, 0 ≤ d ∧ d < 2 ^ 32) :
    bucketEntries H peer env.bucket leaves ds =
      (.ok (bucketsOf H leaves peer.store env.bucket.env ds), peer) := by
  have hreq := hun.request ds hcmp
  have hlen : ds.length < 2 ^ 32 := by
    have hmax : maxBulkSize < 2 ^ 32 := by decide
    rw [length_encodeBuckets] at hreq
    omega
  have hreply := hun.reply ds _ hcmp (rbucket_eq hl₀ hl peer.store env.bucket.env _ hlen hbuckets)
  exact bucketEntries_eq hl₀ hl hp env.bucket hbuckets hun.keys hreq
    (by simpa [deliverable] using hreply)

include hm hp in
lemma Unrejected.synced {env : SyncEnv} (hun : Unrejected H leaves m peer env) {ds : List ℤ}
    (hcmp : comparison H leaves m peer.store env.scan env.tree.env = some ds)
    (hmem : ∀ key, (Merkle.bucketOf H (Merkle.depth leaves) key : ℤ) ∈ ds ↔
      ¬ SameBucket H (Merkle.depth leaves) m peer.store
        (Merkle.bucketOf H (Merkle.depth leaves) key))
    {keys : List Bytes} (hroom : m.HasRoom keys) (hkeys : ∀ key ∈ peer.store.data, key ∈ keys)
    {es : List (Bytes × Bytes)}
    (hes : es = env.order.visit 0 (bucketsOf H leaves peer.store env.bucket.env ds).toList) :
    Synced H (Merkle.depth leaves) m (foldEntries env.update m es) peer.store env.update := by
  have hes_mem : ∀ key blob, (key, blob) ∈ es ↔ valueAt peer.store key = some blob ∧
      (Merkle.bucketOf H (Merkle.depth leaves) key : ℤ) ∈ ds := by
    intro key blob
    rw [hes, env.order.mem_visit, mem_bucketsOf hp]
  have hdistinct : es.Pairwise fun a b => a.1 ≠ b.1 := by
    rw [hes]
    exact (distinct_of_perm (env.order.perm 0 _)).imp fun hne he => hne (by simp [he])
  have hvalue : ∀ key blob, (key, blob) ∈ es → ∀ env', foldedValue m env' key blob =
      encode env'.clocks (joined m peer.store key) := by
    intro key blob he env'
    rw [foldedValue, siblingsOf_value ((hes_mem key blob).mp he).1, joined]
  have hfolded := foldEntries_folded hm hroom env.update hdistinct
    (fun e he => hkeys e.1 (mem_of_valueAt ((hes_mem e.1 e.2).mp he).1))
    fun e he => by
      obtain ⟨hv, hd⟩ := (hes_mem e.1 e.2).mp he
      rw [hvalue e.1 e.2 he]
      exact (hun.stored ds hcmp e.1 (mem_of_valueAt hv) hd).1
  refine ⟨hfolded.limits, hfolded.permanent, ?_, ?_⟩
  · intro key hne hkey
    obtain ⟨blob, hblob⟩ := exists_valueAt hkey
    have he := (hes_mem key blob).mpr ⟨hblob, (hmem key).mpr hne⟩
    rw [hfolded.here _ he, hvalue key blob he]
    exact ⟨rfl, (hun.stored ds hcmp key hkey ((hmem key).mpr hne)).2⟩
  · intro key hor
    refine hfolded.others key fun e he => ?_
    rintro rfl
    obtain ⟨hv, hd⟩ := (hes_mem e.1 e.2).mp he
    rcases hor with hsame | habs
    · exact (hmem e.1).mp hd hsame
    · exact habs (mem_of_valueAt hv)

include hl₀ hl hm hp in
/-- **A round goes through** and takes in what the peer holds in the buckets that differ. -/
theorem syncWith_synced {env : SyncEnv} (hrep : Reports H leaves m peer.store env.scan env.tree.env)
    (hun : Unrejected H leaves m peer env) {keys : List Bytes} (hroom : m.HasRoom keys)
    (hkeys : ∀ key ∈ peer.store.data, key ∈ keys) :
    ∃ out m', syncWith H leaves m peer env = some (out, m', peer) ∧
      Synced H (Merkle.depth leaves) m m' peer.store env.update := by
  obtain ⟨t, pt, b, pt', ds, ht, hpt, hb, hdec, hdiff, hcmp, hrange⟩ :=
    comparison_spec hl hm hp env.scan env.tree.env (H := H)
  have hmem := mem_comparison hl hm hp hcmp hrep
  have htree : b.length ≤ maxBulkSize := by
    have := hun.tree (.bulkString (some b)) (by simp [rtree, atoi_itoa_leaves hl₀ hl, hpt, hb])
    simpa [deliverable] using this
  have hfetch := fetchTree_eq hl₀ hl env.tree hpt hb hdec htree
  by_cases hnil : ds = []
  · subst hnil
    refine ⟨.inSync, m, by simp [syncWith, ht, hfetch, hdiff], .refl m, hm, ?_,
      fun key _ => .refl m key⟩
    intro key hne
    have := (hmem key).mpr hne
    simp at this
  · have hbuckets : ∀ d ∈ ds, 0 ≤ d ∧ d < 2 ^ 32 := by
      intro d hd
      obtain ⟨i, hi, rfl, -⟩ := hrange d hd
      have : 2 ^ Merkle.depth leaves ≤ 2 ^ 30 :=
        Nat.pow_le_pow_right (by norm_num) (Merkle.depth_le hl)
      omega
    have hget := hun.fetched hl₀ hl hp hcmp hbuckets
    refine ⟨.reconciled ds, _, ?_, hun.synced hm hp hcmp hmem hroom hkeys rfl⟩
    simp [syncWith, ht, hfetch, hdiff, hnil, hget]

end Round

/-! ### The join -/

section Join

variable {H} {k : ℕ} {m m' : MapStore σ} {p : MapStore τ} {update : Bytes → Env}

lemma Coded.antichain (hm : Coded m) (key : Bytes) : Antichain clk (siblings m key) := by
  rw [siblings, blob_eq]
  cases hv : valueAt m key with
  | none => exact List.Pairwise.nil
  | some blob =>
    obtain ⟨o, vs, rfl, henc, hanti⟩ := hm.encoded key blob hv
    rwa [Option.getD_some, siblingsOf_encode o henc]

lemma isMaxima_joined (hm : Coded m) (p : MapStore τ) (key : Bytes) :
    IsMaxima clk (joined m p key) (held m p key) := by
  have h := (hm.antichain key).isMaxima.foldl (siblings p key)
  rwa [← reconcile_eq] at h

lemma fits_joined {m : MapStore σ} {p : MapStore τ} {key : Bytes} {v : Version}
    (hv : v ∈ joined m p key) : Fits v := by
  rw [joined, reconcile_eq] at hv
  rcases mem_of_mem_foldl hv with hv | hv <;> exact fits_of_mem_siblings hv

lemma encodable_joined (m : MapStore σ) (p : MapStore τ) {key : Bytes}
    (h : (joined m p key).length < 2 ^ 32) : Encodable (joined m p key) :=
  ⟨h, fun _ hv => fits_joined hv⟩

/-- **A round leaves the join under every key**, also where it had nothing to do. -/
lemma Synced.siblings_eq (h : Synced H k m m' p update) (hm : Coded m) (key : Bytes) :
    siblings m' key = joined m p key := by
  by_cases hkey : key ∈ p.data
  · by_cases hsame : SameBucket H k m p (Merkle.bucketOf H k key)
    · have hsib : siblings p key = siblings m key := by
        rw [siblings, siblings, blob_eq, blob_eq, hsame key rfl]
      rw [siblings_of_keeps (h.kept key (.inl hsame)), joined, hsib, reconcile_eq]
      exact ((hm.antichain key).isMaxima.foldl_of_mem fun _ hx => hx).symm
    · obtain ⟨hval, hlen⟩ := h.taken key hsame hkey
      rw [siblings, blob_eq, hval, Option.getD_some]
      exact siblingsOf_encode _ (encodable_joined m p hlen)
  · have hnone : p.data[key]? = none := by simpa using hkey
    rw [siblings_of_keeps (h.kept key (.inr hkey)), joined,
      siblings_of_blob_eq_nil (blob_of_none hnone), List.foldl_nil]

end Join

/-! ### Stores with a single key -/

/-- The store with nothing but one sibling set. -/
def holding (m : MapStore σ) (key : Bytes) (vs : List Version) : MapStore σ :=
  { m with data := (∅ : ExtTreeMap Bytes Entry).insert key ⟨encode default vs, 0, 0⟩ }

section Holding

variable (m : MapStore σ) (key : Bytes) (vs : List Version)

lemma valueAt_holding (k : Bytes) :
    valueAt (holding m key vs) k = if k = key then some (encode default vs) else none := by
  simp only [valueAt, holding, ExtTreeMap.getElem?_insert, Std.LawfulEqOrd.compare_eq_iff_eq,
    eq_comm (a := key)]
  split_ifs <;> simp

variable {vs}

lemma siblings_holding (h : Encodable vs) (k : Bytes) :
    siblings (holding m key vs) k = if k = key then vs else [] := by
  rw [siblings, blob_eq, valueAt_holding]
  split_ifs
  · exact siblingsOf_encode default h
  · rfl

lemma coded_holding (h : Encodable vs) (h' : Antichain clk vs) : Coded (holding m key vs) where
  permanent k e he := by
    simp only [holding, ExtTreeMap.getElem?_insert] at he
    split_ifs at he
    · cases he
      rfl
    · simp at he
  encoded k blob hv := by
    rw [valueAt_holding] at hv
    split_ifs at hv
    cases hv
    exact ⟨default, vs, rfl, h, h'⟩

end Holding

lemma mem_holding {m : MapStore σ} {key k : Bytes} {vs : List Version}
    (h : k ∈ (holding m key vs).data) : k = key := by
  obtain ⟨blob, hb⟩ := exists_valueAt h
  rw [valueAt_holding] at hb
  split_ifs at hb with hk
  exact hk

section Evaluated

variable {H} {leaves : ℤ} {m : MapStore σ} {peer : Handler τ} {env : SyncEnv} {ds : List ℤ}

lemma reports_of_comparison {p : MapStore τ} {e e' : Env}
    (hcmp : comparison H leaves m p e e' = some ds)
    (h : ∀ key, (Merkle.bucketOf H (Merkle.depth leaves) key : ℤ) ∈ ds) :
    Reports H leaves m p e e' := by
  intro ds' hds' key _
  cases hcmp.symm.trans hds'
  exact h key

lemma unrejected_of_comparison
    (hcmp : comparison H leaves m peer.store env.scan env.tree.env = some ds)
    (htree : (rtree H peer.store env.tree.env (itoa leaves)).all deliverable = true)
    (hreq : (encodeBuckets ds).length ≤ maxBulkSize)
    (hreply : (rbucket H peer.store env.bucket.env env.bucket.buckets (itoa leaves)
      (encodeBuckets ds)).all deliverable = true)
    (hstored : ∀ key ∈ peer.store.data, key.length ≤ maxUint16 ∧
      m.Accepts key (encode (env.update key).clocks (joined m peer.store key)) ∧
        (joined m peer.store key).length < 2 ^ 32) :
    Unrejected H leaves m peer env where
  tree v hv := by rwa [hv] at htree
  request ds' hds' := by
    cases hcmp.symm.trans hds'
    exact hreq
  reply ds' v hds' hv := by
    cases hcmp.symm.trans hds'
    rwa [hv] at hreply
  keys key hk := (hstored key hk).1
  stored _ _ key hk _ := (hstored key hk).2

end Evaluated

lemma bucketOf_one (H : Hash) (key : Bytes) :
    (Merkle.bucketOf H (Merkle.depth 1) key : ℤ) ∈ [(0 : ℤ)] := by
  simp [Merkle.bucketOf, Merkle.depth, Nat.mod_one]

/-- The first version a node writes. -/
def writtenBy (node value : Bytes) : Version :=
  { value, clock := (∅ : Vclock.Clock).insert node 1 }

lemma encodable_writtenBy : Encodable [writtenBy [97] [1]] ∧ Encodable [writtenBy [98] [2]] := by
  refine ⟨⟨by decide, ?_⟩, ⟨by decide, ?_⟩⟩ <;> intro v hv <;> rw [List.mem_singleton.mp hv] <;>
    exact ⟨by decide, by decide +kernel, by decide +kernel, fun _ => rfl⟩

lemma held_writtenBy (m : MapStore σ) (p : MapStore τ) (k k' key : Bytes) :
    (held (holding m k [writtenBy [97] [1]]) (holding p k' [writtenBy [98] [2]]) key).InjOn
      clk := by
  have hpair : Set.InjOn clk {writtenBy [97] [1], writtenBy [98] [2]} := by
    have hne : clk (writtenBy [97] [1]) [97] ≠ clk (writtenBy [98] [2]) [97] := by decide +kernel
    rintro v (rfl | rfl) w (rfl | rfl) he
    · rfl
    · exact absurd (congrFun he [97]) hne
    · exact absurd (congrFun he [97]).symm hne
    · rfl
  refine hpair.mono ?_
  rintro v (hv | hv)
  · rw [Set.mem_ofPred_eq, siblings_holding m k encodable_writtenBy.1] at hv
    split_ifs at hv
    · exact .inl (List.mem_singleton.mp hv)
    · simp at hv
  · rw [Set.mem_ofPred_eq, siblings_holding p k' encodable_writtenBy.2] at hv
    split_ifs at hv
    · exact .inr (List.mem_singleton.mp hv)
    · simp at hv

lemma coded_writtenBy (m : MapStore σ) (p : MapStore τ) (k k' : Bytes) :
    Coded (holding m k [writtenBy [97] [1]]) ∧ Coded (holding p k' [writtenBy [98] [2]]) :=
  ⟨coded_holding m k encodable_writtenBy.1 (List.pairwise_singleton _ _),
    coded_holding p k' encodable_writtenBy.2 (List.pairwise_singleton _ _)⟩

/-! ### The round as a whole -/

/-- The versions the stores hold under a key that no other held version succeeds. -/
def maxima (m : MapStore σ) (p : MapStore τ) (key : Bytes) : Set Version :=
  {v | v ∈ held m p key ∧ ∀ w ∈ held m p key, ¬ clk v < clk w}

/-- **A round computes the join**, if nothing has to be evicted for what it takes in. -/
theorem syncWith_joins {H : Hash} {leaves : ℤ} (hl₁ : 1 ≤ leaves) (hl : leaves ≤ 2 ^ 30)
    {m : MapStore σ} {peer : Handler τ} (hm : Coded m) (hp : Coded peer.store)
    (hinj : ∀ key, (held m peer.store key).InjOn clk) {env : SyncEnv}
    (hrep : Reports H leaves m peer.store env.scan env.tree.env)
    (hun : Unrejected H leaves m peer env) {keys : List Bytes} (hroom : m.HasRoom keys)
    (hkeys : ∀ key ∈ peer.store.data, key ∈ keys) :
    ∃ out m', syncWith H leaves m peer env = some (out, m', peer) ∧
      (∀ key v, v ∈ siblings m' key ↔ v ∈ maxima m peer.store key) ∧
      (∀ key S, S.Nodup → (∀ v, v ∈ S ↔ v ∈ maxima m peer.store key) →
        equal (siblings m' key) S = true) ∧
      (∀ key, key ∉ peer.store.data → valueAt m' key = valueAt m key) ∧
      ∀ key ∈ m.data, key ∈ m'.data := by
  obtain ⟨out, m', hsync, hs⟩ := syncWith_synced (by omega) hl hm.permanent hp.permanent hrep hun
    hroom hkeys
  have hmax : ∀ key, IsMaxima clk (siblings m' key) (held m peer.store key) := fun key => by
    rw [hs.siblings_eq hm key]
    exact isMaxima_joined hm peer.store key
  have hmem : ∀ key v, v ∈ siblings m' key ↔ v ∈ maxima m peer.store key := fun key =>
    (hmax key).mem_iff (hinj key)
  refine ⟨out, m', hsync, hmem, fun key S hnd hS => ?_, fun key hkey => ?_, fun key hkey => ?_⟩
  · refine equal_of_perm ?_
    refine (List.perm_ext_iff_of_nodup (hmax key).antichain.nodup hnd).mpr fun v => ?_
    rw [hmem key v, hS v]
  · exact valueAt_of_keeps (hs.kept key (.inr hkey))
  · by_cases hpk : key ∈ peer.store.data ∧ ¬ SameBucket H (Merkle.depth leaves) m peer.store
        (Merkle.bucketOf H (Merkle.depth leaves) key)
    · exact mem_of_valueAt (hs.taken key hpk.2 hpk.1).1
    · exact (hs.kept key (by tauto)).mem_iff.mpr hkey

/-- A node that has written one key and nothing else. -/
def nodeWith (key node value : Bytes) : Handler Unit where
  store := holding { state := () } key [writtenBy node value]

/-- Two nodes that took concurrent writes of one key. -/
theorem syncWith_joins_concurrent :
    ∃ out m', syncWith sha256 1 (nodeWith [107] [97] [1]).store (nodeWith [107] [98] [2]) default =
        some (out, m', nodeWith [107] [98] [2]) ∧
      ∀ v, v ∈ siblings m' [107] ↔
        v ∈ maxima (nodeWith [107] [97] [1]).store (nodeWith [107] [98] [2]).store [107] := by
  have hcmp : comparison sha256 1 (nodeWith [107] [97] [1]).store (nodeWith [107] [98] [2]).store
      default default = some [0] := by decide +kernel
  have hcoded : Coded (nodeWith [107] [97] [1]).store ∧ Coded (nodeWith [107] [98] [2]).store :=
    coded_writtenBy { state := () } { state := () } [107] [107]
  have hrep : Reports sha256 1 (nodeWith [107] [97] [1]).store (nodeWith [107] [98] [2]).store
      (default : SyncEnv).scan (default : SyncEnv).tree.env :=
    reports_of_comparison hcmp (bucketOf_one sha256)
  have hun : Unrejected sha256 1 (nodeWith [107] [97] [1]).store (nodeWith [107] [98] [2])
      default :=
    unrejected_of_comparison hcmp (by decide +kernel) (by decide) (by decide +kernel)
      fun key hkey => by
        rw [mem_holding hkey]
        decide +kernel
  have hroom : (nodeWith [107] [97] [1]).store.HasRoom [[107]] := .inl rfl
  obtain ⟨out, m', hsync, hmem, -⟩ := syncWith_joins (by norm_num) (by norm_num) hcoded.1 hcoded.2
    (held_writtenBy _ _ _ _) hrep hun hroom fun key hkey => by simp [mem_holding hkey]
  exact ⟨out, m', hsync, hmem [107]⟩

/-- A store that is full with one key. -/
def capped : MapStore UInt64 :=
  holding { state := 0, maxEntries := 1, policy := some lru } [97] [writtenBy [97] [1]]

/-- A store at its cap gives up a key for one that comes in. -/
theorem syncWith_evicts :
    Coded capped ∧ Coded (nodeWith [98] [98] [2]).store ∧
    (∀ key, (held capped (nodeWith [98] [98] [2]).store key).InjOn clk) ∧
    Reports sha256 1 capped (nodeWith [98] [98] [2]).store default default ∧
    Unrejected sha256 1 capped (nodeWith [98] [98] [2]) default ∧
    [97] ∈ capped.data ∧
    (syncWith sha256 1 capped (nodeWith [98] [98] [2]) default).map
      (fun r => decide ([97] ∈ r.2.1.data)) = some false := by
  have hcmp : comparison sha256 1 capped (nodeWith [98] [98] [2]).store default default =
      some [0] := by decide +kernel
  have hcoded := coded_writtenBy { state := 0, maxEntries := 1, policy := some lru }
    { state := () } [97] [98]
  refine ⟨hcoded.1, hcoded.2, held_writtenBy _ _ _ _,
    reports_of_comparison hcmp (bucketOf_one sha256),
    unrejected_of_comparison hcmp (by decide +kernel) (by decide) (by decide +kernel)
      fun key hkey => ?_, by decide +kernel, by decide +kernel⟩
  rw [mem_holding hkey]
  decide +kernel

end Kyria.Server
