import Kyria.AntiEntropy
import Kyria.LeafCount
import Kyria.Replies

/-!
How large the reply to a command gets, told from the command, the store, the members and what
peers and the telemetry contribute; and with that, which commands are answered with one value.

Most replies are a short line. What can grow beyond the decoder's limits are the names that are
quoted, a stored value, the list of members, and the tree and the entries that peers ask for.
-/

namespace Kyria.Server

open Std (ExtTreeMap)
open Kyria.Lib.Cursor Kyria.Lib.MapOrder Kyria.Lib.Maxima Kyria.Binenc Kyria.BucketCodec
open Kyria.Text Kyria.Protocol Kyria.Routing Kyria.Sha256 Kyria.Store Kyria.Version Kyria.Replica
open Kyria.Coordinator

variable {σ : Type} (H : Hash)

/-! ### Trees and entries on the wire -/

/-- How many leaves of a tree of depth `k` the entries fall into. -/
def occupied (k : ℕ) (entries : List (Bytes × Bytes)) : ℕ :=
  (entries.map fun e => Merkle.bucketOf H k e.1).toFinset.card

/-- The bytes of one entry; a key too long for its length field is left out. -/
def entrySize (e : Bytes × Bytes) : ℕ :=
  (if e.1.length ≤ maxUint16 then 2 + e.1.length else 0) + (4 + e.2.length)

section Tree

variable {H} {k : ℕ}

lemma length_foldl_mix {l : Bytes} (hl : l.length = 32) (es : List (Bytes × Bytes)) :
    (es.foldl (fun l e => Merkle.mix l (Merkle.Tree.entryHash H e.1 e.2)) l).length = 32 := by
  induction es generalizing l with
  | nil => exact hl
  | cons e es ih => exact ih (Merkle.length_mix (.inr hl) (Merkle.length_entryHash H _ _))

lemma length_bucketLeaf (entries : List (Bytes × Bytes)) (i : ℕ) :
    (Merkle.bucketLeaf H k entries i []).length =
      if i ∈ (entries.map fun e => Merkle.bucketOf H k e.1).toFinset then 32 else 0 := by
  unfold Merkle.bucketLeaf
  rcases hes : entries.filter fun e => Merkle.bucketOf H k e.1 = i with _ | ⟨e, es⟩
  · rw [if_neg (by simpa [List.filter_eq_nil_iff] using hes), hes, List.foldl_nil, List.length_nil]
  · have he : e ∈ entries.filter fun e => Merkle.bucketOf H k e.1 = i := by simp [hes]
    rw [List.mem_filter, decide_eq_true_eq] at he
    rw [if_pos (by simpa using ⟨e.1, ⟨e.2, he.1⟩, he.2⟩), hes, List.foldl_cons]
    exact length_foldl_mix (Merkle.length_mix (.inl rfl) (Merkle.length_entryHash H _ _)) es

lemma sum_length_leaves (entries : List (Bytes × Bytes)) :
    ((List.range (2 ^ k)).map fun i => 4 + (Merkle.bucketLeaf H k entries i []).length).sum =
      4 * 2 ^ k + 32 * occupied H k entries := by
  have hsub : (entries.map fun e => Merkle.bucketOf H k e.1).toFinset ⊆ Finset.range (2 ^ k) := by
    intro i hi
    obtain ⟨e, -, rfl⟩ := List.mem_map.mp (List.mem_toFinset.mp hi)
    exact Finset.mem_range.mpr (Merkle.bucketOf_lt H k e.1)
  calc ((List.range (2 ^ k)).map fun i => 4 + (Merkle.bucketLeaf H k entries i []).length).sum
      = ∑ i ∈ Finset.range (2 ^ k), (4 + (Merkle.bucketLeaf H k entries i []).length) := rfl
    _ = 4 * 2 ^ k + 32 * occupied H k entries := by
      simp only [length_bucketLeaf, Finset.sum_add_distrib, Finset.sum_const, Finset.card_range,
        Finset.sum_ite_mem, Finset.inter_eq_right.mpr hsub, smul_eq_mul, occupied]
      ring

lemma length_encodeTree {leaves : ℤ} (hl : leaves ≤ 2 ^ 42) (entries : List (Bytes × Bytes)) :
    ∃ t b, Merkle.ofEntries H leaves entries = some t ∧ t.encode = some b ∧
      b.length = 4 + (4 * 2 ^ Merkle.depth leaves +
        32 * occupied H (Merkle.depth leaves) entries) := by
  obtain ⟨t, ht, hperf, -, -, hleaf⟩ := Merkle.ofEntries_spec (H := H) hl entries
  refine ⟨t, _, ht, by rw [Merkle.Tree.encode, Merkle.leaves_eq hperf]; rfl, ?_⟩
  rw [List.length_append, List.length_flatMap, Merkle.leafList, List.map_map, ← sum_length_leaves]
  congr 2
  refine List.map_congr_left fun i _ => ?_
  simp [Merkle.Tree.encodeLeaf, putUint32, length_bigEndian, hleaf]

lemma length_encodeEntry (e : Bytes × Bytes) :
    (BucketCodec.encodeEntry e).length = entrySize e := by
  unfold BucketCodec.encodeEntry entrySize putString
  split_ifs with hlong hfits hfits
  · omega
  · simp [written, putUint32, length_bigEndian]
  · simp only [written, putUint16, putUint32, List.length_append, length_bigEndian]
  · omega

lemma toList_foldl_insert_perm {l : List (Bytes × Bytes)}
    (h : l.Pairwise fun a b => ¬ compare a.1 b.1 = .eq) :
    (l.foldl (fun (m : Entries) e => m.insert e.1 e.2) ∅).toList.Perm l := by
  have hnodup : l.Nodup := h.imp fun hne heq => hne (by rw [heq]; exact Std.ReflCmp.compare_self)
  refine (List.perm_ext_iff_of_nodup ?_ hnodup).mpr fun e => ?_
  · exact List.Nodup.of_map Prod.fst
      (by rw [ExtTreeMap.map_fst_toList_eq_keys]; exact ExtTreeMap.nodup_keys)
  · rw [ExtTreeMap.mem_toList_iff_getElem?_eq_some, getElem?_foldl_insert h]

lemma length_encodeEntries {l : List (Bytes × Bytes)}
    (h : l.Pairwise fun a b => ¬ compare a.1 b.1 = .eq) (o : VisitOrder (Bytes × Bytes)) :
    (encodeEntries o (l.foldl (fun (m : Entries) e => m.insert e.1 e.2) ∅)).length =
      4 + (l.map entrySize).sum := by
  have hperm := (o.perm 0 _).trans (toList_foldl_insert_perm h)
  rw [encodeEntries, List.length_append, List.length_flatMap,
    (hperm.map fun e => (BucketCodec.encodeEntry e).length).sum_eq]
  simp only [length_encodeEntry, putUint32, length_bigEndian]

lemma range_perm_default (m : MapStore σ) (o : EntryOrder) (now : ℕ) :
    (m.range o now).Perm (m.range default now) :=
  ((o.perm 0 m.data.toList).filter _).map _

end Tree

/-! ### A coordinated read -/

namespace Coordinator

/-- The answers that make up the quorum of a read, next to the coordinator's own set. -/
def IsQuorum (c : Coordinator) (amb : Ambient) (key : Bytes) (used : List PeerResult) : Prop :=
  used <+: amb.answers.take (peersExcept (c.router.owners key c.n) c.self).length ∧
    1 + used.countP (fun r => r.2.isSome) = max (min c.r (c.router.owners key c.n).length) 1

/-- The own version a read answers with, if it answers with one of those: the first live one that
no version of the quorum is above. Its value fits. -/
def ReadFits (c : Coordinator) (m : MapStore σ) (amb : Ambient) (key : Bytes) : Prop :=
  ∀ used, c.IsQuorum amb key used → ∀ v,
    ((siblingsOf ((m.get amb.env.now key).1.getD [])).find? fun v =>
      !v.deleted && (answered used).all fun w => v.clock.compare w.clock ≠ .before) = some v →
    v.value.length ≤ maxBulkSize

end Coordinator

section Read

variable {need rounds : ℕ} {st st' : ReadState} {results used used' : List PeerResult}

lemma used_of_readLoop (h : readLoop need rounds st results = some st') :
    ∃ used, used <+: results.take rounds ∧ st' = used.foldl ReadState.receive st ∧
      st'.responses ≤ max need st.responses ∧
      (need ≤ st'.responses ∨ used.length = rounds) := by
  induction rounds generalizing st results with
  | zero =>
    simp only [readLoop, Option.some.injEq] at h
    exact ⟨[], List.nil_prefix, h.symm, h ▸ le_max_right _ _, .inr rfl⟩
  | succ rounds ih =>
    simp only [readLoop] at h
    split at h
    · rename_i hmet
      simp only [Option.some.injEq] at h
      exact ⟨[], List.nil_prefix, h.symm, h ▸ le_max_right _ _, .inl (h ▸ hmet)⟩
    · rcases results with _ | ⟨⟨addr, _ | versions⟩, rest⟩
      · simp at h
      · obtain ⟨used, hused, hst, hle, hend⟩ := ih h
        exact ⟨(addr, none) :: used, by simpa using hused, hst, hle,
          hend.imp_right (congrArg (· + 1))⟩
      · obtain ⟨used, hused, hst, hle, hend⟩ := ih h
        refine ⟨(addr, some versions) :: used, by simpa using hused, hst, ?_,
          hend.imp_right (congrArg (· + 1))⟩
        simp only [ReadState.respond] at hle
        omega

lemma answered_eq_of_begins (h : used <+: used')
    (hcount : used.countP (fun r => r.2.isSome) = used'.countP fun r => r.2.isSome) :
    answered used = answered used' := by
  obtain ⟨more, rfl⟩ := h
  rw [List.countP_append, Nat.left_eq_add, List.countP_eq_zero] at hcount
  have hnone : answered more = [] := List.flatMap_eq_nil_iff.mpr fun r hr => by
    rw [Option.not_isSome_iff_eq_none.mp (hcount r hr), Option.getD_none]
  unfold answered at *
  rw [List.flatMap_append, hnone, List.append_nil]

lemma answered_eq_of_quorum (h : used <+: results) (h' : used' <+: results)
    (hcount : used.countP (fun r => r.2.isSome) = used'.countP fun r => r.2.isSome) :
    answered used = answered used' := by
  rcases List.prefix_or_prefix_of_prefix h h' with hp | hp
  · exact answered_eq_of_begins hp hcount
  · exact (answered_eq_of_begins hp hcount.symm).symm

lemma mem_answered_of_begins {n : ℕ} (h : used <+: results.take n) {v : Version}
    (hv : v ∈ answered used) : v ∈ answered results := by
  obtain ⟨r, hr, hv⟩ := List.mem_flatMap.mp hv
  exact List.mem_flatMap.mpr ⟨r, List.mem_of_mem_take (h.subset hr), hv⟩

lemma fits_mergedReply_iff {own : List Version}
    (hwire : ∀ v ∈ answered used, v.value.length ≤ maxBulkSize) :
    Fits (mergedReply ((answered used).foldl reconcile own)) ↔ ∀ v,
      (own.find? fun v => !v.deleted &&
        (answered used).all fun w => v.clock.compare w.clock ≠ .before) = some v →
      v.value.length ≤ maxBulkSize := by
  classical
  obtain ⟨T, hT, hmerged⟩ : ∃ T, (∀ x ∈ T, x ∈ answered used) ∧
      (answered used).foldl (absorb clk) own = undominated clk own (answered used) ++ T :=
    exists_foldl_absorb_eq _ own
  have hown : live (undominated clk own (answered used)) = own.filter fun v =>
      !v.deleted && (answered used).all fun w => v.clock.compare w.clock ≠ .before := by
    rw [live, undominated, List.filter_filter]
    refine List.filter_congr fun v _ => congrArg (!v.deleted && ·) ?_
    rw [eq_comm, Bool.eq_iff_iff, decide_eq_true_eq, List.all_eq_true]
    refine forall₂_congr fun w _ => ?_
    rw [decide_eq_true_eq, ne_eq, compare_eq_before_iff]
  rw [reconcile_eq, hmerged, mergedReply, live, List.filter_append, ← live, hown,
    ← List.head?_filter]
  rcases own.filter _ with _ | ⟨v, vs⟩
  · -- no own version is left: the reply is a miss or comes from a peer
    refine iff_of_true ?_ (by simp)
    rw [List.nil_append]
    have hlive : ∀ w ∈ T.filter fun v => !v.deleted, w.value.length ≤ maxBulkSize := fun w hw =>
      hwire w (hT w (List.mem_filter.mp hw).1)
    generalize T.filter _ = left at hlive
    rcases left with _ | ⟨w, ws⟩
    · exact Nat.zero_le _
    · exact hlive w List.mem_cons_self
  · simp [Fits]

end Read

/-! ### Short lines -/

lemma length_ascii_toString {n : ℕ} (h : n < 2 ^ 63) : (ascii (toString n)).length ≤ 19 := by
  have hrepr : (toString n).toList = Nat.toDigits 10 n := by simp [toString, Nat.repr]
  rw [ascii, List.length_map, hrepr]
  exact Nat.toDigits_length 10 n 19 (by norm_num) (h.trans (by norm_num))

lemma fits_quorumError {op : String} (hop : (ascii op).length ≤ 6) {got need : ℕ}
    (hgot : got < need) (hneed : need < 2 ^ 63) : Fits (quorumError op got need) := by
  have h₁ := length_ascii_toString (hgot.trans hneed)
  have h₂ := length_ascii_toString hneed
  simp only [quorumError, Fits, ascii_append, List.length_append]
  have hlen : (ascii "ERR ").length = 4 ∧ (ascii " quorum not met: ").length = 17 ∧
    (ascii " of ").length = 4 ∧ (ascii " replicas").length = 9 := by decide
  omega

lemma fits_readReply_iff {need peers : ℕ} {self : Bytes} {own : List Version}
    {answers : List PeerResult} (hneed : need < 2 ^ 63) (hheard : peers ≤ answers.length)
    (hwire : ∀ v ∈ answered answers, v.value.length ≤ maxBulkSize) :
    (∃ v, (readLoop need (if 1 < need then peers else 0) (readInit self own) answers).map
        (fun st => readReply need st) = some v ∧ Fits v) ↔
      ∀ used, (used <+: answers.take peers ∧
          1 + used.countP (fun r => r.2.isSome) = max need 1) → ∀ v,
        (own.find? fun v => !v.deleted &&
          (answered used).all fun w => v.clock.compare w.clock ≠ .before) = some v →
        v.value.length ≤ maxBulkSize := by
  set rounds := if 1 < need then peers else 0 with hrounds
  have hle : rounds ≤ peers := by
    rw [hrounds]
    split_ifs <;> omega
  obtain ⟨st, hst⟩ := Option.isSome_iff_exists.mp
    (readLoop_isSome need (readInit self own) (hle.trans hheard))
  obtain ⟨used, hused, rfl, hmax, hend⟩ := used_of_readLoop hst
  rw [hst, Option.map_some]
  simp only [Option.some.injEq, exists_eq_left', readReply]
  have hcount : (used.foldl ReadState.receive (readInit self own)).responses =
      1 + used.countP fun r => r.2.isSome := responses_foldl used _
  have hmerged : (used.foldl ReadState.receive (readInit self own)).merged =
      (answered used).foldl reconcile own := merged_foldl used _
  rw [hcount, hmerged]
  rw [hcount, show (readInit self own).responses = 1 from rfl] at hmax
  rw [hcount] at hend
  have hpre : used <+: answers.take peers := hused.trans (List.take_prefix_take_left hle)
  by_cases hmet : 1 + used.countP (fun r => r.2.isSome) < need
  · rw [if_pos hmet]
    refine iff_of_true (fits_quorumError (by decide) hmet hneed) ?_
    -- all answers are in, so that no part of them is a quorum
    rintro used' ⟨hpre', hcount'⟩
    have hall : used = answers.take peers := by
      refine hpre.eq_of_length ?_
      rw [List.length_take, min_eq_left hheard, hend.resolve_left (by omega), hrounds,
        if_pos (by omega)]
    have hfew : used'.countP (fun r => r.2.isSome) ≤ used.countP fun r => r.2.isSome :=
      (hall ▸ hpre').sublist.countP_le
    omega
  · rw [if_neg hmet]
    have hquorum : 1 + used.countP (fun r => r.2.isSome) = max need 1 := by omega
    rw [fits_mergedReply_iff fun v hv => hwire v (mem_answered_of_begins hpre hv)]
    refine ⟨fun h used' hq => ?_, fun h => h used ⟨hpre, hquorum⟩⟩
    rwa [answered_eq_of_quorum hq.1 hpre (by omega)]

lemma fits_writeReply (kind : WriteKind) {need : ℕ} (acks : ℕ) (hneed : need < 2 ^ 63) :
    Fits (writeReply kind need acks) := by
  unfold writeReply
  split_ifs with hmet
  · cases kind with
    | write => exact (by decide : (ascii "OK").length ≤ 4094)
    | delete opState => exact trivial
  · refine fits_quorumError ?_ (by omega) hneed
    cases kind with
    | write => exact (by decide : (ascii "write").length ≤ 6)
    | delete opState => exact (by decide : (ascii "delete").length ≤ 6)

lemma fits_errorReply (err : StoreError) : Fits (errorReply err) := by
  cases err <;> change List.length _ ≤ 4094 <;> decide +kernel

lemma length_le_toUpper (name : Bytes) : name.length ≤ 2 * (toUpper name).length := by
  fun_induction toUpper name with
  | case1 => simp
  | case2 rest ih | case3 rest ih | case4 c rest _ _ ih =>
    simp only [List.length_cons]
    omega

lemma mem_commandTable {name : Bytes} {spec : CommandSpec} (h : commands name = some spec) :
    (name, spec) ∈ commandTable := by
  simp only [commands, Option.map_eq_some_iff] at h
  obtain ⟨c, hc, rfl⟩ := h
  have hname : c.1 = name := by simpa using List.find?_some hc
  exact hname ▸ List.mem_of_find?_eq_some hc

lemma length_of_commands {name : Bytes} {spec : CommandSpec}
    (h : commands (toUpper name) = some spec) : name.length ≤ 14 := by
  have htable : ∀ c ∈ commandTable, c.1.length ≤ 7 := by decide +kernel
  have hle : (toUpper name).length ≤ 7 := htable _ (mem_commandTable h)
  have := length_le_toUpper name
  omega

lemma fits_set (m : MapStore σ) (env : Env) (args : List Bytes) : Fits (set m env args).1 := by
  have hreply : ∀ r : Except StoreError Bool × MapStore σ, Fits (setReply r).1 := by
    intro r
    unfold setReply
    split
    · exact fits_errorReply _
    · exact (by decide : (ascii "OK").length ≤ 4094)
  unfold set
  split
  · exact hreply _
  · split
    · exact (by decide : (ascii "ERR value is not an integer or out of range").length ≤ 4094)
    · split
      · exact (by decide : (ascii "ERR syntax error").length ≤ 4094)
      · exact hreply _
  · exact (by decide : (ascii "ERR syntax error").length ≤ 4094)

lemma fits_rset (m : MapStore σ) (env : Env) (key blob : Bytes) :
    Fits (rset m env key blob).1 := by
  unfold rset
  split
  · split
    · exact (by decide : (ascii "OK").length ≤ 4094)
    · exact fits_errorReply _
  · exact (by decide : (ascii "ERR malformed version").length ≤ 4094)

/-! ### The commands -/

/-- What the reply to a command that is served here is made of fits. -/
def VerbFits (h : Handler σ) (amb : Ambient) (args : List Bytes) : Verb → Prop
  | .get | .rget => ∀ e : Entry, h.store.data[args.getD 0 []]? = some e →
      e.expired amb.env.now = false → e.value.length ≤ maxBulkSize
  | .nodes => ∀ ms ∈ h.members, (ms.aliveNodes default).length ≤ maxArrayCount ∧
      ∀ n ∈ ms.aliveNodes default, n.id.length + 1 + n.addr.length ≤ maxBulkSize
  | .rtree => ∀ n, atoi (args.getD 0 []) = some n →
      4 + (4 * 2 ^ Merkle.depth n + 32 * occupied H (Merkle.depth n)
        (h.store.range default amb.env.now)) ≤ maxBulkSize
  | .rbucket => ∀ n, atoi (args.getD 0 []) = some n → ∀ buckets,
      decodeBuckets (args.getD 1 []) = .ok buckets →
      -- between the two bounds the handler panics
      (n ≤ 2 ^ 42 ∨ 2 ^ 62 < n) ∧
        4 + (((h.store.range default amb.env.now).filter fun e =>
          (Merkle.bucketOf H (Merkle.depth n) e.1 : ℤ) ∈ buckets).map entrySize).sum ≤ maxBulkSize
  | .stats => amb.stats.length ≤ maxBulkSize
  | .ping | .set | .del | .rset => True

section Verbs

variable {H} {m : MapStore σ} {env : Env}

lemma fits_get_iff (key : Bytes) : Fits (get m env key).1 ↔ ∀ e : Entry, m.data[key]? = some e →
    e.expired env.now = false → e.value.length ≤ maxBulkSize := by
  simp only [get, Fits, MapStore.get_fst]
  rcases hk : m.data[key]? with _ | e
  · simp
  · cases hexp : e.expired env.now <;> simp [Option.filter, hexp]

lemma fits_nodes_iff (members : Option Membership.Members)
    (o : VisitOrder (Bytes × Membership.Entry)) :
    Fits (nodes members o) ↔ ∀ ms ∈ members, (ms.aliveNodes default).length ≤ maxArrayCount ∧
      ∀ n ∈ ms.aliveNodes default, n.id.length + 1 + n.addr.length ≤ maxBulkSize := by
  cases members with
  | none =>
    refine iff_of_true ?_ (by simp)
    exact (by decide : (ascii "ERR clustering is disabled").length ≤ 4094)
  | some ms =>
    have hperm : (ms.aliveNodes o).Perm (ms.aliveNodes default) :=
      ((o.perm 0 _).map _).filter _
    simp only [nodes, Fits, List.length_map, List.forall_mem_map, Value.bulk, Option.getD_some,
      List.length_append, List.length_singleton, Option.mem_some_iff, forall_eq', hperm.length_eq,
      hperm.mem_iff]

lemma le_of_depth {n : ℤ} {x : ℕ} (h : 4 + (4 * 2 ^ Merkle.depth n + x) ≤ maxBulkSize) :
    n ≤ 2 ^ 42 := by
  have hle := le_two_pow_depth n
  have hcast : ((2 ^ Merkle.depth n : ℕ) : ℤ) = 2 ^ Merkle.depth n := by push_cast; rfl
  have hmax : maxBulkSize = 2 ^ 29 := rfl
  omega

lemma leafCount_fill {t t' : Merkle.Tree} {entries : List (Bytes × Bytes)}
    (h : Merkle.fill H t entries = some t') : t'.leafCount = t.leafCount := by
  induction entries generalizing t with
  | nil => cases h; rfl
  | cons e entries ih =>
    obtain ⟨t₁, hadd, hrest⟩ := Option.bind_eq_some_iff.mp h
    have hadd' : t₁.leafCount = t.leafCount := by
      simp only [Merkle.Tree.add, Option.bind_eq_bind, Option.bind_eq_some_iff] at hadd
      obtain ⟨leaf, -, hput⟩ := hadd
      simp only [Merkle.Tree.put] at hput
      split_ifs at hput <;> cases hput <;> rfl
    exact (ih hrest).trans hadd'

lemma rtree_eq_some_iff {arg : Bytes} {n : ℤ} (hn : atoi arg = some n) (v : Value) :
    rtree H m env arg = some v ↔ ∃ t b,
      Merkle.ofEntries H n (m.range env.entries env.now) = some t ∧ t.encode = some b ∧
        .bulkString (some b) = v := by
  simp only [rtree, hn, Option.bind_eq_bind, Option.bind_eq_some_iff, Option.pure_def,
    Option.some.injEq]
  constructor
  · rintro ⟨t, ht, b, hb, hv⟩
    exact ⟨t, b, ht, hb, hv⟩
  · rintro ⟨t, b, ht, hb, hv⟩
    exact ⟨t, ht, b, hb, hv⟩

/-- A tree of too many leaves is not made, or has a negative number of them. -/
lemma encode_eq_none_of_large {n : ℤ} (hlow : 2 ^ 42 < n) (hhigh : n < 2 ^ 63) {t : Merkle.Tree}
    {entries : List (Bytes × Bytes)} (ht : Merkle.ofEntries H n entries = some t) :
    t.encode = none := by
  obtain ⟨t₀, hnew, hfill⟩ := Option.bind_eq_some_iff.mp ht
  rcases le_or_gt n (2 ^ 62) with hmid | hlarge
  · rw [new_eq_none hlow hmid] at hnew
    cases hnew
  · rw [new_of_large hlarge hhigh] at hnew
    cases hnew
    have hneg : t.leafCount < 0 := by
      rw [leafCount_fill hfill]
      norm_num
    rw [Merkle.Tree.encode, Merkle.Tree.leaves, if_pos hneg]
    rfl

lemma fits_rtree_iff (arg : Bytes) :
    (∃ v, rtree H m env arg = some v ∧ Fits v) ↔ ∀ n, atoi arg = some n →
      4 + (4 * 2 ^ Merkle.depth n + 32 * occupied H (Merkle.depth n)
        (m.range default env.now)) ≤ maxBulkSize := by
  rcases hn : atoi arg with _ | n
  · refine iff_of_true ⟨_, by rw [rtree, hn], ?_⟩ (by simp)
    exact (by decide : (ascii "ERR failed to parse tree leaf count").length ≤ 4094)
  have hsame : occupied H (Merkle.depth n) (m.range env.entries env.now) =
      occupied H (Merkle.depth n) (m.range default env.now) := by
    unfold occupied
    rw [List.toFinset_eq_of_perm _ _ ((range_perm_default m env.entries env.now).map _)]
  simp only [rtree_eq_some_iff hn, Option.some.injEq, forall_eq']
  by_cases hle : n ≤ 2 ^ 42
  · obtain ⟨t, b, ht, hb, hlen⟩ := length_encodeTree (H := H) hle (m.range env.entries env.now)
    rw [hsame] at hlen
    constructor
    · rintro ⟨_, ⟨t', b', ht', hb', rfl⟩, hfits⟩
      cases ht.symm.trans ht'
      cases hb.symm.trans hb'
      exact hlen.ge.trans hfits
    · exact fun h => ⟨_, ⟨t, b, ht, hb, rfl⟩, hlen.trans_le h⟩
  · refine iff_of_false ?_ fun h => hle (le_of_depth h)
    rintro ⟨_, ⟨t, b, ht, hb, rfl⟩, -⟩
    cases (encode_eq_none_of_large (not_le.mp hle) (atoi_lt hn) ht).symm.trans hb

lemma bucket_new {n : ℤ} {t : Merkle.Tree} (hn : n < 2 ^ 63) (ht : Merkle.new n = some t)
    (key : Bytes) : t.bucket H key = Merkle.bucketOf H (Merkle.depth n) key := by
  rcases le_or_gt n (2 ^ 42) with hle | hgt
  · obtain ⟨t', ht', hperf, -⟩ := Merkle.new_spec hle
    cases ht.symm.trans ht'
    exact hperf.bucket ((Merkle.depth_le hle).trans (by norm_num)) key
  rcases le_or_gt n (2 ^ 62) with hmid | hhigh
  · rw [new_eq_none hgt hmid] at ht
    cases ht
  · have hdepth : Merkle.depth n = 63 := by
      have hge : 62 ≤ (n - 1).toNat.log2 := (Nat.le_log2 (by omega)).mpr (by omega)
      have hlt : (n - 1).toNat.log2 < 63 := (Nat.log2_lt (by omega)).mpr (by omega)
      rw [Merkle.depth, if_neg (by omega)]
      omega
    rw [new_of_large hhigh hn] at ht
    cases ht
    rw [hdepth, Merkle.Tree.bucket, show ((-2 ^ 63 - 1) % 2 ^ 64 : ℤ).toNat = 2 ^ 63 - 1 by rfl,
      Nat.and_two_pow_sub_one_eq_mod]
    have hlt := Merkle.bucketOf_lt H 63 key
    exact Merkle.wrap_of_lt (by positivity) (by unfold Merkle.bucketOf at hlt; omega)

lemma fits_rbucket_iff (o : VisitOrder (Bytes × Bytes)) (arg bucketSet : Bytes) :
    (∃ v, rbucket H m env o arg bucketSet = some v ∧ Fits v) ↔ ∀ n, atoi arg = some n →
      ∀ buckets, decodeBuckets bucketSet = .ok buckets → (n ≤ 2 ^ 42 ∨ 2 ^ 62 < n) ∧
        4 + (((m.range default env.now).filter fun e =>
          (Merkle.bucketOf H (Merkle.depth n) e.1 : ℤ) ∈ buckets).map entrySize).sum ≤
            maxBulkSize := by
  rcases hn : atoi arg with _ | n
  · refine iff_of_true ⟨_, by rw [rbucket, hn], ?_⟩ (by simp)
    exact (by decide : (ascii "ERR failed to parse tree leaf count").length ≤ 4094)
  rcases hset : decodeBuckets bucketSet with e | buckets
  · refine iff_of_true ⟨.error (ascii "ERR malformed bucket set"), ?_, ?_⟩ (by simp)
    · simp only [rbucket, hn, hset]
    · exact (by decide : (ascii "ERR malformed bucket set").length ≤ 4094)
  simp only [rbucket, hn, hset, Option.some.injEq, Except.ok.injEq, forall_eq']
  by_cases hrange : n ≤ 2 ^ 42 ∨ 2 ^ 62 < n
  · obtain ⟨t, ht⟩ : ∃ t, Merkle.new n = some t := by
      rcases hrange with hle | hhigh
      · exact (Merkle.new_spec hle).imp fun _ h => h.1
      · exact ⟨_, new_of_large hhigh (atoi_lt hn)⟩
    have hlen : (encodeEntries o (entriesIn H t buckets (m.range env.entries env.now))).length =
        4 + (((m.range default env.now).filter fun e =>
          (Merkle.bucketOf H (Merkle.depth n) e.1 : ℤ) ∈ buckets).map entrySize).sum := by
      simp only [entriesIn, bucket_new (atoi_lt hn) ht]
      rw [length_encodeEntries ((range_distinct m env.entries env.now).filter _),
        (((range_perm_default m env.entries env.now).filter _).map _).sum_eq]
    rw [ht, and_iff_right hrange, ← hlen]
    constructor
    · rintro ⟨v, hv, hfits⟩
      cases hv
      exact hfits
    · exact fun h => ⟨_, rfl, h⟩
  · refine iff_of_false ?_ fun h => hrange h.1
    rw [new_eq_none (by omega) (by omega)]
    rintro ⟨v, hv, -⟩
    cases hv

/-- **The reply of a command that is served here** fits exactly if what it is made of does. -/
lemma fits_runVerb_iff (h : Handler σ) (amb : Ambient) (args : List Bytes) (verb : Verb) :
    (∃ v, (runVerb H h amb args verb).1 = some v ∧ Fits v) ↔ VerbFits H h amb args verb := by
  have hsome : ∀ (v : Value) (P : Prop), (Fits v ↔ P) →
      ((∃ w, some v = some w ∧ Fits w) ↔ P) := fun v P hP => by simpa using hP
  cases verb with
  | ping => exact hsome _ _ (iff_true_intro (by decide : (ascii "PONG").length ≤ 4094))
  | get | rget => exact hsome _ _ (fits_get_iff _)
  | set => exact hsome _ _ (iff_true_intro (fits_set _ _ _))
  | del => exact hsome _ _ (iff_true_intro trivial)
  | nodes => exact hsome _ _ (fits_nodes_iff _ _)
  | rset => exact hsome _ _ (iff_true_intro (fits_rset _ _ _ _))
  | rtree => exact fits_rtree_iff _
  | rbucket => exact fits_rbucket_iff _ _ _
  | stats => exact hsome _ _ Iff.rfl

end Verbs

/-! ### The reply to a command -/

/-- What a handler meets from outside: strings and lists are as long as Go's types allow, every
peer that is asked has answered or failed, and what a peer sent has come through the decoder. -/
structure Ordinary (h : Handler σ) (amb : Ambient) : Prop where
  nodes : NodesFit h amb
  replicas : ∀ c ∈ h.coordinator, ∀ key, (c.router.owners key c.n).length < 2 ^ 63
  heard : ∀ c ∈ h.coordinator, ∀ key,
    (peersExcept (c.router.owners key c.n) c.self).length ≤ amb.acks.length ∧
      (peersExcept (c.router.owners key c.n) c.self).length ≤ amb.answers.length
  wire : ∀ v ∈ answered amb.answers, v.value.length ≤ maxBulkSize

/-- The sizes of what a command is answered with, told from the command and from what it meets. -/
def Bounded (h : Handler σ) (amb : Ambient) (cmd : Command) : Prop :=
  match commands (toUpper cmd.name) with
  | none => cmd.name.length ≤ 4072
  | some spec => spec.minArgs ≤ cmd.args.length → cmd.args.length ≤ spec.maxArgs →
    match redirect h spec (cmd.args.getD 0 []) with
    | some owner => owner.length ≤ 4088
    | none =>
      match coordinatorFor h spec with
      | some c => spec.run = .get → c.ReadFits h.store amb (cmd.args.getD 0 [])
      | none => VerbFits H h amb cmd.args spec.run

section Handle

variable {H} {h : Handler σ} {amb : Ambient} (hok : Ordinary h amb)

include hok

lemma Ordinary.fits_finish {c : Coordinator} (hc : h.coordinator = some c) (key : Bytes)
    (r : Except StoreError (WriteKind × Version) × MapStore σ) :
    ∃ v, (c.finish amb key r).1 = some v ∧ Fits v := by
  unfold Coordinator.finish
  split
  · exact ⟨_, rfl, fits_errorReply _⟩
  · rename_i kind _ _
    obtain ⟨acks, hacks⟩ := Option.isSome_iff_exists.mp (gatherLoop_isSome
      (min c.w (c.router.owners key c.n).length) 1 (hok.heard c hc key).1)
    have hneed := (min_le_right c.w _).trans_lt (hok.replicas c hc key)
    exact ⟨_, by simp only [gather, hacks, Option.map_some], fits_writeReply kind acks hneed⟩

lemma Ordinary.fits_read_iff {c : Coordinator} (hc : h.coordinator = some c) (m : MapStore σ)
    (key : Bytes) :
    (∃ v, (c.read m amb key).1 = some v ∧ Fits v) ↔ c.ReadFits m amb key := by
  exact fits_readReply_iff ((min_le_right c.r _).trans_lt (hok.replicas c hc key))
    (hok.heard c hc key).2 hok.wire

lemma Ordinary.fits_coordinate_iff {c : Coordinator} (hc : h.coordinator = some c)
    {cmd : Command} {spec : CommandSpec} (hspec : commands (toUpper cmd.name) = some spec)
    (hop : spec.clusteredOp = true) :
    (∃ v, (c.coordinate h.store amb cmd).1 = some v ∧ Fits v) ↔
      (spec.run = .get → c.ReadFits h.store amb (cmd.args.getD 0 [])) := by
  have htable : ∀ e ∈ commandTable, e.2.clusteredOp = true →
      e.1 = ascii "SET" ∧ e.2.run ≠ .get ∨ e.1 = ascii "DEL" ∧ e.2.run ≠ .get ∨
        e.1 = ascii "GET" ∧ e.2.run = .get := by decide +kernel
  unfold Coordinator.coordinate
  dsimp only
  rcases htable _ (mem_commandTable hspec) hop with
      ⟨hname, hrun⟩ | ⟨hname, hrun⟩ | ⟨hname, hrun⟩ <;>
    simp only at hname hrun
  · rw [hname, if_pos rfl]
    exact iff_of_true (hok.fits_finish hc _ _) fun h => absurd h hrun
  · rw [hname, if_neg (by decide), if_pos rfl]
    exact iff_of_true (hok.fits_finish hc _ _) fun h => absurd h hrun
  · rw [hname, if_neg (by decide), if_neg (by decide), if_pos rfl, hok.fits_read_iff hc]
    exact ⟨fun h _ => h, fun h => h hrun⟩

/-- **A command is answered with sizes that fit exactly if** what it brings and meets does. -/
lemma Ordinary.fits_handle_iff (cmd : Command) :
    (∃ v, (handle H h amb cmd).1 = some v ∧ Fits v) ↔ Bounded H h amb cmd := by
  unfold handle Bounded
  rcases hspec : commands (toUpper cmd.name) with _ | spec
  · have hlen : (ascii "ERR unknown command '").length = 21 ∧ (ascii "'").length = 1 := by decide
    simp only [Option.some.injEq, exists_eq_left', Fits, List.length_append]
    omega
  dsimp only
  split_ifs with hargs
  · -- a wrong number of arguments: the name is known, so the line is short
    have hname := length_of_commands hspec
    have hlen : (ascii "ERR wrong number of arguments for '").length = 35 ∧
      (ascii "'").length = 1 := by decide
    simp only [Option.some.injEq, exists_eq_left', Fits, List.length_append]
    refine iff_of_true (by omega) fun hmin hmax => absurd hargs (by omega)
  · rw [forall_prop_of_true (by omega), forall_prop_of_true (by omega)]
    rcases redirect h spec (cmd.args.getD 0 []) with _ | owner
    · rcases hcoord : coordinatorFor h spec with _ | c
      · exact fits_runVerb_iff h amb cmd.args spec.run
      · have hboth : (h.router.isSome && spec.clusteredOp) = true ∧ h.coordinator = some c := by
          simpa only [coordinatorFor, Option.ite_none_right_eq_some] using hcoord
        exact hok.fits_coordinate_iff hboth.2 hspec (Bool.and_eq_true_iff.mp hboth.1).2
    · have hlen : (ascii "MOVED ").length = 6 := by decide
      simp only [Option.some.injEq, exists_eq_left', Fits, List.length_append]
      omega

end Handle

/-- **A command is answered with one value exactly if** no name its reply quotes has a line break
in it and the sizes of what it brings and meets are within the limits of the decoder. -/
theorem reply_is_one_value_iff (h : Handler σ) (amb : Ambient) (hok : Ordinary h amb)
    (cmd : Command) :
    (∃ reply, (handle H h amb cmd).1 = some reply ∧ OneValue reply.encode) ↔
      Harmless h cmd ∧ Bounded H h amb cmd := by
  rw [← hok.fits_handle_iff]
  constructor
  · rintro ⟨reply, hreply, hone⟩
    obtain ⟨hfits, hharmless⟩ := (oneValue_reply_iff H h amb hok.nodes cmd hreply).mp hone
    exact ⟨hharmless, reply, hreply, hfits⟩
  · rintro ⟨hharmless, reply, hreply, hfits⟩
    exact ⟨reply, hreply, (oneValue_reply_iff H h amb hok.nodes cmd hreply).mpr ⟨hfits, hharmless⟩⟩

lemma ordinary_lone : Ordinary lone default where
  nodes _ hm := by cases hm
  replicas _ hc := by cases hc
  heard _ hc := by cases hc
  wire _ hv := by cases hv

theorem reply_is_one_value_ping :
    ∃ reply, (handle sha256 lone default ⟨ascii "ping", []⟩).1 = some reply ∧
      OneValue reply.encode :=
  (reply_is_one_value_iff sha256 lone default ordinary_lone ⟨ascii "ping", []⟩).mpr
    ⟨fun _ _ _ howner => (by cases howner), fun _ _ => trivial⟩

/-- A request whose command name holds a line break: the stream is a command, and the reply to it
is two values for the client, the second of its own choosing. -/
theorem reply_is_two_values :
    Protocol.decode (ascii "*1\r\n$8\r\nX\r\n+PONG\r\n") 0 =
      .ok (.array [.bulkString (some (ascii "X\r\n+PONG"))], 18) ∧
    (Value.array [.bulkString (some (ascii "X\r\n+PONG"))]).command.toOption =
      some ⟨ascii "X\r\n+PONG", []⟩ ∧
    (handle sha256 lone default ⟨ascii "X\r\n+PONG", []⟩).1 =
      some (.error (ascii "ERR unknown command 'X\r\n+PONG'")) ∧
    decodeMany 2 (Value.error (ascii "ERR unknown command 'X\r\n+PONG'")).encode 0 =
      .ok ([.error (ascii "ERR unknown command 'X"), .simpleString (ascii "PONG'")], 33) ∧
    ¬ OneValue (Value.error (ascii "ERR unknown command 'X\r\n+PONG'")).encode := by
  refine ⟨by decide +kernel, by decide +kernel, by decide +kernel, by decide +kernel, ?_⟩
  rw [oneValue_error_iff]
  decide

end Kyria.Server
