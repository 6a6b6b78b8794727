import Kyria.Fixpoint
import Kyria.Lib.Spread

/-!
Anti-entropy in a cluster of any number of nodes.

Each node now and then picks a live peer at random (`AntiEntropy.pickPeer`) and takes in what that
peer holds. Along the rounds what one node holds reaches others, through whom it reaches still
others; the nodes that everything has reached hold the same.
-/

namespace Kyria.Server

open Std (ExtTreeMap)
open Kyria.Lib.Cursor Kyria.Lib.MapOrder Kyria.Lib.Maxima Kyria.Lib.Runs Kyria.Lib.Spread
open Kyria.Sha256 Kyria.Version Kyria.Store Kyria.Replica Kyria.Membership

/-! ### The choice of a peer -/

/-- The loop of `pickPeer`: the peer chosen, and the number of peers so far. The `k`-th peer takes
the place of the chosen one if a random number below `k` is zero. -/
def pickLoop (self : Bytes) : List Bytes → Bytes × ℕ → List ℕ → Bytes × ℕ
  | [], acc, _ => acc
  | id :: ids, acc, rolls =>
    if id = self then pickLoop self ids acc rolls
    else
      let count := acc.2 + 1
      pickLoop self ids (if rolls.headD 0 % count = 0 then id else acc.1, count) rolls.tail

def pickPeer (self : Bytes) (alive : List Bytes) (rolls : List ℕ) : Option Bytes :=
  let r := pickLoop self alive ([], 0) rolls
  if 0 < r.2 then some r.1 else none

section Pick

variable {self : Bytes} {ids : List Bytes}

/-- The nodes to choose from. -/
def peersOf (self : Bytes) (ids : List Bytes) : List Bytes := ids.filter fun id => id ≠ self

lemma pickLoop_count (self : Bytes) (ids : List Bytes) (acc : Bytes × ℕ) (rolls : List ℕ) :
    (pickLoop self ids acc rolls).2 = acc.2 + (peersOf self ids).length := by
  induction ids generalizing acc rolls with
  | nil => rfl
  | cons id ids ih =>
    unfold pickLoop peersOf
    by_cases h : id = self
    · rw [if_pos h, ih, List.filter_cons_of_neg (by simpa using h)]
      rfl
    · rw [if_neg h, ih, List.filter_cons_of_pos (by simpa using h), List.length_cons]
      simp only [peersOf]
      omega

lemma pickLoop_mem (self : Bytes) (ids : List Bytes) (acc : Bytes × ℕ) (rolls : List ℕ) :
    (pickLoop self ids acc rolls).1 ∈ peersOf self ids ∨
      (pickLoop self ids acc rolls).1 = acc.1 ∧ (acc.2 = 0 → peersOf self ids = []) := by
  induction ids generalizing acc rolls with
  | nil => exact .inr ⟨rfl, fun _ => rfl⟩
  | cons id ids ih =>
    unfold pickLoop
    by_cases h : id = self
    · have hskip : peersOf self (id :: ids) = peersOf self ids :=
        List.filter_cons_of_neg (by simpa using h)
      rw [if_pos h, hskip]
      exact ih acc rolls
    · have htake : peersOf self (id :: ids) = id :: peersOf self ids :=
        List.filter_cons_of_pos (by simpa using h)
      rw [if_neg h, htake]
      rcases ih (if rolls.headD 0 % (acc.2 + 1) = 0 then id else acc.1, acc.2 + 1) rolls.tail with
        hmem | ⟨heq, -⟩
      · exact .inl (List.mem_cons_of_mem _ hmem)
      · simp only [heq]
        split_ifs with hroll
        · exact .inl List.mem_cons_self
        · refine .inr ⟨rfl, fun h0 => ?_⟩
          -- the first peer is always taken
          rw [h0] at hroll
          exact absurd (Nat.mod_one _) hroll

lemma pickPeer_spec {rolls : List ℕ} : match pickPeer self ids rolls with
    | some p => p ∈ peersOf self ids
    | none => peersOf self ids = [] := by
  have hcount := pickLoop_count self ids ([], 0) rolls
  have hmem := pickLoop_mem self ids ([], 0) rolls
  unfold pickPeer
  generalize pickLoop self ids ([], 0) rolls = r at *
  by_cases hpos : 0 < r.2
  · simp only [hpos, if_true]
    rcases hmem with hmem | ⟨-, hnil⟩
    · exact hmem
    · rw [hnil rfl] at hcount
      simp at hcount
      omega
  · simp only [hpos, if_false]
    exact List.length_eq_zero_iff.mp (by omega)

/-- All that the random numbers for `m` peers can be, after `seen` others. -/
def allRolls (seen : ℕ) : ℕ → List (List ℕ)
  | 0 => [[]]
  | m + 1 => (List.range (seen + 1)).flatMap fun d => (allRolls (seen + 1) m).map (d :: ·)

lemma countP_allRolls_succ (f : List ℕ → Bool) (seen m : ℕ) {a b : ℕ}
    (ha : (allRolls (seen + 1) m).countP (fun rolls => f (0 :: rolls)) = a)
    (hb : ∀ d < seen, (allRolls (seen + 1) m).countP (fun rolls => f ((d + 1) :: rolls)) = b) :
    (allRolls seen (m + 1)).countP f = a + seen * b := by
  have hrest : (List.range seen).map (fun d => (allRolls (seen + 1) m).countP
      fun rolls => f ((d + 1) :: rolls)) = (List.range seen).map fun _ => b :=
    List.map_congr_left fun d hd => hb d (List.mem_range.mp hd)
  rw [allRolls, List.countP_flatMap, List.range_succ_eq_map, List.map_cons, List.map_map,
    List.sum_cons]
  simp only [Function.comp_def, List.countP_map, ha]
  rw [hrest, List.map_const', List.sum_replicate, List.length_range, smul_eq_mul]

lemma length_allRolls_succ (seen m : ℕ) :
    (allRolls seen (m + 1)).length = (seen + 1) * (allRolls (seen + 1) m).length := by
  simp [allRolls, List.length_flatMap]

/-- **The streaming invariant**: of the ways the rolls can come out, the peer held so far keeps its
place in a part that weighs all the peers seen, and each later one is chosen in a part that weighs
one. -/
lemma countP_pickLoop (self p cur : Bytes) (ids : List Bytes) (seen : ℕ) :
    (allRolls seen (peersOf self ids).length).countP
        (fun rolls => (pickLoop self ids (cur, seen) rolls).1 = p) *
        (seen + (peersOf self ids).length) =
      (allRolls seen (peersOf self ids).length).length *
        ((if cur = p then seen else 0) + (peersOf self ids).count p) := by
  induction ids generalizing cur seen with
  | nil => by_cases h : cur = p <;> simp [peersOf, allRolls, pickLoop, h]
  | cons id ids ih =>
    by_cases h : id = self
    · have hskip : peersOf self (id :: ids) = peersOf self ids :=
        List.filter_cons_of_neg (by simpa using h)
      have hloop : ∀ rolls, pickLoop self (id :: ids) (cur, seen) rolls =
          pickLoop self ids (cur, seen) rolls := fun rolls => if_pos h
      simp only [hskip, hloop]
      exact ih cur seen
    · have htake : peersOf self (id :: ids) = id :: peersOf self ids :=
        List.filter_cons_of_pos (by simpa using h)
      have hloop : ∀ d rolls, pickLoop self (id :: ids) (cur, seen) (d :: rolls) =
          pickLoop self ids (if d % (seen + 1) = 0 then id else cur, seen + 1) rolls :=
        fun d rolls => if_neg h
      -- in how many ways `p` is chosen if `c` holds the place now
      let share := fun c => (allRolls (seen + 1) (peersOf self ids).length).countP
        fun rolls => (pickLoop self ids (c, seen + 1) rolls).1 = p
      have hcount : (allRolls seen ((peersOf self ids).length + 1)).countP
          (fun rolls => (pickLoop self (id :: ids) (cur, seen) rolls).1 = p) =
            share id + seen * share cur := by
        refine countP_allRolls_succ _ seen _ ?_ fun d hd => ?_
        · simp only [hloop, Nat.zero_mod, if_true, share]
        · have hne : (d + 1) % (seen + 1) ≠ 0 := by
            rw [Nat.mod_eq_of_lt (by omega)]
            omega
          simp only [hloop, hne, if_false, share]
      have hnew := ih id (seen + 1)
      have hold := ih cur (seen + 1)
      change share id * _ = _ at hnew
      change share cur * _ = _ at hold
      rw [htake, List.length_cons, hcount, length_allRolls_succ, List.count_cons]
      generalize (allRolls (seen + 1) (peersOf self ids).length).length = total at *
      generalize share id = a at *
      generalize share cur = b at *
      generalize (peersOf self ids).length = m at *
      generalize (peersOf self ids).count p = k at *
      calc (a + seen * b) * (seen + (m + 1))
          = a * (seen + 1 + m) + seen * (b * (seen + 1 + m)) := by ring
        _ = total * ((if id = p then seen + 1 else 0) + k) +
              seen * (total * ((if cur = p then seen + 1 else 0) + k)) := by rw [hnew, hold]
        _ = (seen + 1) * total *
              ((if cur = p then seen else 0) + (k + if (id == p) = true then 1 else 0)) := by
            simp only [beq_iff_eq]
            split_ifs <;> ring

/-- **The peer is chosen uniformly.** It is a live member other than the node itself, if there is
one; and each of those is chosen in the same share of all the ways the random numbers can come
out. -/
theorem pickPeer_uniform (self : Bytes) (m : Members) (o : VisitOrder (Bytes × Membership.Entry)) :
    let ids := (m.aliveNodes o).map Node.id
    let n := (peersOf self ids).length
    (∀ p, p ∈ peersOf self ids ↔ p ≠ self ∧ ∃ r, m.node p = some r ∧ r.state = alive) ∧
    (∀ rolls, match pickPeer self ids rolls with
      | some p => p ∈ peersOf self ids
      | none => peersOf self ids = []) ∧
    ∀ p ∈ peersOf self ids,
      (allRolls 0 n).countP (fun rolls => pickPeer self ids rolls = some p) * n =
        (allRolls 0 n).length := by
  intro ids n
  have hnodup : ids.Nodup := by
    refine List.pairwise_map.mpr ((m.distinct_snapshot o).filter _ |>.imp ?_)
    exact fun h => h
  refine ⟨fun p => ?_, fun rolls => pickPeer_spec, fun p hp => ?_⟩
  · simp only [peersOf, ids, Members.aliveNodes, List.mem_filter, List.mem_map,
      Members.mem_snapshot, decide_eq_true_eq]
    constructor
    · rintro ⟨⟨r, ⟨hr, ha⟩, rfl⟩, hne⟩
      exact ⟨hne, r, hr, ha⟩
    · rintro ⟨hne, r, hr, ha⟩
      have hid := Members.id_of_node hr
      exact ⟨⟨r, ⟨hid ▸ hr, ha⟩, hid⟩, hne⟩
  · have hn : 0 < n := List.length_pos_of_mem hp
    have hpick : ∀ rolls, pickPeer self ids rolls = some p ↔
        (pickLoop self ids ([], 0) rolls).1 = p := fun rolls => by
      have hcount := pickLoop_count self ids ([], 0) rolls
      rw [pickPeer, if_pos (by rw [hcount]; omega), Option.some.injEq]
    have h := countP_pickLoop self p [] ids 0
    have hone : (peersOf self ids).count p = 1 := List.count_eq_one_of_mem (hnodup.filter _) hp
    rw [hone] at h
    simpa only [hpick, n, Nat.zero_add, ite_self, Nat.mul_one] using h

end Pick

/-! ### The rounds of a cluster -/

/-- A tick of a node's loop, or news of the membership. -/
inductive Tick
  | round (node : Bytes) (order : VisitOrder (Bytes × Membership.Entry)) (rolls : List ℕ)
      (env : SyncEnv)
  | roster (node : Bytes) (members : Members)

section Rounds

variable {σ : Type} (H : Hash) (leaves : ℤ)

/-- The peer that a node picks. -/
def partner (h : Handler σ) (node : Bytes) (order : VisitOrder (Bytes × Membership.Entry))
    (rolls : List ℕ) : Option Bytes :=
  h.members.bind fun m => pickPeer node ((m.aliveNodes order).map Node.id) rolls

/-- The nodes, each under its ID. `none` if one panics. -/
def tick (s : Bytes → Handler σ) : Tick → Option (Bytes → Handler σ)
  | .roster a m => some (Function.update s a { s a with members := some m })
  | .round a order rolls env =>
    match partner (s a) a order rolls with
    | none => some s
    | some p => (syncWith H leaves (s a).store (s p) env).map fun r =>
        Function.update (Function.update s p r.2.2) a { s a with store := r.2.1 }

/-- The round meets no rejection, no eviction and no coincidence of hashes. -/
structure Smooth (m : MapStore σ) (peer : Handler σ) (env : SyncEnv) : Prop where
  reports : Reports H leaves m peer.store env.scan env.tree.env
  unrejected : Unrejected H leaves m peer env
  room : ∃ keys, m.HasRoom keys ∧ ∀ key ∈ peer.store.data, key ∈ keys

/-- A node that makes a round is told what its peer holds. -/
def exchanges : Talk (Bytes → Handler σ) Tick Bytes where
  step := tick H leaves
  ok s
    | .round a order rolls env => ∀ p, partner (s a) a order rolls = some p →
        Smooth H leaves (s a).store (s p) env
    | .roster _ _ => True
  keeps _ _ _ := True
  tells v q t a p := v = t ∧ ∃ order rolls env, a = .round p order rolls env ∧
    partner (t p) p order rolls = some q

lemma exchanges_step : (exchanges H leaves).step = tick H leaves (σ := σ) := rfl

variable {H leaves} (hl₀ : 0 ≤ leaves) (hl : leaves ≤ 2 ^ 30) {s t u : Bytes → Handler σ}

include hl₀ hl

/-- **What a tick does to a node's sets**: nothing, or it folds those of the peer in. -/
lemma tick_siblings (hs : ∀ b, Coded (s b).store) {a : Tick} (hok : (exchanges H leaves).ok s a)
    (h : tick H leaves s a = some t) (b : Bytes) :
    Coded (t b).store ∧
      (∀ q, (exchanges H leaves).tells s q s a b →
        ∀ key, siblings (t b).store key = joined (s b).store (s q).store key) ∧
      ((∀ key, siblings (t b).store key = siblings (s b).store key) ∨
        ∃ q, ∀ key, siblings (t b).store key = joined (s b).store (s q).store key) := by
  have hquiet : ∀ a, (∀ q, ¬ (exchanges H leaves).tells s q s a b) → (t b).store = (s b).store →
      Coded (t b).store ∧ (∀ q, (exchanges H leaves).tells s q s a b →
        ∀ key, siblings (t b).store key = joined (s b).store (s q).store key) ∧
      ((∀ key, siblings (t b).store key = siblings (s b).store key) ∨
        ∃ q, ∀ key, siblings (t b).store key = joined (s b).store (s q).store key) := by
    intro a htells hstore
    rw [hstore]
    exact ⟨hs b, fun q hq => absurd hq (htells q), .inl fun _ => rfl⟩
  cases a with
  | roster a m =>
    cases h
    refine hquiet _ (by rintro q ⟨-, order, rolls, env, hr, -⟩; cases hr) ?_
    by_cases hb : b = a
    · rw [hb, Function.update_self]
    · rw [Function.update_of_ne hb]
  | round a order rolls env =>
    simp only [tick] at h
    split at h
    · next hnone =>
      cases h
      refine hquiet _ ?_ rfl
      rintro q ⟨-, order', rolls', env', hr, hq⟩
      cases hr
      cases hnone.symm.trans hq
    · next p hp =>
      obtain ⟨hrep, hun, keys, hroom, hkeys⟩ := hok p hp
      obtain ⟨out, m', hsync, hsynced⟩ := syncWith_synced hl₀ hl (hs a).permanent (hs p).permanent
        hrep hun hroom hkeys
      rw [hsync, Option.map_some, Option.some.injEq] at h
      by_cases hb : b = a
      · subst hb h
        rw [Function.update_self]
        refine ⟨hsynced.coded (hs b), ?_, .inr ⟨p, hsynced.siblings_eq (hs b)⟩⟩
        rintro q ⟨-, order', rolls', env', hr, hq⟩
        cases hr
        cases hp.symm.trans hq
        exact hsynced.siblings_eq (hs b)
      · refine hquiet _ ?_ ?_
        · rintro q ⟨-, order', rolls', env', hr, -⟩
          cases hr
          exact hb rfl
        · rw [← h, Function.update_of_ne hb, Function.update_eq_self]

lemma coded_tick {a : Tick} (hs : ∀ b, Coded (s b).store) (hok : (exchanges H leaves).ok s a)
    (h : tick H leaves s a = some t) (b : Bytes) : Coded (t b).store :=
  (tick_siblings hl₀ hl hs hok h b).1

lemma mem_of_ticks (hu : ∀ b, Coded (u b).store)
    (hrun : Steps (tick H leaves) (exchanges H leaves).ok u t) {b key : Bytes} {v : Version}
    (hv : v ∈ siblings (t b).store key) : ∃ q, v ∈ siblings (u q).store key := by
  have h := hrun.invariant (I := fun t => (∀ b, Coded (t b).store) ∧
    ∀ b, ∀ v ∈ siblings (t b).store key, ∃ q, v ∈ siblings (u q).store key)
    ⟨hu, fun b v hv => ⟨b, hv⟩⟩ fun s a t hs hok hstep => ?_
  · exact h.2 b v hv
  refine ⟨coded_tick hl₀ hl hs.1 hok hstep, fun b v hv => ?_⟩
  rcases (tick_siblings hl₀ hl hs.1 hok hstep b).2.2 with hsame | ⟨q, hjoin⟩
  · exact hs.2 b v (hsame key ▸ hv)
  · rw [hjoin key, joined, reconcile_eq] at hv
    rcases mem_of_mem_foldl hv with hv | hv
    · exact hs.2 b v hv
    · exact hs.2 q v hv

lemma covers_of_flow {q p key : Bytes} (hu : ∀ b, Coded (u b).store)
    (h : Flow (exchanges H leaves) u q t p) {v : Version} (hv : v ∈ siblings (u q).store key) :
    Covers clk (siblings (t p).store key) (clk v) := by
  refine h.spreads (I := fun s => ∀ b, Coded (s b).store)
    (P := fun s b => Covers clk (siblings (s b).store key) (clk v)) hu
    (fun s a s' hs hok hstep => coded_tick hl₀ hl hs hok hstep) ?_ ?_ (.of_mem hv)
  · intro s a s' b hs hok _ hstep hb
    rcases (tick_siblings hl₀ hl hs hok hstep b).2.2 with hsame | ⟨r, hjoin⟩
    · rwa [hsame key]
    · rw [hjoin key, joined, reconcile_eq]
      exact hb.foldl _
  · intro w r s a s' b _ hs _ hok htells hstep hr
    obtain ⟨rfl, htells'⟩ := htells
    rw [(tick_siblings hl₀ hl hs hok hstep b).2.1 r ⟨rfl, htells'⟩ key, joined, reconcile_eq]
    obtain ⟨x, hx, hle⟩ := hr
    exact (covers_foldl_of_mem hx).trans hle

/-- **Anti-entropy makes the nodes agree.** Start with any number of nodes, and let them make rounds
with peers picked at random. A node that has heard from all those that held something, directly or
through others, holds under every key the causal maxima of all that was held anywhere; and two such
nodes hold the same siblings. No round may meet an eviction, a rejection for size or two buckets
that hash alike, and equal clocks must belong to equal versions. -/
theorem rounds_converge (hu : ∀ b, Coded (u b).store)
    (hinj : ∀ key, {v | ∃ q, v ∈ siblings (u q).store key}.InjOn clk)
    (hrun : Steps (tick H leaves) (exchanges H leaves).ok u t) {p p' : Bytes}
    (hp : ∀ q, (∃ key, siblings (u q).store key ≠ []) → Flow (exchanges H leaves) u q t p)
    (hp' : ∀ q, (∃ key, siblings (u q).store key ≠ []) → Flow (exchanges H leaves) u q t p')
    (key : Bytes) :
    IsMaxima clk (siblings (t p).store key) {v | ∃ q, v ∈ siblings (u q).store key} ∧
      (siblings (t p).store key).Perm (siblings (t p').store key) ∧
      equal (siblings (t p).store key) (siblings (t p').store key) = true := by
  have hcoded : ∀ b, Coded (t b).store :=
    hrun.invariant (I := fun t => ∀ b, Coded (t b).store) hu
      fun s a s' hs hok hstep => coded_tick hl₀ hl hs hok hstep
  have hmax : ∀ b, (∀ q, (∃ key, siblings (u q).store key ≠ []) →
      Flow (exchanges H leaves) u q t b) →
      IsMaxima clk (siblings (t b).store key) {v | ∃ q, v ∈ siblings (u q).store key} := by
    intro b hb
    refine ⟨?_, ?_, (hcoded b).antichain key⟩
    · exact fun v hv => mem_of_ticks hl₀ hl hu hrun hv
    · rintro v ⟨q, hq⟩
      exact covers_of_flow hl₀ hl hu (hb q ⟨key, List.ne_nil_of_mem hq⟩) hq
  have hperm := (hmax p hp).perm (hmax p' hp') (hinj key)
  exact ⟨hmax p hp, hperm, equal_of_perm hperm⟩

end Rounds

/-- A node that holds one key, and another that holds nothing and knows of it. -/
def pair : Bytes → Handler Unit := fun b =>
  if b = [97] then nodeWith [107] [97] [1]
  else { bareNode with members := some ((newMembers ⟨[98], [2], alive, 1⟩ 0).merge
    [⟨[97], [1], alive, 1⟩] 0) }

lemma mem_siblings_pair {q key : Bytes} {v : Version} (h : v ∈ siblings (pair q).store key) :
    q = [97] ∧ v = writtenBy [97] [1] := by
  unfold pair at h
  split_ifs at h with hq
  · rw [show (nodeWith [107] [97] [1]).store = holding { state := () } [107] [writtenBy [97] [1]]
      from rfl, siblings_holding _ _ encodable_writtenBy.1] at h
    split_ifs at h
    · exact ⟨hq, List.mem_singleton.mp h⟩
    · cases h
  · have hnil : siblings bareNode.store key = [] := by
      rw [siblings, blob_eq, valueAt_bareNode]
      rfl
    rw [show siblings _ key = siblings bareNode.store key from rfl, hnil] at h
    cases h

/-- One round of the second node, and both hold the key. -/
theorem rounds_converge_pair : ∃ t : Bytes → Handler Unit, ∀ key,
    (siblings (t [97]).store key).Perm (siblings (t [98]).store key) := by
  let round : Tick := .round [98] default [] default
  have hpick : partner (pair [98]) [98] default [] = some [97] := by decide +kernel
  have hheld := coded_holding ({ state := () } : MapStore Unit) [107] encodable_writtenBy.1
    (List.pairwise_singleton _ _)
  have hcoded : ∀ b, Coded (pair b).store := by
    intro b
    unfold pair
    split_ifs
    · exact hheld
    · exact coded_bareNode
  have hok : (exchanges sha256 1).ok pair round := by
    intro p hp
    cases hpick.symm.trans hp
    obtain ⟨hrep, hun⟩ := clean_second hheld.permanent (valueAt_holding { state := () } [107] _)
      (nodeWith [107] [97] [1]) default
    exact ⟨hrep, hun, _, .inl rfl, fun key hkey => ExtTreeMap.mem_keys.mpr hkey⟩
  have hsome : (tick sha256 1 pair round).isSome := by decide +kernel
  obtain ⟨t, ht⟩ := Option.isSome_iff_exists.mp hsome
  have hrun : Steps (tick sha256 1) (exchanges sha256 1).ok pair t := .tail round .refl hok ht
  rw [← exchanges_step] at ht
  have hholder : ∀ q, (∃ key, siblings (pair q).store key ≠ []) → q = [97] := by
    rintro q ⟨key, hne⟩
    obtain ⟨v, hv⟩ := List.exists_mem_of_ne_nil _ hne
    exact (mem_siblings_pair hv).1
  refine ⟨t, fun key => (rounds_converge zero_le_one (by norm_num) hcoded
    (fun key v hv w hw _ => ?_) hrun (fun q hq => ?_) (fun q hq => ?_) key).2.1⟩
  · obtain ⟨q, hv⟩ := hv
    obtain ⟨q', hw⟩ := hw
    rw [(mem_siblings_pair hv).2, (mem_siblings_pair hw).2]
  · rw [hholder q hq]
    exact .stay round .start hok trivial ht
  · rw [hholder q hq]
    exact .hear round .start .refl hok ⟨rfl, default, [], default, rfl, hpick⟩ ht

end Kyria.Server
