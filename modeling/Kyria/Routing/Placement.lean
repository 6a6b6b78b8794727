import Mathlib.Data.List.Rotate
import Kyria.Routing.Agreement
import Kyria.Lib.FirstSeen

/-!
Which nodes hold a key, and how little that changes when a node leaves
(`internal/cluster/ring.go`).

From the position of a key the ring is read clockwise: the points at or past the key's hash, and
then those before it. All that `Get` and `GetN` answer is read off the order in which the nodes
are first met there, so the binary search, the wrap and the walk are dealt with once.
-/

namespace Kyria.Routing

open Kyria.Lib.Cursor Kyria.Lib.FirstSeen

/-- `Ring.Sort`, the last step of every `rebuild`. -/
def Ring.sort (r : Ring) (s : SortFunc) : Ring := { r with points := s.sort r.points }

/-- `Ring.Remove`. -/
def Ring.remove (r : Ring) (node : Bytes) : Ring :=
  { r with points := r.points.filter fun p => !decide (p.node = node) }

def Ring.Sorted (r : Ring) : Prop := r.points.Pairwise fun p q => p.hash ≤ q.hash

lemma sorted_sort (r : Ring) (s : SortFunc) : (r.sort s).Sorted := s.sorted r.points

lemma Ring.Sorted.remove {r : Ring} (h : r.Sorted) (node : Bytes) : (r.remove node).Sorted :=
  List.Pairwise.filter _ h

/-- The physical nodes on the ring. -/
def Ring.nodes (r : Ring) : List Bytes := r.points.map Point.node

/-! ### The ring from a key on -/

/-- The points of the ring in clockwise order from a position. -/
def Ring.around (r : Ring) (hash : UInt64) : List Point :=
  r.points.filter (fun p => hash ≤ p.hash) ++ r.points.filter fun p => !decide (hash ≤ p.hash)

lemma mem_around {r : Ring} {hash : UInt64} {p : Point} : p ∈ r.around hash ↔ p ∈ r.points := by
  simp only [Ring.around, List.mem_append, List.mem_filter, Bool.not_eq_true', decide_eq_true_eq,
    decide_eq_false_iff_not]
  tauto

lemma searchLoop_eq {f : ℕ → Bool} {first : ℕ} (fuel i j : ℕ)
    (hf : ∀ k, k < j → f k = decide (first ≤ k)) (hi : i ≤ first) (hj : first ≤ j)
    (hfuel : j - i ≤ fuel) : searchLoop f fuel i j = first := by
  induction fuel generalizing i j with
  | zero =>
    rw [searchLoop]
    omega
  | succ fuel ih =>
    rw [searchLoop]
    dsimp only
    split_ifs with hij hmid
    · rw [hf _ (by omega), decide_eq_true_iff] at hmid
      exact ih i _ (fun k hk => hf k (by omega)) hi hmid (by omega)
    · rw [hf _ (by omega), decide_eq_true_iff] at hmid
      exact ih _ j hf (by omega) hj (by omega)
    · omega

lemma Ring.Sorted.points_eq {r : Ring} (h : r.Sorted) (hash : UInt64) :
    r.points.filter (fun p => !decide (hash ≤ p.hash)) ++
      r.points.filter (fun p => hash ≤ p.hash) = r.points := by
  refine filter_append_filter _ (h.imp fun {p q} hpq hp => ?_)
  exact decide_eq_true (UInt64.le_trans (of_decide_eq_true hp) hpq)

lemma Ring.Sorted.search_eq {r : Ring} (h : r.Sorted) (hash : UInt64) :
    (search r.points.length fun i => (r.points[i]?).any fun p => hash ≤ p.hash) =
      (r.points.filter fun p => !decide (hash ≤ p.hash)).length := by
  have hpoints := h.points_eq hash
  have hlen := congrArg List.length hpoints
  rw [List.length_append] at hlen
  refine searchLoop_eq _ 0 _ (fun k hk => ?_) (Nat.zero_le _) (by omega) (by omega)
  nth_rewrite 1 [← hpoints]
  by_cases hbefore : k < (r.points.filter fun p => !decide (hash ≤ p.hash)).length
  · have hp := List.getElem_mem hbefore
    rw [List.getElem?_append_left hbefore, List.getElem?_eq_getElem hbefore, Option.any_some,
      decide_eq_false (by omega : ¬ _ ≤ k)]
    simpa using (List.mem_filter.mp hp).2
  · have hafter : k - (r.points.filter fun p => !decide (hash ≤ p.hash)).length <
        (r.points.filter fun p => hash ≤ p.hash).length := by omega
    have hp := List.getElem_mem hafter
    rw [List.getElem?_append_right (by omega), List.getElem?_eq_getElem hafter, Option.any_some,
      decide_eq_true (by omega : _ ≤ k)]
    exact (List.mem_filter.mp hp).2

lemma Ring.Sorted.rotate_findIndex {r : Ring} (h : r.Sorted) (hash : UInt64) :
    r.points.rotate (findIndex r hash) = r.around hash := by
  have hpoints := h.points_eq hash
  unfold findIndex
  dsimp only
  rw [h.search_eq hash]
  split_ifs with hwrap
  · -- the key is past the last point
    have hlen := congrArg List.length hpoints
    rw [List.length_append] at hlen
    have hnone : r.points.filter (fun p => hash ≤ p.hash) = [] :=
      List.length_eq_zero_iff.mp (by omega)
    rw [hnone, List.append_nil] at hpoints
    rw [List.rotate_zero, Ring.around, hnone, List.nil_append, hpoints]
  · nth_rewrite 1 [← hpoints]
    rw [List.rotate_append_length_eq, Ring.around]

lemma walk_eq {r : Ring} {idx n : ℕ} {is : List ℕ} {ps : List Point} {nodes : List Bytes}
    (his : is.map (fun i => r.points[(idx + i) % r.points.length]?) = ps.map some)
    (hn : nodes.length < n) :
    walk r idx n is nodes =
      nodes ++ ((ps.map Point.node).filter (· ∉ nodes)).eraseDups.take (n - nodes.length) := by
  induction ps generalizing is nodes with
  | nil =>
    rw [List.map_nil, List.map_eq_nil_iff] at his
    simp [his, walk]
  | cons p ps ih =>
    obtain ⟨i, is, rfl⟩ : ∃ i is', is = i :: is' := by
      cases is with
      | nil => simp at his
      | cons i is => exact ⟨i, is, rfl⟩
    rw [List.map_cons, List.map_cons, List.cons.injEq] at his
    obtain ⟨hp, his⟩ := his
    rw [walk, hp, List.map_cons]
    dsimp only
    by_cases hmem : p.node ∈ nodes
    · rw [if_pos hmem, if_neg (by omega), ih his hn, List.filter_cons_of_neg (by simpa using hmem)]
    · have hsplit : (ps.map Point.node).filter (· ∉ nodes ++ [p.node]) =
          ((ps.map Point.node).filter (· ∉ nodes)).filter (· ≠ p.node) := by
        rw [List.filter_filter]
        refine List.filter_congr fun b _ => ?_
        simp [and_comm]
      have htake : n - nodes.length = n - (nodes.length + 1) + 1 := by omega
      rw [if_neg hmem, List.filter_cons_of_pos (by simpa using hmem), eraseDups_cons_ne, htake,
        List.take_succ_cons, ← hsplit, List.length_append, List.length_singleton]
      split_ifs with hfull
      · rw [hfull, Nat.sub_self, List.take_zero]
      · have hlt : (nodes ++ [p.node]).length < n := by
          rw [List.length_append, List.length_singleton]
          omega
        rw [ih his hlt, List.append_assoc, List.length_append, List.length_singleton,
          List.singleton_append]

/-- The nodes in the order in which they are first met, clockwise from a position. -/
def Ring.order (r : Ring) (hash : UInt64) : List Bytes :=
  ((r.around hash).map Point.node).eraseDups

lemma nodup_order (r : Ring) (hash : UInt64) : (r.order hash).Nodup := nodup_eraseDups _

lemma mem_order {r : Ring} {hash : UInt64} {node : Bytes} :
    node ∈ r.order hash ↔ node ∈ r.nodes := by
  simp only [Ring.order, List.mem_eraseDups, Ring.nodes, List.mem_map, mem_around]

lemma length_order (r : Ring) (hash : UInt64) :
    (r.order hash).length = r.nodes.toFinset.card := by
  rw [Ring.order, length_eraseDups]
  congr 1
  ext node
  simp only [List.mem_toFinset, Ring.nodes, List.mem_map, mem_around]

/-- **The replica list of a key** is the start of that order. -/
lemma Ring.Sorted.getN_eq {r : Ring} (h : r.Sorted) (key : Bytes) (n : ℕ) :
    r.getN key n = (r.order (hashStr key)).take n := by
  unfold Ring.getN
  split_ifs with hnone
  · rcases hnone with hlen | rfl
    · rw [List.length_eq_zero_iff] at hlen
      simp [Ring.order, Ring.around, hlen]
    · rfl
  · have hvisits : (List.range r.points.length).map
        (fun i => r.points[(findIndex r (hashStr key) + i) % r.points.length]?) =
        (r.around (hashStr key)).map some := by
      rw [← h.rotate_findIndex]
      refine List.ext_getElem (by simp) fun i hi _ => ?_
      have hpos : 0 < r.points.length := by omega
      simp only [List.getElem_map, List.getElem_range, List.getElem_rotate]
      rw [Nat.add_comm, List.getElem?_eq_getElem (Nat.mod_lt _ hpos)]
    rw [walk_eq hvisits (by simp; omega)]
    simp [Ring.order]

/-- **The owner of a key** is the first in that order. -/
lemma Ring.Sorted.get_eq {r : Ring} (h : r.Sorted) (key : Bytes) :
    r.get key = (r.order (hashStr key)).head? := by
  have hhead : (r.order (hashStr key)).head? = ((r.around (hashStr key)).head?).map Point.node := by
    unfold Ring.order
    cases r.around (hashStr key) with
    | nil => rfl
    | cons p ps => rw [List.map_cons, eraseDups_cons_ne, List.head?_cons, List.head?_cons]; rfl
  rw [hhead, ← h.rotate_findIndex]
  unfold Ring.get
  split_ifs with hlen
  · rw [List.length_eq_zero_iff] at hlen
    simp [hlen]
  · rw [List.head?_rotate (findIndex_lt hlen _)]

/-! ### Clockwise distance -/

/-- The way from a position clockwise to a point, on the circle of all hashes. -/
def Point.ahead (p : Point) (hash : UInt64) : ℕ := (p.hash - hash).toNat

/-- The way from the position of a key to the nearest virtual point of a node. -/
def Ring.distance (r : Ring) (key node : Bytes) : ℕ :=
  (((r.points.filter fun p => p.node = node).map (·.ahead (hashStr key))).min?).getD 0

lemma distance_le {r : Ring} {p : Point} (hp : p ∈ r.points) (key : Bytes) :
    r.distance key p.node ≤ p.ahead (hashStr key) :=
  List.min?_getD_le_of_mem (List.mem_map_of_mem (List.mem_filter.mpr ⟨hp, by simp⟩))

lemma exists_distance {r : Ring} {node : Bytes} (h : node ∈ r.nodes) (key : Bytes) :
    ∃ p ∈ r.points, p.node = node ∧ r.distance key node = p.ahead (hashStr key) := by
  obtain ⟨p, hp, rfl⟩ := List.mem_map.mp h
  have hmem : p.ahead (hashStr key) ∈
      (r.points.filter fun q => q.node = p.node).map (·.ahead (hashStr key)) :=
    List.mem_map_of_mem (List.mem_filter.mpr ⟨hp, by simp⟩)
  obtain ⟨least, hleast⟩ := Option.isSome_iff_exists.mp (List.isSome_min?_of_mem hmem)
  obtain ⟨q, hq, hqleast⟩ := List.mem_map.mp (List.min?_mem hleast)
  obtain ⟨hq, hnode⟩ := List.mem_filter.mp hq
  exact ⟨q, hq, of_decide_eq_true hnode, by rw [Ring.distance, hleast, Option.getD_some, hqleast]⟩

lemma ahead_of_le {p : Point} {hash : UInt64} (h : hash ≤ p.hash) :
    p.ahead hash = p.hash.toNat - hash.toNat := by
  have hle := UInt64.le_iff_toNat_le.mp h
  have hp := p.hash.toNat_lt
  rw [Point.ahead, UInt64.toNat_sub]
  omega

lemma ahead_of_not_le {p : Point} {hash : UInt64} (h : ¬ hash ≤ p.hash) :
    p.ahead hash = 2 ^ 64 - hash.toNat + p.hash.toNat := by
  have hlt := UInt64.lt_iff_toNat_lt.mp (UInt64.not_le.mp h)
  have hh := hash.toNat_lt
  rw [Point.ahead, UInt64.toNat_sub]
  omega

lemma Ring.Sorted.around {r : Ring} (h : r.Sorted) (hash : UInt64) :
    (r.around hash).Pairwise fun p q => p.ahead hash ≤ q.ahead hash := by
  refine List.pairwise_append.mpr ⟨?_, ?_, ?_⟩
  · refine (List.Pairwise.filter _ h).imp_of_mem fun {p q} hp hq hpq => ?_
    have hle := UInt64.le_iff_toNat_le.mp hpq
    rw [ahead_of_le (of_decide_eq_true (List.mem_filter.mp hp).2),
      ahead_of_le (of_decide_eq_true (List.mem_filter.mp hq).2)]
    omega
  · refine (List.Pairwise.filter _ h).imp_of_mem fun {p q} hp hq hpq => ?_
    have hle := UInt64.le_iff_toNat_le.mp hpq
    rw [ahead_of_not_le (by simpa using (List.mem_filter.mp hp).2),
      ahead_of_not_le (by simpa using (List.mem_filter.mp hq).2)]
    omega
  · -- the points past the wrap are further than all before it
    intro p hp q hq
    have hlt := p.hash.toNat_lt
    have hh := hash.toNat_lt
    rw [ahead_of_le (of_decide_eq_true (List.mem_filter.mp hp).2),
      ahead_of_not_le (by simpa using (List.mem_filter.mp hq).2)]
    omega

lemma Ring.Sorted.order {r : Ring} (h : r.Sorted) (key : Bytes) :
    (r.order (hashStr key)).Pairwise fun a b => r.distance key a ≤ r.distance key b := by
  have hfirst := pairwise_eraseDups_map Point.node (·.ahead (hashStr key))
    (h.around (hashStr key))
  refine hfirst.imp_of_mem fun {a b} _ hb hab => ?_
  obtain ⟨p, hp, rfl, hleast⟩ := hab
  obtain ⟨q, hq, rfl, hdist⟩ := exists_distance (mem_order.mp hb) key
  calc r.distance key p.node ≤ p.ahead (hashStr key) := distance_le (mem_around.mp hp) key
    _ ≤ q.ahead (hashStr key) := hleast q (mem_around.mpr hq) rfl
    _ = r.distance key q.node := hdist.symm

/-- **Placement is nearest-clockwise.** The replica list of a key has every node once, as many as
there are up to the number asked for, from the owner on and by the clockwise distance of each
node's nearest point. No node left out is nearer than one listed, and a longer list starts with
the shorter one. -/
theorem getN_nearest_clockwise {r : Ring} (hsorted : r.Sorted) (hne : r.points ≠ []) (key : Bytes)
    {n : ℕ} (hn : 1 ≤ n) :
    (r.getN key n).Nodup ∧
    (r.getN key n).length = min n r.nodes.toFinset.card ∧
    (∃ owner rest, r.get key = some owner ∧ r.getN key n = owner :: rest) ∧
    (r.getN key n).Pairwise (fun a b => r.distance key a ≤ r.distance key b) ∧
    (∀ node ∈ r.nodes, node ∉ r.getN key n →
      ∀ last ∈ (r.getN key n).getLast?, r.distance key last ≤ r.distance key node) ∧
    r.getN key n <+: r.getN key (n + 1) := by
  have horder := hsorted.order key
  simp only [hsorted.getN_eq, hsorted.get_eq]
  refine ⟨(nodup_order r _).take, ?_, ?_, horder.take, ?_, List.take_prefix_take_left (by omega)⟩
  · rw [List.length_take, length_order]
  · cases hcases : r.order (hashStr key) with
    | nil =>
      obtain ⟨p, hp⟩ := List.exists_mem_of_ne_nil _ hne
      have hnode : p.node ∈ r.order (hashStr key) := mem_order.mpr (List.mem_map_of_mem hp)
      rw [hcases] at hnode
      exact absurd hnode List.not_mem_nil
    | cons owner rest =>
      obtain ⟨k, rfl⟩ := Nat.exists_eq_add_of_le' hn
      exact ⟨owner, rest.take k, rfl, rfl⟩
  · intro node hnode hout last hlast
    -- a node left out comes later in the order
    rw [← List.take_append_drop n (r.order (hashStr key))] at horder
    have hlater : node ∈ (r.order (hashStr key)).drop n := by
      have hmem : node ∈ r.order (hashStr key) := mem_order.mpr hnode
      rw [← List.take_append_drop n (r.order (hashStr key)), List.mem_append] at hmem
      exact hmem.resolve_left hout
    exact (List.pairwise_append.mp horder).2.2 _ (List.mem_of_mem_getLast? hlast) _ hlater

/-- Three nodes, of which the second shares a hash with the first. The hash of the key `k` is past
all of them. -/
def threeNodes : Ring :=
  Ring.sort { replicas := 2, points := [⟨9, [65]⟩, ⟨5, [65]⟩, ⟨5, [66]⟩, ⟨2 ^ 63, [67]⟩] }
    SortFunc.insertion

lemma sorted_threeNodes : threeNodes.Sorted := sorted_sort _ _

/-- The list of two nodes of `k` starts over at the first point. -/
theorem getN_nearest_clockwise_wrapped :
    threeNodes.Sorted ∧ threeNodes.getN [107] 2 = [[65], [66]] ∧
      (∀ last ∈ (threeNodes.getN [107] 2).getLast?,
        threeNodes.distance [107] last ≤ threeNodes.distance [107] [67]) ∧
      threeNodes.getN [107] 2 <+: threeNodes.getN [107] 3 := by
  obtain ⟨-, -, -, -, hout, hstart⟩ :=
    getN_nearest_clockwise sorted_threeNodes (by decide +kernel) [107] one_le_two
  exact ⟨sorted_threeNodes, by decide +kernel, hout [67] (by decide +kernel) (by decide +kernel),
    hstart⟩

/-! ### A node leaves -/

lemma around_remove (r : Ring) (c : Bytes) (hash : UInt64) :
    (r.remove c).around hash = (r.around hash).filter fun p => !decide (p.node = c) := by
  simp only [Ring.around, Ring.remove, List.filter_append, List.filter_filter, Bool.and_comm]

lemma order_remove (r : Ring) (c : Bytes) (hash : UInt64) :
    (r.remove c).order hash = (r.order hash).filter (· ≠ c) := by
  rw [Ring.order, Ring.order, ← eraseDups_filter, List.filter_map, around_remove]
  congr 3
  funext p
  simp

/-- **Minimal remapping.** When a node leaves, the ring stays sorted, and the replica list of a
key is what the list of one more node was, without that node. Thus a key keeps its owner unless
it was that node, and a replica set loses nothing else and gains at most one node. -/
theorem getN_remove {r : Ring} (hsorted : r.Sorted) (c key : Bytes) (n : ℕ) :
    (r.remove c).Sorted ∧
    (r.remove c).getN key n = ((r.getN key (n + 1)).filter (· ≠ c)).take n ∧
    (r.get key ≠ some c → (r.remove c).get key = r.get key) ∧
    (∀ node ∈ r.getN key n, node ≠ c → node ∈ (r.remove c).getN key n) ∧
    (((r.remove c).getN key n).toFinset \ (r.getN key n).toFinset).card ≤ 1 := by
  have hnodup := nodup_order r (hashStr key)
  have hlist := take_filter_ne hnodup c n
  simp only [(hsorted.remove c).getN_eq, (hsorted.remove c).get_eq, hsorted.getN_eq,
    hsorted.get_eq, order_remove]
  refine ⟨hsorted.remove c, hlist, ?_, ?_, ?_⟩
  · cases r.order (hashStr key) with
    | nil => simp
    | cons owner rest =>
      intro hown
      have hne : owner ≠ c := fun h => hown (by rw [h, List.head?_cons])
      rw [List.filter_cons_of_pos (by simpa using hne), List.head?_cons, List.head?_cons]
  · intro node hnode hne
    have hstart : ((r.order (hashStr key)).take n).filter (· ≠ c) <+:
        ((r.order (hashStr key)).filter (· ≠ c)).take n :=
      List.prefix_take_iff.mpr ⟨(List.take_prefix n _).filter _,
        (List.length_filter_le _ _).trans (List.length_take_le n _)⟩
    exact hstart.subset (List.mem_filter.mpr ⟨hnode, decide_eq_true hne⟩)
  · -- only the next in the order can come in
    have hsub : (((r.order (hashStr key)).filter (· ≠ c)).take n).toFinset \
        ((r.order (hashStr key)).take n).toFinset ⊆
          (r.order (hashStr key))[n]?.toList.toFinset := by
      intro node hnode
      obtain ⟨hnew, hold⟩ := Finset.mem_sdiff.mp hnode
      rw [List.mem_toFinset] at hnew hold ⊢
      rw [hlist] at hnew
      have hnext := List.mem_of_mem_filter (List.mem_of_mem_take hnew)
      rw [List.take_add_one, List.mem_append] at hnext
      exact hnext.resolve_left hold
    calc _ ≤ ((r.order (hashStr key))[n]?.toList.toFinset).card := Finset.card_le_card hsub
      _ ≤ (r.order (hashStr key))[n]?.toList.length := List.toFinset_card_le _
      _ ≤ 1 := by cases (r.order (hashStr key))[n]? <;> simp

/-- Without the owner of `k` its list starts with the second node. -/
theorem getN_remove_owner :
    threeNodes.get [107] = some [65] ∧
      (threeNodes.remove [65]).getN [107] 2 =
        ((threeNodes.getN [107] 3).filter (· ≠ [65])).take 2 ∧
      (threeNodes.remove [65]).getN [107] 2 = [[66], [67]] :=
  ⟨by decide +kernel, (getN_remove sorted_threeNodes [65] [107] 2).2.1, by decide +kernel⟩

end Kyria.Routing
