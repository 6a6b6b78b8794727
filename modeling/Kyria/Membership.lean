import Kyria.Lib.Cursor
import Kyria.Lib.MapOrder
import Kyria.Time

/-!
The roster a node keeps of its cluster (`internal/cluster/membership.go`), and what a
sequence of merges leaves in it: for every other node the freshest record heard, for the
node itself an incarnation above every claim that it is not alive.
-/

namespace Kyria.Membership

open Std (ExtTreeMap LawfulEqOrd)
open Kyria.Lib.Cursor Kyria.Lib.MapOrder Kyria.Time

/-- The liveness byte. It is not checked when it comes off the wire, so any value occurs; of
two states the larger is the deader. -/
abbrev NodeState := UInt8

def alive : NodeState := 0
def dead : NodeState := 2

@[ext] structure Node where
  id : Bytes
  addr : Bytes
  state : NodeState
  incarnation : UInt64
  deriving DecidableEq

structure Entry where
  node : Node
  lastSeen : ℕ

/-- A roster files every record under its own ID and holds self as `Alive`. -/
structure Members where
  self : Bytes
  nodes : ExtTreeMap Bytes Entry
  keyed : ∀ (id : Bytes) (e : Entry), nodes[id]? = some e → e.node.id = id
  selfAlive : ∃ e : Entry, nodes[self]? = some e ∧ e.node.state = alive

namespace Members

/-- The record held for `id`. -/
def node (m : Members) (id : Bytes) : Option Node := m.nodes[id]?.map Entry.node

lemma isSome_self (m : Members) : (m.nodes[m.self]?).isSome := by
  obtain ⟨e, he, -⟩ := m.selfAlive
  simp [he]

/-- `Self`. -/
def own (m : Members) : Node := (m.nodes[m.self]?.get m.isSome_self).node

lemma node_self (m : Members) : m.node m.self = some m.own := by
  obtain ⟨e, he, -⟩ := m.selfAlive
  simp only [node, own, he, Option.map_some, Option.get_some]

lemma own_state (m : Members) : m.own.state = alive := by
  obtain ⟨e, he, ha⟩ := m.selfAlive
  simpa only [own, he, Option.get_some] using ha

lemma id_of_node {m : Members} {id : Bytes} {n : Node} (h : m.node id = some n) : n.id = id := by
  obtain ⟨e, he, rfl⟩ := Option.map_eq_some_iff.mp h
  exact m.keyed id e he

/-- The roster with a new record, `lastSeen` at `now`. -/
def put (m : Members) (n : Node) (now : ℕ) (h : n.id = m.self → n.state = alive) : Members where
  self := m.self
  nodes := m.nodes.insert n.id { node := n, lastSeen := now }
  keyed id e he := by
    rw [ExtTreeMap.getElem?_insert] at he
    split_ifs at he with hc
    · cases he
      exact LawfulEqOrd.compare_eq_iff_eq.mp hc
    · exact m.keyed id e he
  selfAlive := by
    simp only [ExtTreeMap.getElem?_insert, LawfulEqOrd.compare_eq_iff_eq]
    split_ifs with hc
    · exact ⟨_, rfl, h hc⟩
    · exact m.selfAlive

@[simp] lemma self_put (m : Members) (n : Node) (now : ℕ) (h) : (m.put n now h).self = m.self := rfl

lemma node_put (m : Members) (n : Node) (now : ℕ) (h) (id : Bytes) :
    (m.put n now h).node id = if n.id = id then some n else m.node id := by
  simp only [node, put, ExtTreeMap.getElem?_insert, LawfulEqOrd.compare_eq_iff_eq]
  split_ifs <;> rfl

end Members

/-- `NewMembers`: self alone, forced to state `Alive`. -/
def newMembers (self : Node) (now : ℕ) : Members where
  self := self.id
  nodes := (∅ : ExtTreeMap Bytes Entry).insert self.id
    { node := { self with state := alive }, lastSeen := now }
  keyed id e he := by
    rw [ExtTreeMap.getElem?_insert] at he
    split_ifs at he with hc
    · cases he
      exact LawfulEqOrd.compare_eq_iff_eq.mp hc
    · simp at he
  selfAlive := ⟨_, ExtTreeMap.getElem?_insert_self, rfl⟩

namespace Members

/-- `Bump`, the heartbeat. The incarnation wraps around at `2 ^ 64`. -/
def bump (m : Members) (now : ℕ) : Members :=
  m.put { m.own with incarnation := m.own.incarnation + 1 } now fun _ => m.own_state

/-- What the record `r` changes in the record known under its ID: the new one, or `none`
where it is ignored. -/
def news (self : Bytes) (known : Option Node) (r : Node) : Option Node :=
  match known with
  | none => some r
  | some l =>
    if r.id = self then
      if r.state ≠ alive ∧ l.incarnation ≤ r.incarnation then
        some { l with incarnation := r.incarnation + 1, state := alive }
      else none
    else if l.incarnation < r.incarnation then some r
    else if r.incarnation = l.incarnation ∧ l.state < r.state then
      some { l with state := r.state }
    else none

lemma news_keeps {m : Members} {r n : Node} (h : news m.self (m.node r.id) r = some n) :
    n.id = r.id ∧ (n.id = m.self → n.state = alive) := by
  rcases hk : m.node r.id with _ | l
  · rw [hk] at h
    cases h
    refine ⟨rfl, fun hs => ?_⟩
    -- self is never unknown
    rw [hs, node_self] at hk
    simp at hk
  · have hl := id_of_node hk
    rw [hk] at h
    simp only [news] at h
    split_ifs at h with hs
    · cases h
      exact ⟨hl, fun _ => rfl⟩
    · cases h
      exact ⟨rfl, fun hn => absurd hn hs⟩
    · cases h
      exact ⟨hl, fun hn => absurd (hl.symm.trans hn) hs⟩

lemma news_cases {self : Bytes} {known : Option Node} {r n : Node}
    (h : news self known r = some n) :
    n = r ∨ ∃ l, known = some l ∧ n.id = l.id ∧ n.addr = l.addr ∧
      (r.id = self ∨ n.state ≠ alive) := by
  rcases known with _ | l
  · cases h
    exact .inl rfl
  · simp only [news] at h
    split_ifs at h with hs hc hlt htie
    · cases h
      exact .inr ⟨l, rfl, rfl, rfl, .inl hs⟩
    · cases h
      exact .inl rfl
    · cases h
      refine .inr ⟨l, rfl, rfl, rfl, .inr fun hr => ?_⟩
      exact UInt8.not_lt_zero (hr ▸ htie.2)

/-- One round of the loop of `Merge`. -/
def mergeOne (m : Members) (r : Node) (now : ℕ) : Members :=
  match h : news m.self (m.node r.id) r with
  | some n => m.put n now (news_keeps h).2
  | none => m

/-- `Merge`. -/
def merge (m : Members) (remote : List Node) (now : ℕ) : Members :=
  remote.foldl (fun m r => m.mergeOne r now) m

/-- What `DetectFailures` makes of one entry. -/
def detect (self : Bytes) (now : ℕ) (timeout : ℤ) (l : Entry) : Entry :=
  if l.node.id = self then l
  else if l.node.state = alive ∧ sub now l.lastSeen > timeout then
    { l with node := { l.node with state := dead } }
  else l

lemma id_detect (self : Bytes) (now : ℕ) (timeout : ℤ) (l : Entry) :
    (detect self now timeout l).node.id = l.node.id := by
  unfold detect
  split_ifs <;> rfl

/-- `DetectFailures`. -/
def detectFailures (m : Members) (now : ℕ) (timeout : ℤ) : Members where
  self := m.self
  nodes := m.nodes.map fun _ l => detect m.self now timeout l
  keyed id e he := by
    rw [ExtTreeMap.getElem?_map] at he
    obtain ⟨l, hl, rfl⟩ := Option.map_eq_some_iff.mp he
    rw [id_detect]
    exact m.keyed id l hl
  selfAlive := by
    obtain ⟨e, he, ha⟩ := m.selfAlive
    refine ⟨e, ?_, ha⟩
    rw [ExtTreeMap.getElem?_map, he, Option.map_some, detect, if_pos (m.keyed _ e he)]

/-- `Snapshot`: every record, in the order the map is visited in. -/
def snapshot (m : Members) (o : VisitOrder (Bytes × Entry)) : List Node :=
  (o.visit 0 m.nodes.toList).map fun p => p.2.node

/-- `Alive`: the records in that state. -/
def aliveNodes (m : Members) (o : VisitOrder (Bytes × Entry)) : List Node :=
  (m.snapshot o).filter fun n => n.state = alive

lemma mem_snapshot {m : Members} {o : VisitOrder (Bytes × Entry)} {n : Node} :
    n ∈ m.snapshot o ↔ m.node n.id = some n := by
  simp only [snapshot, List.mem_map, VisitOrder.mem_visit, Prod.exists,
    ExtTreeMap.mem_toList_iff_getElem?_eq_some]
  constructor
  · rintro ⟨id, e, he, rfl⟩
    have hid := m.keyed id e he
    rw [hid, node, he, Option.map_some]
  · intro h
    obtain ⟨e, he, rfl⟩ := Option.map_eq_some_iff.mp h
    exact ⟨_, e, he, rfl⟩

/-! ### One record -/

@[simp] lemma self_mergeOne (m : Members) (r : Node) (now : ℕ) :
    (m.mergeOne r now).self = m.self := by
  unfold mergeOne
  split <;> rfl

lemma getElem?_mergeOne (m : Members) (r : Node) (now : ℕ) (id : Bytes) :
    (m.mergeOne r now).nodes[id]? =
      if r.id = id then ((news m.self (m.node id) r).map fun n => ⟨n, now⟩).or m.nodes[id]?
      else m.nodes[id]? := by
  unfold mergeOne
  split
  · next n h =>
    simp only [put, ExtTreeMap.getElem?_insert, LawfulEqOrd.compare_eq_iff_eq, (news_keeps h).1]
    split_ifs with hr
    · rw [← hr, h, Option.map_some, Option.some_or]
    · rfl
  · next h =>
    split_ifs with hr
    · rw [← hr, h, Option.map_none, Option.none_or]
    · rfl

lemma node_mergeOne (m : Members) (r : Node) (now : ℕ) (id : Bytes) :
    (m.mergeOne r now).node id =
      if r.id = id then (news m.self (m.node id) r).or (m.node id) else m.node id := by
  rw [node, getElem?_mergeOne]
  split_ifs with hr
  · rcases news m.self (m.node id) r with _ | n
    · rfl
    · rfl
  · rfl

/-! ### One operation -/

lemma own_eq {m : Members} {n : Node} (h : m.node m.self = some n) : m.own = n :=
  Option.some.inj (m.node_self.symm.trans h)

lemma own_id (m : Members) : m.own.id = m.self := id_of_node m.node_self

lemma node_bump (m : Members) (now : ℕ) (id : Bytes) :
    (m.bump now).node id =
      if m.self = id then some { m.own with incarnation := m.own.incarnation + 1 }
      else m.node id := by
  rw [bump, node_put]
  simp only [own_id]

lemma getElem?_bump_of_ne {m : Members} (now : ℕ) {id : Bytes} (h : id ≠ m.self) :
    (m.bump now).nodes[id]? = m.nodes[id]? := by
  simp only [bump, put, ExtTreeMap.getElem?_insert, LawfulEqOrd.compare_eq_iff_eq, own_id,
    if_neg h.symm]

lemma own_bump (m : Members) (now : ℕ) :
    (m.bump now).own = { m.own with incarnation := m.own.incarnation + 1 } := by
  refine own_eq ?_
  rw [node_bump]
  exact if_pos rfl

lemma getElem?_detectFailures (m : Members) (now : ℕ) (timeout : ℤ) (id : Bytes) :
    (m.detectFailures now timeout).nodes[id]? =
      (m.nodes[id]?).map (detect m.self now timeout) := ExtTreeMap.getElem?_map

lemma node_detectFailures (m : Members) (now : ℕ) (timeout : ℤ) (id : Bytes) :
    (m.detectFailures now timeout).node id =
      (m.nodes[id]?).map fun e => (detect m.self now timeout e).node := by
  rw [node, getElem?_detectFailures, Option.map_map]
  rfl

lemma own_detectFailures (m : Members) (now : ℕ) (timeout : ℤ) :
    (m.detectFailures now timeout).own = m.own := by
  refine own_eq ?_
  obtain ⟨e, he, hown⟩ := Option.map_eq_some_iff.mp m.node_self
  rw [show (m.detectFailures now timeout).self = m.self from rfl, node_detectFailures, he,
    Option.map_some, detect, if_pos (m.keyed _ e he), hown]

lemma node_detectFailures_of_ne {m : Members} {id : Bytes} {r : Node} (now : ℕ) (timeout : ℤ)
    (h : m.node id = some r) (hs : r.state ≠ alive) :
    (m.detectFailures now timeout).node id = some r := by
  obtain ⟨e, he, rfl⟩ := Option.map_eq_some_iff.mp h
  rw [node_detectFailures, he, Option.map_some, detect]
  split_ifs with hself hlate
  · rfl
  · exact absurd hlate.1 hs
  · rfl

lemma node_of_detectFailures {m : Members} {id : Bytes} {r : Node} {now : ℕ} {timeout : ℤ}
    (h : (m.detectFailures now timeout).node id = some r) (hs : r.state = alive) :
    m.node id = some r := by
  rw [node_detectFailures] at h
  obtain ⟨e, he, rfl⟩ := Option.map_eq_some_iff.mp h
  have hkept : detect m.self now timeout e = e := by
    unfold detect at hs ⊢
    split_ifs at hs ⊢ with hself hlate
    · rfl
    · exact absurd hs (show dead ≠ alive by decide)
    · rfl
  rw [hkept, node, he, Option.map_some]

/-! ### The snapshot of another roster -/

lemma distinct_snapshot (m : Members) (o : VisitOrder (Bytes × Entry)) :
    (m.snapshot o).Pairwise fun a b => a.id ≠ b.id := by
  refine List.pairwise_map.mpr ((distinct_of_perm (o.perm 0 m.nodes.toList)).imp_of_mem ?_)
  intro a b ha hb hne heq
  have hkey : ∀ p ∈ o.visit 0 m.nodes.toList, p.2.node.id = p.1 := by
    intro p hp
    rw [VisitOrder.mem_visit] at hp
    exact m.keyed p.1 p.2 (ExtTreeMap.mem_toList_iff_getElem?_eq_some.mp hp)
  rw [hkey a ha, hkey b hb] at heq
  exact hne (LawfulEqOrd.compare_eq_iff_eq.mpr heq)

lemma getElem?_merge_of_absent {m : Members} {remote : List Node} {id : Bytes} (now : ℕ)
    (h : ∀ r ∈ remote, r.id ≠ id) : (m.merge remote now).nodes[id]? = m.nodes[id]? := by
  unfold merge
  induction remote generalizing m with
  | nil => rfl
  | cons r remote ih =>
    rw [List.foldl_cons, ih fun x hx => h x (List.mem_cons_of_mem _ hx), getElem?_mergeOne,
      if_neg (h r List.mem_cons_self)]

lemma getElem?_merge_of_mem {m : Members} {remote : List Node} {r : Node} (now : ℕ)
    (hd : remote.Pairwise fun a b => a.id ≠ b.id) (hr : r ∈ remote) :
    (m.merge remote now).nodes[r.id]? =
      ((news m.self (m.node r.id) r).map fun n => ⟨n, now⟩).or m.nodes[r.id]? := by
  induction remote generalizing m with
  | nil => cases hr
  | cons a remote ih =>
    obtain ⟨ha, hd⟩ := List.pairwise_cons.mp hd
    have hone := getElem?_mergeOne m a now r.id
    rcases List.mem_cons.mp hr with rfl | hr
    · -- the others are about other nodes
      rw [if_pos rfl] at hone
      exact (getElem?_merge_of_absent now fun x hx => (ha x hx).symm).trans hone
    · rw [if_neg (ha r hr)] at hone
      have hnode : (m.mergeOne a now).node r.id = m.node r.id := congrArg (Option.map _) hone
      have hrest := ih hd hr (m := m.mergeOne a now)
      rw [self_mergeOne, hnode, hone] at hrest
      exact hrest

/-- **What a snapshot brings**: of every node at most one record. -/
lemma getElem?_merge_snapshot (m x : Members) (o : VisitOrder (Bytes × Entry)) (now : ℕ)
    (id : Bytes) :
    (m.merge (x.snapshot o) now).nodes[id]? =
      (((x.node id).bind (news m.self (m.node id))).map fun n => ⟨n, now⟩).or m.nodes[id]? := by
  rcases hr : x.node id with _ | r
  · rw [Option.bind_none, Option.map_none, Option.none_or]
    refine getElem?_merge_of_absent now fun r hmem hid => ?_
    rw [mem_snapshot, hid, hr] at hmem
    cases hmem
  · have hid := id_of_node hr
    subst hid
    rw [Option.bind_some]
    exact getElem?_merge_of_mem now (x.distinct_snapshot o) (mem_snapshot.mpr hr)

lemma node_merge_snapshot (m x : Members) (o : VisitOrder (Bytes × Entry)) (now : ℕ)
    (id : Bytes) :
    (m.merge (x.snapshot o) now).node id =
      ((x.node id).bind (news m.self (m.node id))).or (m.node id) := by
  rw [node, getElem?_merge_snapshot]
  rcases (x.node id).bind (news m.self (m.node id)) with _ | n
  · rfl
  · rfl

/-- A sequence of `Merge` calls, each a batch of records and the time it came in. -/
def mergeAll (m : Members) (calls : List (List Node × ℕ)) : Members :=
  calls.foldl (fun m c => m.merge c.1 c.2) m

end Members

/-- The record is in one of the batches. -/
def Delivered (calls : List (List Node × ℕ)) (r : Node) : Prop := ∃ c ∈ calls, r ∈ c.1

lemma delivered_cons {c : List Node × ℕ} {calls : List (List Node × ℕ)} {r : Node} :
    Delivered (c :: calls) r ↔ r ∈ c.1 ∨ Delivered calls r := by
  simp [Delivered]

/-! ### What is heard about another node -/

/-- The records about one node: the one already known and the ones delivered. -/
def Heard (known : Option Node) (D : Set Node) (r : Node) : Prop := known = some r ∨ r ∈ D

/-- `n` has the highest incarnation heard, and the highest state heard at that incarnation.
The address is the known one where the known record has that incarnation already, and
otherwise comes with a record that has it. -/
structure Freshest (known : Option Node) (D : Set Node) (n : Node) : Prop where
  incarnation : IsGreatest { k | ∃ r, Heard known D r ∧ r.incarnation.toNat = k }
    n.incarnation.toNat
  state : IsGreatest
    { k | ∃ r, Heard known D r ∧ r.incarnation = n.incarnation ∧ r.state.toNat = k }
    n.state.toNat
  addr : ∃ r, Heard known D r ∧ r.incarnation = n.incarnation ∧ r.addr = n.addr
  kept : ∀ l, known = some l → l.incarnation = n.incarnation → l.addr = n.addr

/-- What a roster holds for a node it has heard `D` about: nothing if that is nothing. -/
def Settled (known : Option Node) (D : Set Node) : Option Node → Prop
  | none => ∀ r, ¬ Heard known D r
  | some n => Freshest known D n

lemma heard_insert {known : Option Node} {D : Set Node} {r x : Node} :
    Heard known (insert r D) x ↔ x = r ∨ Heard known D x := by
  simp only [Heard, Set.mem_insert_iff]
  tauto

lemma Freshest.le {known : Option Node} {D : Set Node} {n r : Node} (h : Freshest known D n)
    (hr : Heard known D r) : r.incarnation ≤ n.incarnation :=
  UInt64.le_iff_toNat_le.mpr (h.incarnation.2 ⟨r, hr, rfl⟩)

lemma Freshest.state_le {known : Option Node} {D : Set Node} {n r : Node}
    (h : Freshest known D n) (hr : Heard known D r) (he : r.incarnation = n.incarnation) :
    r.state ≤ n.state :=
  UInt8.le_iff_toNat_le.mpr (h.state.2 ⟨r, hr, he, rfl⟩)

lemma Freshest.mk' {known : Option Node} {D : Set Node} {n : Node}
    (hle : ∀ r, Heard known D r → r.incarnation ≤ n.incarnation)
    (hst : ∀ r, Heard known D r → r.incarnation = n.incarnation → r.state ≤ n.state)
    (hat : ∃ r, Heard known D r ∧ r.incarnation = n.incarnation ∧ r.state = n.state)
    (haddr : ∃ r, Heard known D r ∧ r.incarnation = n.incarnation ∧ r.addr = n.addr)
    (hkept : ∀ l, known = some l → l.incarnation = n.incarnation → l.addr = n.addr) :
    Freshest known D n := by
  obtain ⟨w, hw, hwi, hws⟩ := hat
  refine ⟨⟨⟨w, hw, by rw [hwi]⟩, ?_⟩, ⟨⟨w, hw, hwi, by rw [hws]⟩, ?_⟩, haddr, hkept⟩
  · rintro k ⟨r, hr, rfl⟩
    exact UInt64.le_iff_toNat_le.mp (hle r hr)
  · rintro k ⟨r, hr, hri, rfl⟩
    exact UInt8.le_iff_toNat_le.mp (hst r hr hri)

lemma Freshest.fresher {known : Option Node} {D : Set Node} {n r : Node} (h : Freshest known D n)
    (hinc : n.incarnation < r.incarnation) : Freshest known (insert r D) r := by
  have hnew : Heard known (insert r D) r := heard_insert.mpr (.inl rfl)
  have hlt : ∀ x, Heard known D x → x.incarnation < r.incarnation := fun x hx =>
    UInt64.lt_of_le_of_lt (h.le hx) hinc
  refine Freshest.mk' (fun x hx => ?_) (fun x hx he => ?_) ⟨r, hnew, rfl, rfl⟩
    ⟨r, hnew, rfl, rfl⟩ fun l hl he => ?_
  · rcases heard_insert.mp hx with rfl | hx
    · exact UInt64.le_refl _
    · exact UInt64.le_of_lt (hlt x hx)
  · rcases heard_insert.mp hx with rfl | hx
    · exact UInt8.le_refl _
    · exact absurd he (UInt64.ne_of_lt (hlt x hx))
  · exact absurd he (UInt64.ne_of_lt (hlt l (.inl hl)))

lemma Freshest.deader {known : Option Node} {D : Set Node} {n r : Node} (h : Freshest known D n)
    (hinc : r.incarnation = n.incarnation) (hst : n.state < r.state) :
    Freshest known (insert r D) { n with state := r.state } := by
  have hnew : Heard known (insert r D) r := heard_insert.mpr (.inl rfl)
  obtain ⟨a, ha, hai, haa⟩ := h.addr
  refine Freshest.mk' (fun x hx => ?_) (fun x hx he => ?_) ⟨r, hnew, hinc, rfl⟩
    ⟨a, heard_insert.mpr (.inr ha), hai, haa⟩ h.kept
  · rcases heard_insert.mp hx with rfl | hx
    · exact UInt64.le_of_eq hinc
    · exact h.le hx
  · rcases heard_insert.mp hx with rfl | hx
    · exact UInt8.le_refl _
    · exact UInt8.le_trans (h.state_le hx he) (UInt8.le_of_lt hst)

lemma Freshest.stale {known : Option Node} {D : Set Node} {n r : Node} (h : Freshest known D n)
    (hinc : ¬ n.incarnation < r.incarnation)
    (htie : ¬ (r.incarnation = n.incarnation ∧ n.state < r.state)) :
    Freshest known (insert r D) n := by
  obtain ⟨a, ha, hai, haa⟩ := h.addr
  obtain ⟨w, hw, hwi, hws⟩ := h.state.1
  refine Freshest.mk' (fun x hx => ?_) (fun x hx he => ?_)
    ⟨w, heard_insert.mpr (.inr hw), hwi, UInt8.toNat_inj.mp hws⟩
    ⟨a, heard_insert.mpr (.inr ha), hai, haa⟩ h.kept
  · rcases heard_insert.mp hx with rfl | hx
    · exact UInt64.not_lt.mp hinc
    · exact h.le hx
  · rcases heard_insert.mp hx with rfl | hx
    · exact UInt8.not_lt.mp fun hs => htie ⟨he, hs⟩
    · exact h.state_le hx he

lemma Settled.step {self : Bytes} {known cur : Option Node} {D : Set Node} {r : Node}
    (hr : r.id ≠ self) (h : Settled known D cur) :
    Settled known (insert r D) ((Members.news self cur r).or cur) := by
  rcases cur with _ | n
  · -- the first record about the node
    have hx : ∀ x, Heard known (insert r D) x → x = r := fun x hx =>
      (heard_insert.mp hx).resolve_right (h x)
    have hself : Heard known (insert r D) r := heard_insert.mpr (.inl rfl)
    refine Freshest.mk' (fun x hx' => ?_) (fun x hx' _ => ?_) ⟨r, hself, rfl, rfl⟩
      ⟨r, hself, rfl, rfl⟩ fun l hl _ => absurd (.inl hl) (h l)
    · rw [hx x hx']; exact UInt64.le_refl _
    · rw [hx x hx']; exact UInt8.le_refl _
  · have hn : Freshest known D n := h
    simp only [Members.news, if_neg hr]
    split_ifs with hinc htie
    · exact hn.fresher hinc
    · exact hn.deader htie.1 htie.2
    · exact hn.stale hinc htie

lemma Settled.unique {known a b : Option Node} {D : Set Node} {id : Bytes}
    (hD : ∀ r ∈ D, ∀ r' ∈ D, r.incarnation = r'.incarnation → r.addr = r'.addr)
    (ha : Settled known D a) (hb : Settled known D b)
    (hida : ∀ n, a = some n → n.id = id) (hidb : ∀ n, b = some n → n.id = id) : a = b := by
  rcases a with _ | n <;> rcases b with _ | n'
  · rfl
  · obtain ⟨r, hr, -⟩ := hb.addr
    exact absurd hr (ha r)
  · obtain ⟨r, hr, -⟩ := ha.addr
    exact absurd hr (hb r)
  · have hinc : n.incarnation = n'.incarnation :=
      UInt64.toNat_inj.mp (ha.incarnation.unique hb.incarnation)
    have hstate : n.state = n'.state := by
      refine UInt8.toNat_inj.mp (ha.state.unique ?_)
      rw [hinc]
      exact hb.state
    have haddr : n.addr = n'.addr := by
      obtain ⟨r, hr, hri, hra⟩ := ha.addr
      obtain ⟨r', hr', hri', hra'⟩ := hb.addr
      rcases hr with hk | hr
      · rw [← ha.kept r hk hri, hb.kept r hk (hri.trans hinc)]
      rcases hr' with hk | hr'
      · rw [← ha.kept r' hk (hri'.trans hinc.symm), hb.kept r' hk hri']
      · rw [← hra, ← hra', hD r hr r' hr' (by rw [hri, hri', hinc])]
    have hid : n.id = n'.id := (hida n rfl).trans (hidb n' rfl).symm
    exact congrArg some (Node.ext hid haddr hstate hinc)

/-! ### What is heard about self -/

/-- What claims a node has to be above: its incarnation of before, and one more than any
claim in `D` that it is not alive. -/
def Floors (own : Node) (D : Set Node) : Set ℕ :=
  { k | k = own.incarnation.toNat ∨ ∃ c ∈ D, c.state ≠ alive ∧ k = c.incarnation.toNat + 1 }

/-- `n` is `own` raised just as far as the claims in `D` demand. -/
structure Refuted (own : Node) (D : Set Node) (n : Node) : Prop where
  same : n = { own with incarnation := n.incarnation }
  incarnation : IsGreatest (Floors own D) n.incarnation.toNat

lemma mem_floors_insert {own r : Node} {D : Set Node} {k : ℕ} : k ∈ Floors own (insert r D) ↔
    k ∈ Floors own D ∨ (r.state ≠ alive ∧ k = r.incarnation.toNat + 1) := by
  simp only [Floors, Set.mem_ofPred_eq, Set.mem_insert_iff, exists_eq_or_imp]
  rw [or_assoc, or_comm (a := r.state ≠ alive ∧ _)]

lemma Refuted.step {own n r : Node} {D : Set Node} (h : Refuted own D n)
    (hown : own.state = alive) (hmax : r.state ≠ alive → r.incarnation.toNat + 1 < 2 ^ 64) :
    ∃ n', (Members.news r.id (some n) r).or (some n) = some n' ∧ Refuted own (insert r D) n' := by
  simp only [Members.news, if_true]
  split_ifs with hc
  · obtain ⟨hs, hle⟩ := hc
    have hle' := UInt64.le_iff_toNat_le.mp hle
    have hsucc : (r.incarnation + 1).toNat = r.incarnation.toNat + 1 := by
      rw [UInt64.toNat_add]
      exact Nat.mod_eq_of_lt (hmax hs)
    refine ⟨_, rfl, ?_, ?_, ?_⟩
    · rw [h.same]
      simp only [hown]
    · exact mem_floors_insert.mpr (.inr ⟨hs, hsucc⟩)
    · intro k hk
      simp only [hsucc]
      rcases mem_floors_insert.mp hk with hk | ⟨-, rfl⟩
      · have := h.incarnation.2 hk
        omega
      · exact le_rfl
  · refine ⟨n, rfl, h.same, mem_floors_insert.mpr (.inl h.incarnation.1), fun k hk => ?_⟩
    rcases mem_floors_insert.mp hk with hk | ⟨hs, rfl⟩
    · exact h.incarnation.2 hk
    · have hlt : r.incarnation < n.incarnation := UInt64.not_le.mp fun hle => hc ⟨hs, hle⟩
      exact UInt64.lt_iff_toNat_lt.mp hlt

lemma Refuted.unique {own n n' : Node} {D : Set Node} (h : Refuted own D n)
    (h' : Refuted own D n') : n = n' := by
  have hinc := UInt64.toNat_inj.mp (h.incarnation.unique h'.incarnation)
  rw [h.same, h'.same, hinc]

/-! ### Whole sequences of merges -/

namespace Members

variable {id : Bytes} {P : Set Node → Option Node → Prop} {Q : Node → Prop} {m : Members}
  {D : Set Node}

@[simp] lemma self_merge (m : Members) (remote : List Node) (now : ℕ) :
    (m.merge remote now).self = m.self := by
  unfold merge
  induction remote generalizing m with
  | nil => rfl
  | cons r remote ih => rw [List.foldl_cons, ih, self_mergeOne]

/-- The records of a batch that are about `id`. -/
def about (id : Bytes) (remote : List Node) : Set Node := { r | r ∈ remote ∧ r.id = id }

lemma union_about_cons_of_eq {r : Node} (remote : List Node) (hr : r.id = id) :
    D ∪ about id (r :: remote) = insert r D ∪ about id remote := by
  ext x
  simp only [about, List.mem_cons, Set.mem_union, Set.mem_ofPred_eq, Set.mem_insert_iff]
  constructor
  · rintro (hx | ⟨rfl | hx, hid⟩)
    · exact .inl (.inr hx)
    · exact .inl (.inl rfl)
    · exact .inr ⟨hx, hid⟩
  · rintro ((rfl | hx) | ⟨hx, hid⟩)
    · exact .inr ⟨.inl rfl, hr⟩
    · exact .inl hx
    · exact .inr ⟨.inr hx, hid⟩

lemma about_cons_of_ne {r : Node} (remote : List Node) (hr : r.id ≠ id) :
    about id (r :: remote) = about id remote := by
  ext x
  simp only [about, List.mem_cons, Set.mem_ofPred_eq]
  constructor
  · rintro ⟨rfl | hx, hid⟩
    · exact absurd hid hr
    · exact ⟨hx, hid⟩
  · rintro ⟨hx, hid⟩
    exact ⟨.inr hx, hid⟩

lemma merge_induction (remote : List Node) (now : ℕ)
    (hstep : ∀ D cur r, r.id = id → Q r → P D cur → P (insert r D) ((news m.self cur r).or cur))
    (hok : ∀ r ∈ remote, Q r) (h : P D (m.node id)) :
    P (D ∪ about id remote) ((m.merge remote now).node id) := by
  induction remote generalizing m D with
  | nil => simpa [merge, about] using h
  | cons r remote ih =>
    have hrest : ∀ x ∈ remote, Q x := fun x hx => hok x (by simp [hx])
    have hone := node_mergeOne m r now id
    by_cases hr : r.id = id
    · rw [if_pos hr] at hone
      rw [union_about_cons_of_eq remote hr]
      refine ih (by simpa using hstep) hrest ?_
      rw [hone]
      exact hstep D _ r hr (hok r (by simp)) h
    · rw [if_neg hr] at hone
      rw [about_cons_of_ne remote hr]
      refine ih (by simpa using hstep) hrest ?_
      rwa [hone]

/-- The records about `id` that the calls deliver. -/
def deliveredAbout (id : Bytes) (calls : List (List Node × ℕ)) : Set Node :=
  { r | Delivered calls r ∧ r.id = id }

/-- **The merge rule**: it is kept by a whole sequence of merges. -/
lemma mergeAll_induction (calls : List (List Node × ℕ))
    (hstep : ∀ D cur r, r.id = id → Q r → P D cur → P (insert r D) ((news m.self cur r).or cur))
    (hok : ∀ r, Delivered calls r → Q r) (h : P D (m.node id)) :
    P (D ∪ deliveredAbout id calls) ((m.mergeAll calls).node id) := by
  induction calls generalizing m D with
  | nil => simpa [mergeAll, deliveredAbout, Delivered] using h
  | cons c calls ih =>
    have hsplit : D ∪ deliveredAbout id (c :: calls)
        = (D ∪ about id c.1) ∪ deliveredAbout id calls := by
      ext x
      simp only [deliveredAbout, delivered_cons, about, Set.mem_union, Set.mem_ofPred_eq,
        or_and_right, or_assoc]
    rw [hsplit]
    refine ih (by simpa using hstep) (fun r hr => hok r (delivered_cons.mpr (.inr hr))) ?_
    exact merge_induction c.1 c.2 hstep (fun r hr => hok r (delivered_cons.mpr (.inl hr))) h

lemma settled_mergeAll (m : Members) (calls : List (List Node × ℕ)) (hid : id ≠ m.self) :
    Settled (m.node id) (deliveredAbout id calls) ((m.mergeAll calls).node id) := by
  have h₀ : Settled (m.node id) ∅ (m.node id) := by
    rcases hk : m.node id with _ | n
    · simp [Settled, Heard]
    · refine Freshest.mk' ?_ ?_ ⟨n, .inl rfl, rfl, rfl⟩ ⟨n, .inl rfl, rfl, rfl⟩ ?_
      · rintro r (hr | hr)
        · cases hr
          exact UInt64.le_refl _
        · simp at hr
      · rintro r (hr | hr) -
        · cases hr
          exact UInt8.le_refl _
        · simp at hr
      · rintro l hl -
        cases hl
        rfl
  have h := mergeAll_induction (P := Settled (m.node id)) (Q := fun _ => True) calls
    (fun D cur r hr _ hD => hD.step (hr ▸ hid)) (fun _ _ => trivial) h₀
  rwa [Set.empty_union] at h

lemma refuted_mergeAll (m : Members) (calls : List (List Node × ℕ))
    (hmax : ∀ c, Delivered calls c → c.id = m.self → c.state ≠ alive →
      c.incarnation.toNat < 2 ^ 64 - 1) :
    ∃ n, (m.mergeAll calls).node m.self = some n ∧
      Refuted m.own (deliveredAbout m.self calls) n := by
  have h₀ : ∃ n, m.node m.self = some n ∧ Refuted m.own ∅ n :=
    ⟨m.own, m.node_self, rfl, by simp [Floors]⟩
  have h := mergeAll_induction (m := m)
    (P := fun D cur => ∃ n, cur = some n ∧ Refuted m.own D n)
    (Q := fun c => c.id = m.self → c.state ≠ alive → c.incarnation.toNat < 2 ^ 64 - 1) calls
    (fun D cur r hr hok ⟨n, hn, hD⟩ => by
      rw [hn, ← hr]
      exact hD.step m.own_state fun hs => by have := hok hr hs; omega) hmax h₀
  rwa [Set.empty_union] at h

@[simp] lemma self_mergeAll (m : Members) (calls : List (List Node × ℕ)) :
    (m.mergeAll calls).self = m.self := by
  unfold mergeAll
  induction calls generalizing m with
  | nil => rfl
  | cons c calls ih => rw [List.foldl_cons, ih, self_merge]

/-- **Merging is independent of order, grouping and repetition**: two sequences of merges
that deliver the same records end in the same roster. For another node it holds the freshest
record heard; self stays `Alive`, with an incarnation raised just above the claims that it is
not. -/
theorem merge_order_independent (m : Members) {calls calls' : List (List Node × ℕ)}
    (hsame : ∀ r, Delivered calls r ↔ Delivered calls' r)
    (haddr : ∀ r r', Delivered calls r → Delivered calls r' → r.id = r'.id →
      r.incarnation = r'.incarnation → r.addr = r'.addr)
    (hmax : ∀ c, Delivered calls c → c.id = m.self → c.state ≠ alive →
      c.incarnation.toNat < 2 ^ 64 - 1) :
    (∀ o o' n, n ∈ (m.mergeAll calls).snapshot o ↔ n ∈ (m.mergeAll calls').snapshot o') ∧
    (∀ id, id ≠ m.self →
      Settled (m.node id) (deliveredAbout id calls) ((m.mergeAll calls).node id)) ∧
    (m.mergeAll calls).own.state = alive ∧
    Refuted m.own (deliveredAbout m.self calls) (m.mergeAll calls).own := by
  have habout : ∀ id, deliveredAbout id calls = deliveredAbout id calls' := fun id => by
    ext r
    simp only [deliveredAbout, Set.mem_ofPred_eq, hsame]
  obtain ⟨n, hn, href⟩ := refuted_mergeAll m calls hmax
  obtain ⟨n', hn', href'⟩ := refuted_mergeAll m calls' fun c hc => hmax c ((hsame c).mpr hc)
  have hnode : ∀ id, (m.mergeAll calls).node id = (m.mergeAll calls').node id := by
    intro id
    by_cases hid : id = m.self
    · rw [← habout] at href'
      rw [hid, hn, hn', href.unique href']
    · have h := settled_mergeAll m calls hid
      have h' := settled_mergeAll m calls' hid
      rw [← habout] at h'
      refine h.unique (fun r hr r' hr' => ?_) h' (fun _ => id_of_node) fun _ => id_of_node
      exact haddr r r' hr.1 hr'.1 (hr.2.trans hr'.2.symm)
  refine ⟨fun o o' x => ?_, fun id hid => settled_mergeAll m calls hid, own_state _, ?_⟩
  · rw [mem_snapshot, mem_snapshot, hnode]
  · have hown := (m.mergeAll calls).node_self
    rw [self_mergeAll, hn, Option.some.injEq] at hown
    exact hown ▸ href

/-- A roster of one node hears about itself and about another, in two ways. -/
theorem merge_order_independent_of_claims :
    let m := newMembers ⟨[65], [1], alive, 1⟩ 0
    let claim : Node := ⟨[65], [1], dead, 7⟩
    let peer : Node := ⟨[66], [2], alive, 3⟩
    let late : Node := ⟨[66], [2], 1, 3⟩
    ∀ o o' n, n ∈ (m.mergeAll [([claim, peer, late], 5)]).snapshot o ↔
      n ∈ (m.mergeAll [([late], 6), ([peer, claim], 7), ([late, claim], 8)]).snapshot o' := by
  intro m claim peer late
  refine (merge_order_independent m (fun r => ?_) ?_ ?_).1
  · simp only [Delivered, List.mem_cons, List.not_mem_nil, or_false, exists_eq_or_imp,
      exists_eq_left]
    tauto
  · simp only [Delivered, List.mem_cons, List.not_mem_nil, or_false, exists_eq_left]
    rintro r r' (rfl | rfl | rfl) (rfl | rfl | rfl) <;> decide
  · simp only [Delivered, List.mem_cons, List.not_mem_nil, or_false, exists_eq_left]
    rintro c (rfl | rfl | rfl) <;> decide

end Members

end Kyria.Membership
