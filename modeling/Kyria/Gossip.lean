import Kyria.Binenc
import Kyria.Lib.Runs
import Kyria.Membership

/-!
Gossip (`internal/cluster/gossip.go`): rosters shipped in UDP packets between any number of
nodes, each of which heartbeats and detects failures on its own.

A packet once sent stays in the network, so it may be delivered to any node, late, again and
again, or never. The invariant behind everything here is that no record anywhere is ahead of
the node it is about.
-/

namespace Kyria.Gossip

open Std (ExtTreeMap LawfulEqOrd)
open Kyria.Lib.Cursor Kyria.Lib.MapOrder Kyria.Lib.Runs Kyria.Binenc Kyria.Membership

/-! ### The wire format -/

inductive MarshalError
  | tooManyNodes (n : ℕ)
  | stringTooLong (n : ℕ)

def marshalNode (n : Node) : Except ℕ Bytes := do
  let id ← putString n.id
  let addr ← putString n.addr
  return [n.state] ++ (putUint64 n.incarnation ++ (id ++ addr))

def marshal (nodes : List Node) : Except MarshalError Bytes :=
  if nodes.length > maxUint16 then .error (.tooManyNodes nodes.length)
  else
    match nodes.mapM marshalNode with
    | .ok bodies => .ok (putUint16 (UInt16.ofNat nodes.length) ++ bodies.flatten)
    | .error n => .error (.stringTooLong n)

def byte : Reader Malformed UInt8 := fun data off =>
  if data.length - off < 1 then .error .errMalformed
  else .ok (data.getD off 0, off + 1)

def unmarshalNode (nodes : List Node) : Reader Malformed (List Node) := do
  let state ← byte
  let incarnation ← uint64
  let id ← string
  let addr ← string
  return nodes ++ [⟨id, addr, state, incarnation⟩]

def unmarshalAll : Reader Malformed (List Node) := do
  let count ← uint16
  Reader.loop unmarshalNode count.toNat []

def unmarshal (data : Bytes) : Except Malformed (List Node) := (unmarshalAll data 0).map Prod.fst

/-- The bytes of a record whose strings fit their length fields. -/
def nodeBytes (n : Node) : Bytes :=
  [n.state] ++ (putUint64 n.incarnation ++ (written (putString n.id) ++ written (putString n.addr)))

def Short (n : Node) : Prop := n.id.length ≤ maxUint16 ∧ n.addr.length ≤ maxUint16

/-- The records fit their length fields, and so does their number. -/
def Packable (nodes : List Node) : Prop := nodes.length ≤ maxUint16 ∧ ∀ n ∈ nodes, Short n

/-- The bytes of a packet of such records. -/
def packet (nodes : List Node) : Bytes :=
  putUint16 (UInt16.ofNat nodes.length) ++ nodes.flatMap nodeBytes

lemma marshalNode_of_short {n : Node} (h : Short n) : marshalNode n = .ok (nodeBytes n) := by
  rw [marshalNode, nodeBytes, putString_of_le h.1, putString_of_le h.2]
  rfl

lemma marshalNode_of_not_short {n : Node} (h : ¬ Short n) : ∃ e, marshalNode n = .error e := by
  by_cases hid : n.id.length ≤ maxUint16
  · have haddr : maxUint16 < n.addr.length := not_le.mp fun haddr => h ⟨hid, haddr⟩
    refine ⟨n.addr.length, ?_⟩
    rw [marshalNode, putString_of_le hid, putString_of_gt haddr]
    rfl
  · refine ⟨n.id.length, ?_⟩
    rw [marshalNode, putString_of_gt (not_le.mp hid)]
    rfl

lemma mapM_of_short {nodes : List Node} (h : ∀ n ∈ nodes, Short n) :
    nodes.mapM marshalNode = .ok (nodes.map nodeBytes) := by
  induction nodes with
  | nil => rfl
  | cons n nodes ih =>
    rw [List.mapM_cons, marshalNode_of_short (h n List.mem_cons_self),
      ih fun y hy => h y (List.mem_cons_of_mem _ hy)]
    rfl

lemma mapM_of_not_short {nodes : List Node} {n : Node} (hn : n ∈ nodes) (h : ¬ Short n) :
    ∃ e, nodes.mapM marshalNode = .error e := by
  induction nodes with
  | nil => simp at hn
  | cons m nodes ih =>
    rw [List.mapM_cons]
    rcases List.mem_cons.mp hn with rfl | hn
    · obtain ⟨e, he⟩ := marshalNode_of_not_short h
      exact ⟨e, by rw [he]; rfl⟩
    · obtain ⟨e, he⟩ := ih hn
      rcases marshalNode m with e' | b
      · exact ⟨e', rfl⟩
      · exact ⟨e, by rw [he]; rfl⟩

lemma marshal_of_packable {nodes : List Node} (h : Packable nodes) :
    marshal nodes = .ok (packet nodes) := by
  rw [marshal, if_neg (not_lt.mpr h.1), mapM_of_short h.2, packet, List.flatMap_def]

lemma marshal_of_not_packable {nodes : List Node} (h : ¬ Packable nodes) :
    ∃ err, marshal nodes = .error err := by
  unfold marshal
  split_ifs with hlen
  · exact ⟨_, rfl⟩
  · -- the count fits, so that some record does not
    obtain ⟨n, hn, hshort⟩ : ∃ n ∈ nodes, ¬ Short n := by
      by_contra hnone
      push Not at hnone
      exact h ⟨not_lt.mp hlen, hnone⟩
    obtain ⟨e, he⟩ := mapM_of_not_short hn hshort
    rw [he]
    exact ⟨_, rfl⟩

lemma packable_of_marshal {nodes : List Node} {p : Bytes} (h : marshal nodes = .ok p) :
    Packable nodes ∧ p = packet nodes := by
  by_cases hpack : Packable nodes
  · rw [marshal_of_packable hpack] at h
    cases h
    exact ⟨hpack, rfl⟩
  · obtain ⟨err, herr⟩ := marshal_of_not_packable hpack
    rw [herr] at h
    cases h

lemma exact_byte (x : UInt8) : Exact byte x [x] where
  recovers before after := by simp [byte]
  truncated before cut after he hne := by
    rcases List.append_eq_singleton_iff.mp he.symm with ⟨hcut, -⟩ | ⟨-, hnil⟩
    · exact ⟨.errMalformed, by simp [byte, hcut]⟩
    · exact absurd hnil hne

lemma exact_node {n : Node} (h : Short n) (nodes : List Node) :
    Exact (unmarshalNode nodes) (nodes ++ [n]) (nodeBytes n) := by
  refine (exact_byte n.state).bind ((exact_uint64 n.incarnation).bind ?_)
  refine (exact_string h.1).bind ?_
  rw [← List.append_nil (written (putString n.addr))]
  exact (exact_string h.2).bind (Exact.pure _)

lemma exact_packet {nodes : List Node} (h : Packable nodes) :
    Exact unmarshalAll nodes (packet nodes) := by
  refine (exact_uint16 _).bind ?_
  rw [toNat_ofNat_of_le h.1]
  exact Exact.collect nodes fun s n hn => exact_node (h.2 n hn) s

/-- **A packet carries the snapshot it was made of.** -/
theorem unmarshal_marshal {nodes : List Node} {p : Bytes} (h : marshal nodes = .ok p) :
    unmarshal p = .ok nodes := by
  obtain ⟨hpack, rfl⟩ := packable_of_marshal h
  exact (exact_packet hpack).recovers.whole

/-- **The gossip codec.** A list of records is refused exactly if it is too long, or an id or an
address in it is. Otherwise its packet gives it back, whatever states, incarnations and bytes are
in it, and a packet that was cut anywhere gives nothing. -/
theorem gossip_round_trip (nodes : List Node) :
    ((∃ err, marshal nodes = .error err) ↔
      65535 < nodes.length ∨ ∃ n ∈ nodes, 65535 < n.id.length ∨ 65535 < n.addr.length) ∧
    ∀ p, marshal nodes = .ok p → unmarshal p = .ok nodes ∧
      ∀ part rest, p = part ++ rest → rest ≠ [] → unmarshal part = .error .errMalformed := by
  have hpack : ¬ Packable nodes ↔
      65535 < nodes.length ∨ ∃ n ∈ nodes, 65535 < n.id.length ∨ 65535 < n.addr.length := by
    simp only [Packable, Short, maxUint16, not_and_or, not_forall, not_le, exists_prop]
  constructor
  · rw [← hpack]
    constructor
    · rintro ⟨err, herr⟩ h
      rw [marshal_of_packable h] at herr
      cases herr
    · exact marshal_of_not_packable
  · intro p hp
    refine ⟨unmarshal_marshal hp, fun part rest heq hne => ?_⟩
    obtain ⟨h, rfl⟩ := packable_of_marshal hp
    obtain ⟨⟨⟩, herr⟩ := (exact_packet h).whole_truncated heq hne
    exact herr

/-- A state that no node ever has, the last incarnation and an empty id come back; nothing comes
of an empty packet. -/
theorem gossip_round_trip_of_two :
    let nodes : List Node := [⟨[], [1, 2], 7, 2 ^ 64 - 1⟩, ⟨[3], [], 0, 0⟩]
    ∃ p, marshal nodes = .ok p ∧ unmarshal p = .ok nodes ∧
      unmarshal [] = .error .errMalformed := by
  intro nodes
  have hp : marshal nodes = .ok (packet nodes) := rfl
  obtain ⟨hwhole, hcut⟩ := (gossip_round_trip nodes).2 _ hp
  exact ⟨_, hp, hwhole, hcut [] _ rfl (by decide)⟩

/-! ### Nodes and packets -/

/-- The largest payload of a UDP datagram. Writing a longer one fails, and the error is
ignored. -/
def maxDatagram : ℕ := 65507

structure State where
  rosters : ExtTreeMap Bytes Members
  packets : List Bytes

inductive Action
  | bump (n : Bytes) (now : ℕ)
  | detectFailures (n : Bytes) (now : ℕ) (timeout : ℤ)
  | send (n : Bytes) (o : VisitOrder (Bytes × Entry))
  | deliver (n : Bytes) (i : ℕ) (now : ℕ)

def State.setRoster (s : State) (n : Bytes) (m : Members) : State :=
  { s with rosters := s.rosters.insert n m }

/-- The end of `round`: a snapshot is sent, if it can be encoded and fits. -/
def transmit (s : State) (nodes : List Node) : State :=
  match marshal nodes with
  | .ok p => if p.length ≤ maxDatagram then { s with packets := s.packets ++ [p] } else s
  | .error _ => s

/-- One iteration of `receiveLoop`: a malformed packet is skipped. -/
def receive (s : State) (n : Bytes) (m : Members) (p : Bytes) (now : ℕ) : State :=
  match unmarshal p with
  | .ok nodes => s.setRoster n (m.merge nodes now)
  | .error _ => s

def step (s : State) : Action → Option State
  | .bump n now => do
    let m ← s.rosters[n]?
    some (s.setRoster n (m.bump now))
  | .detectFailures n now timeout => do
    let m ← s.rosters[n]?
    some (s.setRoster n (m.detectFailures now timeout))
  | .send n o => do
    let m ← s.rosters[n]?
    some (transmit s (m.snapshot o))
  | .deliver n i now => do
    let m ← s.rosters[n]?
    let p ← s.packets[i]?
    some (receive s n m p now)

/-- Every node knows only itself, and nothing was sent yet. -/
def Initial (s : State) : Prop :=
  s.packets = [] ∧ ∀ (n : Bytes) (m : Members), s.rosters[n]? = some m →
    ∃ (node : Node) (now : ℕ), node.id = n ∧ m = newMembers node now

/-- No increment of the step wraps around at `2 ^ 64`. -/
def NoOverflow (s : State) : Action → Prop
  | .bump n _ => ∀ m : Members, s.rosters[n]? = some m → m.own.incarnation.toNat < 2 ^ 64 - 1
  | .deliver n i _ => ∀ p nodes, s.packets[i]? = some p → unmarshal p = .ok nodes →
      ∀ c ∈ nodes, c.id = n → c.state ≠ alive → c.incarnation.toNat < 2 ^ 64 - 1
  | _ => True

/-! ### How a roster moves -/

/-- From `m` to `m'` no incarnation falls, and the records about others come, up to their
state, from `m` or from `src`. -/
structure Advances (src : Set Node) (m m' : Members) : Prop where
  self : m'.self = m.self
  grows : ∀ id r, m.node id = some r →
    ∃ r', m'.node id = some r' ∧ r.incarnation ≤ r'.incarnation
  source : ∀ id r', id ≠ m.self → m'.node id = some r' →
    (∃ r, m.node id = some r ∧ r.incarnation = r'.incarnation) ∨
      ∃ r ∈ src, r.id = id ∧ r.incarnation = r'.incarnation

variable {src : Set Node} {m m' m'' : Members}

lemma Advances.refl (src : Set Node) (m : Members) : Advances src m m :=
  ⟨rfl, fun _ r hr => ⟨r, hr, UInt64.le_refl _⟩, fun _ r _ hr => .inl ⟨r, hr, rfl⟩⟩

lemma Advances.trans (h : Advances src m m') (h' : Advances src m' m'') :
    Advances src m m'' := by
  refine ⟨h'.self.trans h.self, fun id r hr => ?_, fun id r'' hid hr'' => ?_⟩
  · obtain ⟨r', hr', hle⟩ := h.grows id r hr
    obtain ⟨r'', hr'', hle'⟩ := h'.grows id r' hr'
    exact ⟨r'', hr'', UInt64.le_trans hle hle'⟩
  · rcases h'.source id r'' (by rwa [h.self]) hr'' with ⟨r', hr', he⟩ | hsrc
    · rcases h.source id r' hid hr' with ⟨r, hr, he'⟩ | ⟨r, hr, hrid, he'⟩
      · exact .inl ⟨r, hr, he'.trans he⟩
      · exact .inr ⟨r, hr, hrid, he'.trans he⟩
    · exact .inr hsrc

lemma Advances.own (h : Advances src m m') : m.own.incarnation ≤ m'.own.incarnation := by
  obtain ⟨r, hr, hle⟩ := h.grows m.self m.own m.node_self
  rw [← h.self, m'.node_self, Option.some.injEq] at hr
  rwa [hr]

lemma lt_succ_of_lt_max {x : UInt64} (h : x.toNat < 2 ^ 64 - 1) : x < x + 1 := by
  rw [UInt64.lt_iff_toNat_lt, UInt64.toNat_add]
  have : (x.toNat + UInt64.toNat 1) % 2 ^ 64 = x.toNat + 1 := Nat.mod_eq_of_lt (by simp; omega)
  omega

lemma Advances.put {n : Node} {now : ℕ} (h : n.id = m.self → n.state = alive)
    (hle : ∀ l, m.node n.id = some l → l.incarnation ≤ n.incarnation)
    (hsrc : n.id ≠ m.self → (∃ l, m.node n.id = some l ∧ l.incarnation = n.incarnation) ∨
      ∃ r ∈ src, r.id = n.id ∧ r.incarnation = n.incarnation) :
    Advances src m (m.put n now h) := by
  refine ⟨rfl, fun id r hr => ?_, fun id r' hid hr' => ?_⟩
  · rw [Members.node_put]
    split_ifs with hn
    · exact ⟨n, rfl, hle r (hn ▸ hr)⟩
    · exact ⟨r, hr, UInt64.le_refl _⟩
  · rw [Members.node_put] at hr'
    split_ifs at hr' with hn
    · cases hr'
      subst hn
      exact hsrc hid
    · exact .inl ⟨r', hr', rfl⟩

lemma advances_bump {now : ℕ} (h : m.own.incarnation.toNat < 2 ^ 64 - 1) :
    Advances src m (m.bump now) := by
  have hid := m.own_id
  refine Advances.put _ (fun l hl => ?_) fun hne => absurd hid hne
  simp only [hid, m.node_self, Option.some.injEq] at hl
  exact hl ▸ UInt64.le_of_lt (lt_succ_of_lt_max h)

lemma advances_detectFailures (now : ℕ) (timeout : ℤ) :
    Advances src m (m.detectFailures now timeout) := by
  have hinc : ∀ e, (Members.detect m.self now timeout e).node.incarnation = e.node.incarnation := by
    intro e
    unfold Members.detect
    split_ifs <;> rfl
  refine ⟨rfl, fun id r hr => ?_, fun id r' _ hr' => ?_⟩
  · obtain ⟨e, he, rfl⟩ := Option.map_eq_some_iff.mp hr
    exact ⟨_, by rw [Members.node_detectFailures, he]; rfl, UInt64.le_of_eq (hinc e).symm⟩
  · rw [Members.node_detectFailures] at hr'
    obtain ⟨e, he, rfl⟩ := Option.map_eq_some_iff.mp hr'
    exact .inl ⟨e.node, by rw [Members.node, he]; rfl, (hinc e).symm⟩

lemma advances_news {r n : Node} {now : ℕ} (hr : r ∈ src)
    (hmax : r.id = m.self → r.state ≠ alive → r.incarnation.toNat < 2 ^ 64 - 1)
    (h : Members.news m.self (m.node r.id) r = some n) (ha : n.id = m.self → n.state = alive) :
    Advances src m (m.put n now ha) := by
  have hid := (Members.news_keeps h).1
  rcases hk : m.node r.id with _ | l
  · rw [hk] at h
    cases h
    refine Advances.put _ (fun l hl => ?_) fun _ => .inr ⟨r, hr, rfl, rfl⟩
    rw [hk] at hl
    cases hl
  · rw [hk] at h
    simp only [Members.news] at h
    split_ifs at h with hs hc hlt htie <;> cases h
    · -- refuting: `l` is the record of self
      simp only at hid
      have hlt := UInt64.lt_of_le_of_lt hc.2 (lt_succ_of_lt_max (hmax hs hc.1))
      refine Advances.put _ (fun l' hl' => ?_) fun hne => absurd (hid.trans hs) hne
      simp only [hid, hk, Option.some.injEq] at hl'
      exact hl' ▸ UInt64.le_of_lt hlt
    · refine Advances.put _ (fun l' hl' => ?_) fun _ => .inr ⟨r, hr, rfl, rfl⟩
      rw [hk, Option.some.injEq] at hl'
      exact hl' ▸ UInt64.le_of_lt hlt
    · simp only at hid
      refine Advances.put _ (fun l' hl' => ?_) fun _ => .inl ⟨l, by simp only [hid, hk], rfl⟩
      simp only [hid, hk, Option.some.injEq] at hl'
      exact hl' ▸ UInt64.le_refl _

lemma advances_mergeOne {r : Node} {now : ℕ} (hr : r ∈ src)
    (hmax : r.id = m.self → r.state ≠ alive → r.incarnation.toNat < 2 ^ 64 - 1) :
    Advances src m (m.mergeOne r now) := by
  unfold Members.mergeOne
  split
  · next n h => exact advances_news hr hmax h _
  · exact .refl _ _

lemma advances_merge {remote : List Node} {now : ℕ} (hsrc : ∀ r ∈ remote, r ∈ src)
    (hmax : ∀ c ∈ remote, c.id = m.self → c.state ≠ alive → c.incarnation.toNat < 2 ^ 64 - 1) :
    Advances src m (m.merge remote now) := by
  unfold Members.merge
  induction remote generalizing m with
  | nil => exact .refl _ _
  | cons r remote ih =>
    have hone : Advances src m (m.mergeOne r now) :=
      advances_mergeOne (hsrc r (by simp)) (hmax r (by simp))
    refine hone.trans (ih (fun x hx => hsrc x (by simp [hx])) fun c hc => ?_)
    rw [hone.self]
    exact hmax c (by simp [hc])

/-- **Refutation**: after a merge a node is above every claim in it that it is not alive. -/
lemma own_gt_of_claim {remote : List Node} {now : ℕ} {c : Node}
    (hmax : ∀ c ∈ remote, c.id = m.self → c.state ≠ alive → c.incarnation.toNat < 2 ^ 64 - 1)
    (hc : c ∈ remote) (hid : c.id = m.self) (hs : c.state ≠ alive) :
    c.incarnation < (m.merge remote now).own.incarnation := by
  have hcall : ∀ r, Delivered [(remote, now)] r ↔ r ∈ remote := fun r => by simp [Delivered]
  obtain ⟨n, hn, href⟩ := Members.refuted_mergeAll m [(remote, now)] fun r hr =>
    hmax r ((hcall r).mp hr)
  have hown : (m.merge remote now).own = n := by
    have h := (m.merge remote now).node_self
    rw [Members.self_merge] at h
    exact Option.some.inj (h.symm.trans hn)
  have hle := href.incarnation.2 (.inr ⟨c, ⟨(hcall c).mpr hc, hid⟩, hs, rfl⟩)
  rw [hown]
  exact UInt64.lt_iff_toNat_lt.mpr hle

lemma alive_of_snapshot {x : Members} {l : Node} (o : VisitOrder (Bytes × Entry)) (now : ℕ)
    (hl : m.node x.self = some l) (hlt : l.incarnation < x.own.incarnation) :
    ∃ r, (m.merge (x.snapshot o) now).node x.self = some r ∧ r.state = alive := by
  by_cases hx : m.self = x.self
  · have hnode := (m.merge (x.snapshot o) now).node_self
    rw [Members.self_merge, hx] at hnode
    exact ⟨_, hnode, Members.own_state _⟩
  · have hid : x.own.id ≠ m.self := fun h => hx (h.symm.trans x.own_id)
    refine ⟨x.own, ?_, x.own_state⟩
    rw [Members.node_merge_snapshot, x.node_self, Option.bind_some, hl, Members.news,
      if_neg hid, if_pos hlt, Option.some_or]

/-! ### How the system moves -/

/-- The record is in some packet of the network. -/
def carried (s : State) : Set Node :=
  { r | ∃ p ∈ s.packets, ∃ nodes, unmarshal p = .ok nodes ∧ r ∈ nodes }

/-- What any step can do: every roster advances by what it knows and what is in the network,
and a packet that was not there before is the snapshot of some roster. -/
structure Moved (s t : State) : Prop where
  rosters : ∀ n : Bytes, Option.Rel (Advances (carried s)) s.rosters[n]? t.rosters[n]?
  packets : ∀ p ∈ t.packets, p ∈ s.packets ∨
    ∃ (n : Bytes) (m : Members) (o : VisitOrder (Bytes × Entry)),
      s.rosters[n]? = some m ∧ unmarshal p = .ok (m.snapshot o)

variable {s t : State} {a : Action}

lemma rel_refl (src : Set Node) (x : Option Members) : Option.Rel (Advances src) x x := by
  cases x with
  | none => exact .none
  | some m => exact .some (.refl _ m)

lemma Moved.setRoster {n : Bytes} (hm : s.rosters[n]? = some m)
    (h : Advances (carried s) m m') : Moved s (s.setRoster n m') := by
  refine ⟨fun k => ?_, fun p hp => .inl hp⟩
  simp only [State.setRoster, ExtTreeMap.getElem?_insert, LawfulEqOrd.compare_eq_iff_eq]
  split_ifs with hk
  · rw [← hk, hm]
    exact .some h
  · exact rel_refl _ _

lemma Moved.refl (s : State) : Moved s s := ⟨fun _ => rel_refl _ _, fun _ hp => .inl hp⟩

lemma Moved.transmit {n : Bytes} (hm : s.rosters[n]? = some m)
    (o : VisitOrder (Bytes × Entry)) : Moved s (transmit s (m.snapshot o)) := by
  unfold Gossip.transmit
  split
  · next p hp =>
    split_ifs
    · refine ⟨fun _ => rel_refl _ _, fun q hq => ?_⟩
      rcases List.mem_append.mp hq with hq | hq
      · exact .inl hq
      · rw [List.mem_singleton.mp hq]
        exact .inr ⟨n, m, o, hm, unmarshal_marshal hp⟩
    · exact .refl s
  · exact .refl s

/-- Every roster is filed under its own ID. -/
def Filed (s : State) : Prop := ∀ (n : Bytes) (m : Members), s.rosters[n]? = some m → m.self = n

lemma step_moved (hf : Filed s) (hok : NoOverflow s a) (h : step s a = some t) : Moved s t := by
  cases a with
  | bump n now =>
    obtain ⟨m, hm, ht⟩ := Option.bind_eq_some_iff.mp h
    cases ht
    exact .setRoster hm (advances_bump (hok m hm))
  | detectFailures n now timeout =>
    obtain ⟨m, hm, ht⟩ := Option.bind_eq_some_iff.mp h
    cases ht
    exact .setRoster hm (advances_detectFailures now timeout)
  | send n o =>
    obtain ⟨m, hm, ht⟩ := Option.bind_eq_some_iff.mp h
    cases ht
    exact .transmit hm o
  | deliver n i now =>
    obtain ⟨m, hm, h⟩ := Option.bind_eq_some_iff.mp h
    obtain ⟨p, hp, ht⟩ := Option.bind_eq_some_iff.mp h
    cases ht
    unfold receive
    split
    · next nodes hn =>
      refine .setRoster hm (advances_merge (fun r hr => ?_) fun c hc hid => ?_)
      · exact ⟨p, List.mem_of_getElem? hp, nodes, hn, hr⟩
      · exact hok p nodes hp hn c hc (hid.trans (hf n m hm))
    · exact .refl s

lemma Moved.forward {n : Bytes} (h : Moved s t) (hm : s.rosters[n]? = some m) :
    ∃ m', t.rosters[n]? = some m' ∧ Advances (carried s) m m' := by
  have hr := h.rosters n
  rw [hm] at hr
  generalize t.rosters[n]? = y at hr ⊢
  cases hr with
  | some ha => exact ⟨_, rfl, ha⟩

lemma Moved.backward {n : Bytes} (h : Moved s t) (hm : t.rosters[n]? = some m') :
    ∃ m, s.rosters[n]? = some m ∧ Advances (carried s) m m' := by
  have hr := h.rosters n
  rw [hm] at hr
  generalize s.rosters[n]? = y at hr ⊢
  cases hr with
  | some ha => exact ⟨_, rfl, ha⟩

/-- The node the record is about is at least at the incarnation recorded. -/
def Owned (s : State) (r : Node) : Prop :=
  ∃ x, s.rosters[r.id]? = some x ∧ r.incarnation ≤ x.own.incarnation

/-- **The invariant.** -/
structure Sound (s : State) : Prop where
  filed : Filed s
  held : ∀ (n : Bytes) (m : Members), s.rosters[n]? = some m →
    ∀ id r, m.node id = some r → Owned s r
  inFlight : ∀ r ∈ carried s, Owned s r

lemma sound_of_initial (h : Initial s) : Sound s := by
  obtain ⟨hp, hr⟩ := h
  refine ⟨fun n m hm => ?_, fun n m hm id r hid => ?_, ?_⟩
  · obtain ⟨node, now, rfl, rfl⟩ := hr n m hm
    rfl
  · obtain ⟨node, now, rfl, rfl⟩ := hr n m hm
    have hself : (newMembers node now).node node.id = some (newMembers node now).own :=
      Members.node_self _
    by_cases hn : id = node.id
    · rw [hn, hself, Option.some.injEq] at hid
      have hkey := Members.id_of_node hself
      rw [← hid]
      exact ⟨_, by rw [hkey]; exact hm, UInt64.le_refl _⟩
    · simp [Members.node, newMembers, Ne.symm hn] at hid
  · rintro r ⟨p, hp', -⟩
    simp [hp] at hp'

lemma Owned.moved {r : Node} (h : Owned s r) (hst : Moved s t) : Owned t r := by
  obtain ⟨x, hx, hle⟩ := h
  obtain ⟨x', hx', ha⟩ := hst.forward hx
  exact ⟨x', hx', UInt64.le_trans hle ha.own⟩

lemma Owned.of_eq {r r' : Node} (h : Owned s r) (hid : r.id = r'.id)
    (hinc : r.incarnation = r'.incarnation) : Owned s r' := by
  unfold Owned at *
  rwa [← hid, ← hinc]

lemma Sound.moved (h : Sound s) (hst : Moved s t) : Sound t := by
  refine ⟨fun n m' hm' => ?_, fun n m' hm' id r' hr' => ?_, ?_⟩
  · obtain ⟨m, hm, ha⟩ := hst.backward hm'
    rw [ha.self]
    exact h.filed n m hm
  · obtain ⟨m, hm, ha⟩ := hst.backward hm'
    have hid := Members.id_of_node hr'
    have hself := ha.self.trans (h.filed n m hm)
    by_cases hn : id = m.self
    · -- a node's own record is not ahead of itself
      rw [hn, ← ha.self, m'.node_self, Option.some.injEq] at hr'
      rw [← hr'] at hid ⊢
      exact ⟨m', by rw [hid, hn, h.filed n m hm, hm'], UInt64.le_refl _⟩
    · rcases ha.source id r' hn hr' with ⟨r, hr, hinc⟩ | ⟨r, hr, hrid, hinc⟩
      · have hrid := Members.id_of_node hr
        exact ((h.held n m hm id r hr).moved hst).of_eq (hrid.trans hid.symm) hinc
      · exact ((h.inFlight r hr).moved hst).of_eq (hrid.trans hid.symm) hinc
  · rintro r ⟨p, hp, nodes, hn, hr⟩
    rcases hst.packets p hp with hp | ⟨n, m, o, hm, hsnap⟩
    · exact (h.inFlight r ⟨p, hp, nodes, hn, hr⟩).moved hst
    · rw [hsnap] at hn
      cases hn
      exact (h.held n m hm r.id r (Members.mem_snapshot.mp hr)).moved hst

/-! ### Whole runs -/

lemma sound_of_steps (h : Sound s) (hrun : Steps step NoOverflow s t) : Sound t :=
  hrun.invariant h fun _ _ _ hs hok hstep => hs.moved (step_moved hs.filed hok hstep)

lemma grows_of_steps (hs : Sound s) (hrun : Steps step NoOverflow s t) {n id : Bytes} {r : Node}
    (hm : s.rosters[n]? = some m) (hr : m.node id = some r) :
    ∃ m' r', t.rosters[n]? = some m' ∧ m'.node id = some r' ∧ r.incarnation ≤ r'.incarnation := by
  induction hrun with
  | refl => exact ⟨m, r, hm, hr, UInt64.le_refl _⟩
  | tail a hrun hok hstep ih =>
    obtain ⟨m', r', hm', hr', hle⟩ := ih
    have hmoved := step_moved (sound_of_steps hs hrun).filed hok hstep
    obtain ⟨m'', hm'', ha⟩ := hmoved.forward hm'
    obtain ⟨r'', hr'', hle'⟩ := ha.grows id r' hr'
    exact ⟨m'', r'', hm'', hr'', UInt64.le_trans hle hle'⟩

lemma own_grows_of_steps (hs : Sound s) (hrun : Steps step NoOverflow s t) {n : Bytes}
    (hm : s.rosters[n]? = some m) (hm' : t.rosters[n]? = some m') :
    m.own.incarnation ≤ m'.own.incarnation := by
  obtain ⟨m₁, r, hm₁, hr, hle⟩ := grows_of_steps hs hrun hm m.node_self
  rw [hm', Option.some.injEq] at hm₁
  have hself : m.self = m'.self :=
    (hs.filed n m hm).trans ((sound_of_steps hs hrun).filed n m' hm').symm
  rw [← hm₁, hself, m'.node_self, Option.some.injEq] at hr
  rwa [hr]

lemma own_gt_of_deliver (hs : Sound s) {n : Bytes} {i now : ℕ} {p : Bytes} {nodes : List Node}
    {c : Node} {u : State} (hok : NoOverflow s (.deliver n i now))
    (hstep : step s (.deliver n i now) = some t) (hp : s.packets[i]? = some p)
    (hn : unmarshal p = .ok nodes) (hc : c ∈ nodes) (hid : c.id = n) (hst : c.state ≠ alive)
    (hrun : Steps step NoOverflow t u) (hu : u.rosters[n]? = some m') :
    c.incarnation < m'.own.incarnation := by
  have hmoved := step_moved hs.filed hok hstep
  obtain ⟨m, hm, h⟩ := Option.bind_eq_some_iff.mp hstep
  have ht : s.setRoster n (m.merge nodes now) = t := by
    simpa [hp, receive, hn] using h
  have hself := hs.filed n m hm
  have hlt : c.incarnation < (m.merge nodes now).own.incarnation :=
    own_gt_of_claim (fun d hd hdid => hok p nodes hp hn d hd (hdid.trans hself)) hc
      (hid.trans hself.symm) hst
  have htn : t.rosters[n]? = some (m.merge nodes now) := by
    rw [← ht]
    exact ExtTreeMap.getElem?_insert_self
  exact UInt64.lt_of_lt_of_le hlt (own_grows_of_steps (hs.moved hmoved) hrun htn hu)

/-- **Only the owner raises an incarnation.** In every state a run without overflow reaches:
no record of a roster or of a packet is ahead of the node it is about; every node is `Alive`
in its own roster; what a roster holds never falls from there on; and once a node has merged
a claim that it is not alive it stays above it, so that any later snapshot of it revives it in
a roster that holds the claim. -/
theorem only_owner_raises_incarnation {s₀ s : State} (h₀ : Initial s₀)
    (hrun : Steps step NoOverflow s₀ s) :
    (∀ (n : Bytes) (m : Members), s.rosters[n]? = some m → ∀ id r, m.node id = some r →
      ∃ x, s.rosters[id]? = some x ∧ r.incarnation ≤ x.own.incarnation) ∧
    (∀ p ∈ s.packets, ∀ nodes, unmarshal p = .ok nodes → ∀ r ∈ nodes,
      ∃ x, s.rosters[r.id]? = some x ∧ r.incarnation ≤ x.own.incarnation) ∧
    (∀ (x : Bytes) (m : Members), s.rosters[x]? = some m →
      ∃ r, m.node x = some r ∧ r.state = alive) ∧
    (∀ t, Steps step NoOverflow s t → ∀ (n : Bytes) (m : Members), s.rosters[n]? = some m →
      ∀ id r, m.node id = some r → ∃ m' r', t.rosters[n]? = some m' ∧ m'.node id = some r' ∧
        r.incarnation ≤ r'.incarnation) ∧
    (∀ x i now p nodes c t, NoOverflow s (.deliver x i now) →
      step s (.deliver x i now) = some t → s.packets[i]? = some p → unmarshal p = .ok nodes →
      c ∈ nodes → c.id = x → c.state ≠ alive →
      ∀ u mx, Steps step NoOverflow t u → u.rosters[x]? = some mx →
        c.incarnation < mx.own.incarnation ∧
        ∀ (m : Members) (l : Node) o later, m.node x = some l → l.incarnation = c.incarnation →
          ∃ r, (m.merge (mx.snapshot o) later).node x = some r ∧ r.state = alive) := by
  have hs := sound_of_steps (sound_of_initial h₀) hrun
  refine ⟨?_, ?_, ?_, ?_, ?_⟩
  · intro n m hm id r hr
    have := hs.held n m hm id r hr
    rwa [Owned, Members.id_of_node hr] at this
  · intro p hp nodes hn r hr
    exact hs.inFlight r ⟨p, hp, nodes, hn, hr⟩
  · intro x m hm
    rw [← hs.filed x m hm]
    exact ⟨m.own, m.node_self, m.own_state⟩
  · intro t ht n m hm id r hr
    exact grows_of_steps hs ht hm hr
  · intro x i now p nodes c t hok hstep hp hn hc hid hst u mx hu hmx
    have hlt := own_gt_of_deliver hs hok hstep hp hn hc hid hst hu hmx
    refine ⟨hlt, fun m l o later hl hinc => ?_⟩
    have hsu := sound_of_steps (hs.moved (step_moved hs.filed hok hstep)) hu
    have hself := hsu.filed x mx hmx
    rw [← hself] at hl ⊢
    exact alive_of_snapshot o later hl (hinc ▸ hlt)

/-- `NoOverflow`, as a test. -/
def withinRange (s : State) : Action → Bool
  | .bump n _ => (s.rosters[n]?).all fun m => m.own.incarnation.toNat < 2 ^ 64 - 1
  | .deliver n i _ => (s.packets[i]?).all fun p =>
    match unmarshal p with
    | .ok nodes => nodes.all fun c =>
        c.id ≠ n || c.state = alive || c.incarnation.toNat < 2 ^ 64 - 1
    | .error _ => true
  | _ => true

lemma noOverflow_of_withinRange (h : withinRange s a = true) : NoOverflow s a := by
  cases a with
  | bump n now =>
    intro m hm
    simpa [withinRange, hm] using h
  | deliver n i now =>
    intro p nodes hp hn c hc hid hs
    simp only [withinRange, hp, hn, Option.all_some, List.all_eq_true] at h
    simpa [hid, hs] using h c hc
  | detectFailures n now timeout => trivial
  | send n o => trivial

/-- Two nodes, at incarnation 1. -/
def twoNodes : State where
  rosters := ((∅ : ExtTreeMap Bytes Members).insert
    [65] (newMembers ⟨[65], [1], alive, 1⟩ 0)).insert [66] (newMembers ⟨[66], [2], alive, 1⟩ 0)
  packets := []

lemma initial_twoNodes : Initial twoNodes := by
  refine ⟨rfl, fun n m hm => ?_⟩
  simp only [twoNodes, ExtTreeMap.getElem?_insert, LawfulEqOrd.compare_eq_iff_eq,
    ExtTreeMap.getElem?_empty] at hm
  split_ifs at hm with h66 h65 <;> cases hm
  · exact ⟨_, _, h66, rfl⟩
  · exact ⟨_, _, h65, rfl⟩

/-- `65` is heard of once, declared dead by `66`, and refutes it. -/
def refuting : List Action :=
  [.send [65] default, .deliver [66] 0 1, .detectFailures [66] 10 5, .send [66] default,
    .deliver [65] 1 11, .bump [65] 12]

/-- After the refutation the records in the network are all below `65`, now at 3. -/
theorem only_owner_raises_incarnation_refuting :
    ∃ s, exec step withinRange twoNodes refuting = some s ∧
      (s.rosters[([65] : Bytes)]?).map (fun m => m.own.incarnation) = some 3 ∧
      ∀ p ∈ s.packets, ∀ nodes, unmarshal p = .ok nodes → ∀ r ∈ nodes,
        ∃ x, s.rosters[r.id]? = some x ∧ r.incarnation ≤ x.own.incarnation := by
  have hown : ((exec step withinRange twoNodes refuting).map fun s =>
      (s.rosters[([65] : Bytes)]?).map (fun m => m.own.incarnation)) = some (some 3) := by
    decide +kernel
  obtain ⟨s, hs, hp⟩ := Option.map_eq_some_iff.mp hown
  have hrun : Steps step NoOverflow twoNodes s :=
    .of_exec_of_check hs fun _ _ h => noOverflow_of_withinRange h
  exact ⟨s, hs, hp, (only_owner_raises_incarnation initial_twoNodes hrun).2.1⟩

end Kyria.Gossip
