import Kyria.Gossip.Network

/-!
Nodes that come back after a restart.

For the others such a node is `Dead`, at an incarnation above its own, so what it says about
itself is stale and nobody sends to it, unless it is a seed.
-/

namespace Kyria.Gossip

open Std (ExtTreeMap LawfulEqOrd)
open Kyria.Lib.Cursor Kyria.Lib.MapOrder Kyria.Lib.Runs Kyria.Binenc Kyria.Membership Kyria.Time

section

variable (resolve : Bytes → Option Bytes)

/-- Rounds of other nodes than `x`, and deliveries. -/
def Others (x : Bytes) (_ : Network) : Event → Prop
  | .round id _ _ => id ≠ x
  | .deliver _ _ _ => True
  | _ => False

/-- A continuation of rounds and deliveries, with at most one round of `x`. -/
def Continues (x : Bytes) (s t : Network) : Prop :=
  Steps (Network.step resolve) (Others x) s t ∨
  ∃ u v now c, Steps (Network.step resolve) (Others x) s u ∧
    u.step resolve (.round x now c) = some v ∧ Steps (Network.step resolve) (Others x) v t

/-- `x` runs as `gx`, next to others, and all of them hold it `Dead` at incarnation `i`, above its
own. -/
structure Presumed (s : Network) (x : Bytes) (gx : Gossiper) (i : UInt64) : Prop where
  runs : s.running[x]? = some gx
  behind : gx.members.own.incarnation < i
  dead : ∀ (y : Bytes) (gy : Gossiper), y ≠ x → s.running[y]? = some gy →
    ∃ r, gy.members.node x = some r ∧ r.state = dead ∧ r.incarnation = i
  others : ∃ (y : Bytes) (gy : Gossiper), y ≠ x ∧ s.running[y]? = some gy

/-- `x` is above the claim, and another node has it `Alive`. -/
def Recovered (s : Network) (x : Bytes) (i : UInt64) : Prop :=
  ∃ gx : Gossiper, s.running[x]? = some gx ∧ i < gx.members.own.incarnation ∧
    ∃ (y : Bytes) (gy : Gossiper) (r : Node), y ≠ x ∧ s.running[y]? = some gy ∧
      gy.members.node x = some r ∧ r.state = alive

/-- The bytes of a record in a datagram. -/
def recordSize (n : Node) : ℕ := 13 + n.id.length + n.addr.length

/-- The bytes of a roster in a datagram. -/
def wireSize (m : Members) : ℕ := 2 + ((m.snapshot default).map recordSize).sum

/-- `gy` has `gx` among its seeds, and there is room for the exchange: in the incarnations, which
have to be raised, and in a datagram. -/
structure Reaches (gy gx : Gossiper) (i : UInt64) : Prop where
  seed : ∃ seed ∈ gy.flags.seeds, resolve seed = some gx.flags.addr
  claim : i.toNat + 2 < 2 ^ 64
  known : ∀ r, gx.members.node gy.flags.id = some r → r.incarnation.toNat + 1 < 2 ^ 64
  fits : wireSize gx.members + wireSize gy.members ≤ maxDatagram

variable {resolve}

/-! ### A node that nobody sends to -/

/-- The record does not lead to address `a`, unless it is about `x`. -/
def Elsewhere (resolve : Bytes → Option Bytes) (x a : Bytes) (r : Node) : Prop :=
  r.id ≠ x → r.state = alive → resolve r.addr ≠ some a

/-- No other node has the address `a` of `x` among its seeds, or for another node than `x`, and
no packet on its way there tells `x`, at incarnation `c`, that it is not alive. -/
structure Unaddressed (resolve : Bytes → Option Bytes) (x a : Bytes) (c : UInt64) (s : Network) :
    Prop where
  seeds : ∀ (id : Bytes) (g : Gossiper), id ≠ x → s.running[id]? = some g →
    ∀ seed ∈ g.flags.seeds, resolve seed ≠ some a
  rosters : ∀ (id : Bytes) (g : Gossiper), s.running[id]? = some g →
    ∀ k r, g.members.node k = some r → Elsewhere resolve x a r
  packets : ∀ p ∈ s.packets, ∀ nodes, unmarshal p.payload = .ok nodes →
    ∀ r ∈ nodes, Elsewhere resolve x a r
  untold : ∀ p ∈ s.packets, p.dst = a → ∀ nodes, unmarshal p.payload = .ok nodes →
    ∀ r ∈ nodes, r.id = x → r.state = alive ∨ r.incarnation < c

/-- `x` runs at address `a`, at incarnation `c`. -/
def RunsAt (x a : Bytes) (c : UInt64) (s : Network) : Prop :=
  ∃ g, s.running[x]? = some g ∧ g.flags.id = x ∧ g.flags.addr = a ∧
    g.members.own.incarnation = c

variable {x a : Bytes} {c : UInt64} {s t : Network}

lemma elsewhere_mergeOne {m : Members} {r : Node} {now : ℕ}
    (hm : ∀ k n, m.node k = some n → Elsewhere resolve x a n) (hr : Elsewhere resolve x a r) :
    ∀ k n, (m.mergeOne r now).node k = some n → Elsewhere resolve x a n := by
  intro k n hn
  rw [Members.node_mergeOne] at hn
  split_ifs at hn with hk
  · rcases hnews : Members.news m.self (m.node k) r with _ | n'
    · rw [hnews, Option.none_or] at hn
      exact hm k n hn
    · rw [hnews, Option.some_or, Option.some.injEq] at hn
      subst hn
      rcases Members.news_cases hnews with rfl | ⟨l, hl, hid, haddr, hself | hdead⟩
      · exact hr
      · -- self is `Alive` already
        intro hne _
        have hown : m.own = l := by
          refine Members.own_eq ?_
          rw [← hself, hk]
          exact hl
        rw [haddr]
        exact hm k l hl (hid ▸ hne) (hown ▸ m.own_state)
      · exact fun _ halive => absurd halive hdead
  · exact hm k n hn

lemma elsewhere_merge {m : Members} {nodes : List Node} {now : ℕ}
    (hm : ∀ k n, m.node k = some n → Elsewhere resolve x a n)
    (hnodes : ∀ r ∈ nodes, Elsewhere resolve x a r) :
    ∀ k n, (m.merge nodes now).node k = some n → Elsewhere resolve x a n := by
  unfold Members.merge
  induction nodes generalizing m with
  | nil => exact hm
  | cons r nodes ih =>
    exact ih (elsewhere_mergeOne hm (hnodes r List.mem_cons_self)) fun y hy =>
      hnodes y (List.mem_cons_of_mem _ hy)

lemma elsewhere_heartbeat {g : Gossiper} (now : ℕ)
    (hm : ∀ k n, g.members.node k = some n → Elsewhere resolve x a n) :
    ∀ k n, (g.heartbeat now).members.node k = some n → Elsewhere resolve x a n := by
  intro k n hn hne halive
  have hbump := Members.node_of_detectFailures hn halive
  rw [Members.node_bump] at hbump
  split_ifs at hbump with hk
  · cases hbump
    exact hm g.members.self g.members.own g.members.node_self hne g.members.own_state
  · exact hm k n hbump hne halive

lemma own_merge_of_untold {m : Members} {nodes : List Node} {now : ℕ}
    (h : ∀ r ∈ nodes, r.id = m.self → r.state = alive ∨ r.incarnation < m.own.incarnation) :
    (m.merge nodes now).own = m.own := by
  unfold Members.merge
  induction nodes generalizing m with
  | nil => rfl
  | cons r nodes ih =>
    have hone : (m.mergeOne r now).own = m.own := by
      refine Members.own_eq ?_
      rw [Members.self_mergeOne, Members.node_mergeOne, m.node_self]
      split_ifs with hr
      · have hc : ¬ (r.state ≠ alive ∧ m.own.incarnation ≤ r.incarnation) := by
          rintro ⟨hs, hle⟩
          rcases h r List.mem_cons_self hr with halive | hlt
          · exact hs halive
          · exact absurd hlt (UInt64.not_lt.mpr hle)
        simp only [Members.news, if_pos hr, if_neg hc, Option.none_or]
      · rfl
    rw [List.foldl_cons, ih, hone]
    intro y hy
    rw [Members.self_mergeOne, hone]
    exact h y (List.mem_cons_of_mem _ hy)

lemma alive_of_sent {g : Gossiper} {ch : Choices} {p : Packet} {r : Node}
    (hroster : ∀ k n, g.members.node k = some n → Elsewhere resolve x a n)
    (hseeds : g.flags.id ≠ x → ∀ seed ∈ g.flags.seeds, resolve seed ≠ some a)
    (hp : p ∈ g.sent resolve ch) (hdst : p.dst = a) (hr : r ∈ g.members.snapshot ch.snapshot)
    (hid : r.id = x) : r.state = alive := by
  obtain ⟨-, cand, hcand, hres⟩ := Gossiper.of_mem_sent hp
  rw [hdst] at hres
  have hr := Members.mem_snapshot.mp hr
  by_cases hself : g.flags.id = x
  · -- its own record
    have hown : g.members.own = r := by
      refine Members.own_eq ?_
      rw [g.self_eq, hself, ← hid]
      exact hr
    rw [← hown]
    exact Members.own_state _
  · rcases Gossiper.mem_candidates.mp hcand with ⟨l, hl, halive, -, rfl⟩ | hseed
    · -- whoever is sent a packet as a member is `Alive` in it
      have hlx : l.id = x := by
        by_contra hne
        exact hroster l.id l hl hne halive hres
      rw [hid, ← hlx, hl, Option.some.injEq] at hr
      exact hr ▸ halive
    · exact absurd hres (hseeds hself cand hseed)

lemma Unaddressed.round (h : Unaddressed resolve x a c s) {id : Bytes} {g : Gossiper} (now : ℕ)
    (ch : Choices) (hg : s.running[id]? = some g) (hx : id = x → g.flags.id = x) :
    Unaddressed resolve x a c ⟨now, s.running.insert id (g.heartbeat now),
      s.packets ++ (g.heartbeat now).sent resolve ch⟩ := by
  have hbeat := elsewhere_heartbeat now (h.rosters id g hg)
  refine ⟨fun k g' hk hg' => ?_, forall_insert_running h.rosters hbeat,
    fun p hp nodes hn r hr => ?_, fun p hp hdst nodes hn r hr hid => ?_⟩
  · exact forall_insert_running (g := g.heartbeat now) (fun k g' hg' hk => h.seeds k g' hk hg')
      (fun hk => h.seeds id g hk hg) k g' hg' hk
  · rcases List.mem_append.mp hp with hp | hp
    · exact h.packets p hp nodes hn r hr
    · rw [(Gossiper.of_mem_sent hp).1] at hn
      cases hn
      exact hbeat r.id r (Members.mem_snapshot.mp hr)
  · rcases List.mem_append.mp hp with hp | hp
    · exact h.untold p hp hdst nodes hn r hr hid
    · rw [(Gossiper.of_mem_sent hp).1] at hn
      cases hn
      exact .inl (alive_of_sent hbeat (fun hne => h.seeds id g (mt hx hne) hg) hp hdst hr hid)

lemma Unaddressed.deliver (h : Unaddressed resolve x a c s) {id : Bytes} {g : Gossiper} {now : ℕ}
    {p : Packet} (hg : s.running[id]? = some g) (hp : p ∈ s.packets) :
    Unaddressed resolve x a c
      { s with now, running := s.running.insert id (g.receive p.payload now) } := by
  have hroster : ∀ k r, (g.receive p.payload now).members.node k = some r →
      Elsewhere resolve x a r := by
    unfold Gossiper.receive
    split
    · next nodes hn => exact elsewhere_merge (h.rosters id g hg) (h.packets p hp nodes hn)
    · exact h.rosters id g hg
  have hseeds : id ≠ x → ∀ seed ∈ (g.receive p.payload now).flags.seeds,
      resolve seed ≠ some a := by
    rw [g.flags_receive]
    exact fun hne => h.seeds id g hne hg
  refine ⟨fun k g' hk hg' => ?_, forall_insert_running h.rosters hroster, h.packets, h.untold⟩
  exact forall_insert_running (fun k g' hg' hk => h.seeds k g' hk hg') hseeds k g' hg' hk

lemma unaddressed_of_steps (h : Unaddressed resolve x a c s ∧ RunsAt x a c s)
    (hrun : Steps (Network.step resolve) (Others x) s t) :
    Unaddressed resolve x a c t ∧ RunsAt x a c t := by
  refine hrun.invariant (I := fun s => Unaddressed resolve x a c s ∧ RunsAt x a c s) h
    fun u e v hu hok hstep => ?_
  obtain ⟨hu, gx, hgx, hid, haddr, hinc⟩ := hu
  cases e with
  | start f now => exact hok.elim
  | stop id => exact hok.elim
  | round id now ch =>
    obtain ⟨g, hg, rfl⟩ := step_round hstep
    have hne : id ≠ x := hok
    refine ⟨hu.round now ch hg fun heq => absurd heq hne, gx, ?_, hid, haddr, hinc⟩
    rw [getElem?_insert_running, if_neg hne]
    exact hgx
  | deliver id i now =>
    obtain ⟨g, p, hg, hp, hdst, rfl⟩ := step_deliver hstep
    refine ⟨hu.deliver hg hp, ?_⟩
    by_cases hidx : id = x
    · subst hidx
      rw [hgx, Option.some.injEq] at hg
      subst hg
      refine ⟨gx.receive p.payload now, ?_, ?_⟩
      · rw [getElem?_insert_running, if_pos rfl]
      · unfold Gossiper.receive
        split
        · next nodes hn =>
          refine ⟨hid, haddr, ?_⟩
          have hown : (gx.members.merge nodes now).own = gx.members.own := by
            refine own_merge_of_untold fun r hr hself => ?_
            rw [hinc]
            exact hu.untold p hp (hdst.trans haddr) nodes hn r hr
              (hself.trans (gx.self_eq.trans hid))
          exact (congrArg Node.incarnation hown).trans hinc
        · exact ⟨hid, haddr, hinc⟩
    · refine ⟨gx, ?_, hid, haddr, hinc⟩
      rw [getElem?_insert_running, if_neg hidx]
      exact hgx

/-- **Nobody tells it**: the one heartbeat does not lift `x` above the claim. -/
lemma le_of_continues {i : UInt64} (h : Unaddressed resolve x a c s) (hx : RunsAt x a c s)
    (hlt : c < i) (hrun : Continues resolve x s t) :
    ∃ g, t.running[x]? = some g ∧ g.members.own.incarnation ≤ i := by
  rcases hrun with hrun | ⟨u, v, now, ch, hrun, hround, hrest⟩
  · obtain ⟨-, g, hg, -, -, hinc⟩ := unaddressed_of_steps ⟨h, hx⟩ hrun
    exact ⟨g, hg, hinc ▸ UInt64.le_of_lt hlt⟩
  · obtain ⟨hu, g, hg, hid, haddr, hinc⟩ := unaddressed_of_steps ⟨h, hx⟩ hrun
    obtain ⟨g', hg', rfl⟩ := step_round hround
    rw [hg, Option.some.injEq] at hg'
    subst hg'
    have hmax : c.toNat < 2 ^ 64 - 1 := by
      have := UInt64.lt_iff_toNat_lt.mp hlt
      have := i.toNat_lt
      omega
    have hsucc := lt_succ_of_lt_max hmax
    have hbeat : (g.heartbeat now).members.own.incarnation = c + 1 := by
      rw [Gossiper.heartbeat, Members.own_detectFailures, Members.own_bump, hinc]
    have hv := hu.round now ch hg fun _ => hid
    have hv' : Unaddressed resolve x a (c + 1) ⟨now, u.running.insert x (g.heartbeat now),
        u.packets ++ (g.heartbeat now).sent resolve ch⟩ :=
      ⟨hv.seeds, hv.rosters, hv.packets, fun p hp hdst nodes hn r hr hrid =>
        (hv.untold p hp hdst nodes hn r hr hrid).imp id fun hr => UInt64.lt_trans hr hsucc⟩
    obtain ⟨-, g', hg', -, -, hinc'⟩ := unaddressed_of_steps
      ⟨hv', g.heartbeat now, by rw [getElem?_insert_running, if_pos rfl], hid, haddr, hbeat⟩ hrest
    refine ⟨g', hg', ?_⟩
    rw [hinc', UInt64.le_iff_toNat_le]
    have hc := UInt64.lt_iff_toNat_lt.mp hlt
    have hadd : (c + 1).toNat = c.toNat + 1 := by
      rw [UInt64.toNat_add]
      exact Nat.mod_eq_of_lt (by have := i.toNat_lt; simp; omega)
    omega

/-! ### What fits into a datagram -/

lemma length_nodeBytes {n : Node} (h : Short n) : (nodeBytes n).length = recordSize n := by
  rw [nodeBytes, putString_of_le h.1, putString_of_le h.2]
  simp only [written, putUint16, putUint64, List.length_append,
    List.length_singleton, length_bigEndian, recordSize]
  omega

lemma marshal_of_size {nodes : List Node} (h : 2 + (nodes.map recordSize).sum ≤ maxDatagram) :
    ∃ p, marshal nodes = .ok p ∧ p.length ≤ maxDatagram := by
  have hmax : maxDatagram < maxUint16 := by decide
  have hshort : ∀ n ∈ nodes, Short n := by
    intro n hn
    have hle := List.le_sum_of_mem (List.mem_map_of_mem (f := recordSize) hn)
    have hsize : recordSize n = 13 + n.id.length + n.addr.length := rfl
    constructor
    · omega
    · omega
  have hlen : nodes.length ≤ (nodes.map recordSize).sum := by
    have hle := List.length_le_sum_of_one_le (nodes.map recordSize) fun k hk => by
      obtain ⟨n, -, rfl⟩ := List.mem_map.mp hk
      unfold recordSize
      omega
    rwa [List.length_map] at hle
  refine ⟨packet nodes, marshal_of_packable ⟨by omega, hshort⟩, ?_⟩
  have hsizes : nodes.map (List.length ∘ nodeBytes) = nodes.map recordSize :=
    List.map_congr_left fun n hn => length_nodeBytes (hshort n hn)
  rw [packet, List.length_append, List.length_flatMap, putUint16, length_bigEndian]
  exact hsizes ▸ h

lemma size_le_of_drawn {m : Members} {l : List Node} (o : VisitOrder (Bytes × Entry))
    (h : ∀ r, m.node r.id = some r → ∃ r' ∈ l, r'.id = r.id ∧ r'.addr = r.addr) :
    ((m.snapshot o).map recordSize).sum ≤ (l.map recordSize).sum := by
  have hsize : ∀ nodes : List Node, (nodes.map recordSize).sum =
      ((nodes.map fun n => (n.id, n.addr)).map fun k => 13 + k.1.length + k.2.length).sum := by
    intro nodes
    rw [List.map_map]
    rfl
  have hnodup : ((m.snapshot o).map fun n => (n.id, n.addr)).Nodup :=
    List.pairwise_map.mpr ((m.distinct_snapshot o).imp fun hne heq =>
      hne (Prod.ext_iff.mp heq).1)
  have hsub : ((m.snapshot o).map fun n => (n.id, n.addr)) ⊆ l.map fun n => (n.id, n.addr) := by
    intro k hk
    obtain ⟨r, hr, rfl⟩ := List.mem_map.mp hk
    obtain ⟨r', hr', hid, haddr⟩ := h r (Members.mem_snapshot.mp hr)
    exact List.mem_map.mpr ⟨r', hr', by rw [hid, haddr]⟩
  obtain ⟨l', hperm, hl'⟩ := hnodup.subperm hsub
  rw [hsize, hsize, ← (hperm.map _).sum_eq]
  exact (hl'.map _).sum_le_sum fun _ _ => Nat.zero_le _

/-! ### An exchange with a node among the seeds -/

/-- `g'` is `g` some rounds later. -/
structure Aged (g g' : Gossiper) : Prop where
  flags : g'.flags = g.flags
  dead : ∀ id r, g.members.node id = some r → r.state ≠ alive → g'.members.node id = some r
  addrs : ∀ id r', g'.members.node id = some r' →
    ∃ r, g.members.node id = some r ∧ r.addr = r'.addr

lemma Aged.refl (g : Gossiper) : Aged g g := ⟨rfl, fun _ _ h _ => h, fun _ r h => ⟨r, h, rfl⟩⟩

lemma Aged.trans {g g' g'' : Gossiper} (h : Aged g g') (h' : Aged g' g'') : Aged g g'' := by
  refine ⟨h'.flags.trans h.flags, fun id r hr hs => h'.dead id r (h.dead id r hr hs) hs,
    fun id r'' hr'' => ?_⟩
  obtain ⟨r', hr', haddr'⟩ := h'.addrs id r'' hr''
  obtain ⟨r, hr, haddr⟩ := h.addrs id r' hr'
  exact ⟨r, hr, haddr.trans haddr'⟩

lemma aged_heartbeat (g : Gossiper) (now : ℕ) : Aged g (g.heartbeat now) := by
  refine ⟨rfl, fun id r hr hs => ?_, fun id r' hr' => ?_⟩
  · refine Members.node_detectFailures_of_ne _ _ ?_ hs
    rw [Members.node_bump, if_neg, hr]
    rintro rfl
    rw [Members.node_self, Option.some.injEq] at hr
    exact hs (hr ▸ g.members.own_state)
  · have hdetect : ∃ r, (g.members.bump now).node id = some r ∧ r.addr = r'.addr := by
      simp only [Gossiper.heartbeat, Members.node_detectFailures] at hr'
      obtain ⟨e, he, rfl⟩ := Option.map_eq_some_iff.mp hr'
      refine ⟨e.node, by rw [Members.node, he, Option.map_some], ?_⟩
      unfold Members.detect
      split_ifs <;> rfl
    obtain ⟨r, hr, haddr⟩ := hdetect
    rw [Members.node_bump] at hr
    split_ifs at hr with hid
    · cases hr
      exact ⟨g.members.own, hid ▸ g.members.node_self, haddr⟩
    · exact ⟨r, hr, haddr⟩

lemma incarnation_heartbeat (g : Gossiper) (now : ℕ) :
    (g.heartbeat now).members.own.incarnation = g.members.own.incarnation + 1 := by
  rw [Gossiper.heartbeat, Members.own_detectFailures, Members.own_bump]

lemma Aged.wireSize_le {g g' : Gossiper} (h : Aged g g') :
    wireSize g'.members ≤ wireSize g.members := by
  refine Nat.add_le_add_left (size_le_of_drawn default fun r hr => ?_) 2
  obtain ⟨r', hr', haddr⟩ := h.addrs r.id r hr
  have hid := Members.id_of_node hr'
  exact ⟨r', Members.mem_snapshot.mpr (by rw [hid]; exact hr'), hid, haddr⟩

variable (resolve) in
lemma exists_beats (k : ℕ) {y : Bytes} {g : Gossiper} (hy : y ≠ x) (hg : s.running[y]? = some g) :
    ∃ t g', Steps (Network.step resolve) (Others x) s t ∧ t.now = s.now ∧
      t.running[y]? = some g' ∧ (∀ id, id ≠ y → t.running[id]? = s.running[id]?) ∧ Aged g g' ∧
      g'.members.own.incarnation = g.members.own.incarnation + UInt64.ofNat k := by
  induction k with
  | zero => exact ⟨s, g, .refl, rfl, hg, fun _ _ => rfl, .refl g, (UInt64.add_zero _).symm⟩
  | succ k ih =>
    obtain ⟨t, g', hrun, hnow, hg', hothers, haged, hinc⟩ := ih
    have hstep : t.step resolve (.round y t.now {}) = some ⟨t.now,
        t.running.insert y (g'.heartbeat t.now),
        t.packets ++ (g'.heartbeat t.now).sent resolve {}⟩ := by
      simp only [Network.step, hg', le_refl, if_true]
    refine ⟨_, g'.heartbeat t.now, .tail (.round y t.now {}) hrun hy hstep, hnow, ?_,
      fun id hid => ?_, haged.trans (aged_heartbeat _ _), ?_⟩
    · rw [getElem?_insert_running, if_pos rfl]
    · rw [getElem?_insert_running, if_neg (Ne.symm hid)]
      exact hothers id hid
    · rw [incarnation_heartbeat, hinc, UInt64.add_assoc, UInt64.ofNat_add]
      rfl

lemma exists_sent_toFront {g : Gossiper} {addr dst p : Bytes}
    (haddr : addr ∈ g.candidates default) (hres : resolve addr = some dst)
    (hpayload : g.payload default = some p) :
    ∃ rest, g.sent resolve { shuffle := .toFront addr } = ⟨dst, p⟩ :: rest := by
  obtain ⟨k, hk⟩ := Nat.exists_eq_succ_of_ne_zero g.flags.fanout_pos.ne'
  obtain ⟨others, hpick⟩ : ∃ others, pickPeers (.toFront addr) (g.candidates default)
      g.flags.fanout = addr :: others := by
    simp only [pickPeers, VisitOrder.toFront, if_pos haddr, hk, List.take_succ_cons]
    exact ⟨_, rfl⟩
  refine ⟨(others.filterMap resolve).map fun dst => ⟨dst, p⟩, ?_⟩
  simp only [Gossiper.sent, hpayload, hpick, List.filterMap_cons, hres, List.map_cons]

lemma exists_exchange {id id' : Bytes} {g g' : Gossiper} (hne : id ≠ id')
    (hg : s.running[id]? = some g) (hg' : s.running[id']? = some g') {addr : Bytes}
    (haddr : addr ∈ (g.heartbeat s.now).candidates default)
    (hres : resolve addr = some g'.flags.addr)
    (hfits : wireSize (g.heartbeat s.now).members ≤ maxDatagram) :
    ∃ ch v i u, s.step resolve (.round id s.now ch) = some v ∧
      v.step resolve (.deliver id' i s.now) = some u ∧ u.now = s.now ∧
      u.running[id]? = some (g.heartbeat s.now) ∧
      u.running[id']? =
        some (g'.merge ((g.heartbeat s.now).members.snapshot default) s.now) := by
  obtain ⟨p, hp, hlen⟩ := marshal_of_size hfits
  have hpayload : (g.heartbeat s.now).payload default = some p := by
    simp only [Gossiper.payload, hp, if_pos hlen]
  let ch : Choices := { shuffle := .toFront addr }
  obtain ⟨rest, hsent⟩ := exists_sent_toFront haddr hres hpayload
  have hround : s.step resolve (.round id s.now ch) = some ⟨s.now,
      s.running.insert id (g.heartbeat s.now),
      s.packets ++ (g.heartbeat s.now).sent resolve ch⟩ := by
    simp only [Network.step, hg, le_refl, if_true]
  refine ⟨ch, _, s.packets.length, ⟨s.now,
    (s.running.insert id (g.heartbeat s.now)).insert id' (g'.receive p s.now),
    s.packets ++ (g.heartbeat s.now).sent resolve ch⟩, hround, ?_, rfl, ?_⟩
  · have hdst : (s.running.insert id (g.heartbeat s.now))[id']? = some g' := by
      rw [getElem?_insert_running, if_neg hne]
      exact hg'
    have hfirst : (s.packets ++ (g.heartbeat s.now).sent resolve ch)[s.packets.length]? =
        some ⟨g'.flags.addr, p⟩ := by
      rw [hsent, List.getElem?_append_right le_rfl, Nat.sub_self]
      rfl
    simp only [Network.step, hdst, hfirst, le_refl, and_self, if_true]
  · have hmerge : g'.receive p s.now =
        g'.merge ((g.heartbeat s.now).members.snapshot default) s.now := by
      simp only [Gossiper.receive, unmarshal_marshal hp]
    rw [getElem?_insert_running, getElem?_insert_running, getElem?_insert_running, if_pos rfl,
      if_neg (Ne.symm hne), if_pos rfl, hmerge]
    exact ⟨rfl, rfl⟩

section Reply

variable {gx gy : Gossiper} (now : ℕ)

/-- **It is told**, and goes one above the claim. -/
lemma incarnation_of_claim {r : Node} (hr : gy.members.node gx.flags.id = some r)
    (hs : r.state ≠ alive) (hle : gx.members.own.incarnation ≤ r.incarnation) :
    (gx.merge (gy.members.snapshot default) now).members.own.incarnation = r.incarnation + 1 := by
  have hid : r.id = gx.members.self := (Members.id_of_node hr).trans gx.self_eq.symm
  have hown : (gx.merge (gy.members.snapshot default) now).members.own =
      { gx.members.own with incarnation := r.incarnation + 1, state := alive } := by
    refine Members.own_eq ?_
    rw [Gossiper.merge, Members.self_merge, Members.node_merge_snapshot, gx.self_eq, hr,
      ← gx.self_eq, gx.members.node_self, Option.bind_some, Members.news, if_pos hid,
      if_pos ⟨hs, hle⟩, Option.some_or]
  rw [hown]

lemma entry_of_sender (hne : gy.flags.id ≠ gx.flags.id)
    (hfresh : ∀ r, gx.members.node gy.flags.id = some r →
      r.incarnation < gy.members.own.incarnation) :
    (gx.merge (gy.members.snapshot default) now).members.nodes[gy.flags.id]? =
      some ⟨gy.members.own, now⟩ := by
  have hself : gy.members.node gy.flags.id = some gy.members.own := by
    rw [← gy.self_eq]
    exact gy.members.node_self
  have hid : gy.members.own.id ≠ gx.members.self := by
    rw [Members.own_id, gy.self_eq, gx.self_eq]
    exact hne
  have hnews : Members.news gx.members.self (gx.members.node gy.flags.id) gy.members.own =
      some gy.members.own := by
    rcases hk : gx.members.node gy.flags.id with _ | l
    · rfl
    · rw [Members.news, if_neg hid, if_pos (hfresh l hk)]
  rw [Gossiper.merge, Members.getElem?_merge_snapshot, hself, Option.bind_some, hnews,
    Option.map_some, Option.some_or]

lemma node_heartbeat_of_recent {g : Gossiper} {id : Bytes} {n : Node} (hne : id ≠ g.flags.id)
    (h : g.members.nodes[id]? = some ⟨n, now⟩) : (g.heartbeat now).members.node id = some n := by
  have hnew : ¬ sub now now > g.flags.failTimeout := by
    have := g.flags.failTimeout_pos
    simp only [sub, sub_self]
    omega
  rw [Gossiper.heartbeat, Members.node_detectFailures,
    Members.getElem?_bump_of_ne now (g.self_eq ▸ hne), h, Option.map_some, Members.detect]
  split_ifs with hself hlate
  · rfl
  · exact absurd hlate.2 hnew
  · rfl

lemma wireSize_merge_le :
    wireSize (gx.merge (gy.members.snapshot default) now).members ≤
      wireSize gx.members + wireSize gy.members := by
  have hsum := size_le_of_drawn (m := (gx.merge (gy.members.snapshot default) now).members)
    (l := gx.members.snapshot default ++ gy.members.snapshot default) default fun r hr => ?_
  · rw [List.map_append, List.sum_append] at hsum
    unfold wireSize
    omega
  · have hmem : ∀ (m : Members) (n : Node), m.node r.id = some n → n ∈ m.snapshot default :=
      fun m n hn => Members.mem_snapshot.mpr (by rw [Members.id_of_node hn]; exact hn)
    rw [Gossiper.merge, Members.node_merge_snapshot] at hr
    rcases hy : gy.members.node r.id with _ | n
    · rw [hy, Option.bind_none, Option.none_or] at hr
      exact ⟨r, List.mem_append_left _ (hmem _ r hr), rfl, rfl⟩
    · rw [hy, Option.bind_some] at hr
      rcases hnews : Members.news gx.members.self (gx.members.node r.id) n with _ | n'
      · rw [hnews, Option.none_or] at hr
        exact ⟨r, List.mem_append_left _ (hmem _ r hr), rfl, rfl⟩
      · rw [hnews, Option.some_or, Option.some.injEq] at hr
        subst hr
        rcases Members.news_cases hnews with heq | ⟨l, hl, hid, haddr, -⟩
        · exact ⟨n, List.mem_append_right _ (hmem _ n hy), heq ▸ rfl, heq ▸ rfl⟩
        · exact ⟨l, List.mem_append_left _ (hmem _ l hl), hid.symm, haddr.symm⟩

end Reply

/-- In a run, nodes are filed under their IDs and their addresses stand for themselves. -/
def Bound (resolve : Bytes → Option Bytes) (s : Network) : Prop :=
  ∀ (id : Bytes) (g : Gossiper), s.running[id]? = some g →
    g.flags.id = id ∧ resolve g.flags.addr = some g.flags.addr

lemma bound_of_steps (hrun : Steps (Network.step resolve) (fun _ _ => True) {} s) :
    Bound resolve s := by
  refine hrun.invariant (I := Bound resolve) (fun id g hg => ?_) fun u e v hu _ hstep => ?_
  · rw [show ({} : Network).running = ∅ from rfl, ExtTreeMap.getElem?_empty] at hg
    cases hg
  cases e with
  | start f now =>
    simp only [Network.step] at hstep
    split_ifs at hstep with hok
    cases hstep
    exact forall_insert_running hu ⟨rfl, hok.2.2.1⟩
  | stop k =>
    simp only [Network.step] at hstep
    split_ifs at hstep
    cases hstep
    intro id g hg
    rw [ExtTreeMap.getElem?_erase] at hg
    split_ifs at hg
    exact hu id g hg
  | round k now ch =>
    obtain ⟨g, hg, rfl⟩ := step_round hstep
    exact forall_insert_running hu (hu k g hg)
  | deliver k i now =>
    obtain ⟨g, p, hg, -, -, rfl⟩ := step_deliver hstep
    refine forall_insert_running hu ?_
    rw [g.flags_receive]
    exact hu k g hg

/-- `x` has been told by `y`, which still holds `r` for it, and knows where to reply. -/
structure Told (s : Network) (x y : Bytes) (gx gy : Gossiper) (r : Node) : Prop where
  runs : s.running[x]? = some gx
  sender : s.running[y]? = some gy
  incarnation : gx.members.own.incarnation = r.incarnation + 1
  learned : gx.members.nodes[y]? = some ⟨gy.members.own, s.now⟩
  held : gy.members.node x = some r
  fits : wireSize gx.members ≤ maxDatagram

lemma Reaches.exists_fresh {gx gy : Gossiper} {i : UInt64} (h : Reaches resolve gy gx i) :
    ∃ target : UInt64, ∀ l, gx.members.node gy.flags.id = some l → l.incarnation < target := by
  rcases hk : gx.members.node gy.flags.id with _ | l
  · exact ⟨0, fun l hl => by cases hl⟩
  · refine ⟨l.incarnation + 1, fun l' hl' => ?_⟩
    cases hl'
    exact lt_succ_of_lt_max (by have := h.known l hk; omega)

lemma exists_told {gx gy : Gossiper} {y : Bytes} {i : UInt64} {r : Node} (hs : Bound resolve s)
    (h : Presumed s x gx i) (hy : y ≠ x) (hgy : s.running[y]? = some gy)
    (hr : gy.members.node x = some r) (hdead : r.state ≠ alive) (hri : r.incarnation = i)
    (hreach : Reaches resolve gy gx i) :
    ∃ w gx' gy', Steps (Network.step resolve) (Others x) s w ∧ gx'.flags = gx.flags ∧
      gy'.flags = gy.flags ∧ Told w x y gx' gy' r := by
  obtain ⟨hxid, -⟩ := hs x gx h.runs
  obtain ⟨hyid, -⟩ := hs y gy hgy
  obtain ⟨seed, hseed, hres⟩ := hreach.seed
  obtain ⟨target, hfresh⟩ := hreach.exists_fresh
  obtain ⟨u, g, hbeats, -, hg, hothers, haged, hinc⟩ :=
    exists_beats resolve (target - 1 - gy.members.own.incarnation).toNat hy hgy
  have hgx : u.running[x]? = some gx := (hothers x hy.symm).trans h.runs
  have haged := haged.trans (aged_heartbeat g u.now)
  have hflags := haged.flags
  have htarget : (g.heartbeat u.now).members.own.incarnation = target := by
    rw [incarnation_heartbeat, hinc, UInt64.ofNat_toNat]
    grind
  have hcand : seed ∈ (g.heartbeat u.now).candidates default := by
    rw [Gossiper.mem_candidates, hflags]
    exact .inr hseed
  have hsize := haged.wireSize_le
  have hfits := hreach.fits
  obtain ⟨ch, v, j, w, hround, hdeliver, hwnow, hwy, hwx⟩ :=
    exists_exchange hy hg hgx hcand hres (by omega)
  have hclaim : (g.heartbeat u.now).members.node gx.flags.id = some r :=
    hxid ▸ haged.dead x r hr hdead
  have hentry := entry_of_sender u.now (show (g.heartbeat u.now).flags.id ≠ gx.flags.id by
    rw [hflags, hyid, hxid]
    exact hy) (by rw [hflags, htarget]; exact hfresh)
  rw [hflags, hyid] at hentry
  have hsteps : Steps (Network.step resolve) (Others x) s w :=
    .tail (.deliver x j u.now) (.tail (.round y u.now ch) hbeats hy hround) trivial hdeliver
  refine ⟨w, gx.merge ((g.heartbeat u.now).members.snapshot default) u.now, g.heartbeat u.now,
    hsteps, rfl, hflags, hwx, hwy, ?_, ?_, ?_, ?_⟩
  · refine incarnation_of_claim u.now hclaim hdead ?_
    rw [hri]
    exact UInt64.le_of_lt h.behind
  · rw [hwnow]
    exact hentry
  · rw [← hxid]
    exact hclaim
  · exact (wireSize_merge_le u.now).trans (by omega)

/-- **A seed brings it back**: in its one round `x` replies to the node that told it. -/
lemma recovered_of_reaches {gx gy : Gossiper} {y : Bytes} {i : UInt64} (hs : Bound resolve s)
    (h : Presumed s x gx i) (hy : y ≠ x) (hgy : s.running[y]? = some gy)
    (hreach : Reaches resolve gy gx i) : ∃ t, Continues resolve x s t ∧ Recovered t x i := by
  obtain ⟨hxid, -⟩ := hs x gx h.runs
  obtain ⟨hyid, hyaddr⟩ := hs y gy hgy
  obtain ⟨r, hr, hrs, hri⟩ := h.dead y gy hy hgy
  obtain ⟨w, gx', gy', hrun, hxflags, hyflags, htold⟩ :=
    exists_told hs h hy hgy hr (hrs ▸ by decide) hri hreach
  have hknown : (gx'.heartbeat w.now).members.node y = some gy'.members.own :=
    node_heartbeat_of_recent w.now (by rw [hxflags, hxid]; exact hy) htold.learned
  have hcand : gy'.members.own.addr ∈ (gx'.heartbeat w.now).candidates default := by
    have hid := Members.id_of_node hknown
    refine Gossiper.mem_candidates.mpr (.inl ⟨gy'.members.own, ?_, Members.own_state _, ?_, rfl⟩)
    · rw [hid]
      exact hknown
    · rw [hid, show (gx'.heartbeat w.now).flags = gx'.flags from rfl, hxflags, hxid]
      exact hy
  have hres : resolve gy'.members.own.addr = some gy'.flags.addr := by
    rw [gy'.addr_eq, hyflags]
    exact hyaddr
  obtain ⟨ch, v, j, t, hround, hdeliver, -, htx, hty⟩ :=
    exists_exchange hy.symm htold.runs htold.sender hcand hres
      ((aged_heartbeat gx' w.now).wireSize_le.trans htold.fits)
  -- two above the claim by now
  have hself : (gx'.heartbeat w.now).members.self = x := by
    rw [(gx'.heartbeat w.now).self_eq]
    exact (congrArg Flags.id hxflags).trans hxid
  have hlt : i < (gx'.heartbeat w.now).members.own.incarnation := by
    have hclaim := hreach.claim
    have hone := lt_succ_of_lt_max (x := i) (by omega)
    have htwo := lt_succ_of_lt_max (x := i + 1) (by
      rw [UInt64.toNat_add, Nat.mod_eq_of_lt (by simp; omega)]
      simp
      omega)
    rw [incarnation_heartbeat, htold.incarnation, hri]
    exact UInt64.lt_trans hone htwo
  obtain ⟨n, hn, halive⟩ := alive_of_snapshot (m := gy'.members) default w.now
    (hself ▸ htold.held) (hri ▸ hlt)
  refine ⟨t,
    .inr ⟨w, v, w.now, ch, hrun, hround, .tail (.deliver y j w.now) .refl trivial hdeliver⟩,
    gx'.heartbeat w.now, htx, hlt, y, _, n, hy, hty, ?_, halive⟩
  rw [hself] at hn
  exact hn

/-- **A restarted node is told that it is dead, if it is a seed.** In every state of a run in which
`x` is presumed dead: if another node has its address among its seeds, with room for the exchange,
then the two of them bring it back, in one round of `x`. If nobody has its address, no rounds and
deliveries bring it back. -/
theorem restarted_node_told {gx : Gossiper} {i : UInt64}
    (hrun : Steps (Network.step resolve) (fun _ _ => True) {} s) (h : Presumed s x gx i) :
    ((∃ (y : Bytes) (gy : Gossiper), y ≠ x ∧ s.running[y]? = some gy ∧ Reaches resolve gy gx i) →
      ∃ t, Continues resolve x s t ∧ Recovered t x i) ∧
    (Unaddressed resolve x gx.flags.addr gx.members.own.incarnation s →
      ∀ t, Continues resolve x s t → ¬ Recovered t x i) := by
  have hs := bound_of_steps hrun
  constructor
  · rintro ⟨y, gy, hy, hgy, hreach⟩
    exact recovered_of_reaches hs h hy hgy hreach
  · rintro hun t ht ⟨g, hg, hlt, -⟩
    obtain ⟨g', hg', hle⟩ :=
      le_of_continues hun ⟨gx, h.runs, (hs x gx h.runs).1, rfl, rfl⟩ h.behind ht
    rw [hg, Option.some.injEq] at hg'
    subst hg'
    exact absurd hlt (UInt64.not_lt.mpr hle)

end

/-! ### The first two nodes of a cluster -/

/-- The first node, and a second one that was started with it as its seed, reached incarnation 5,
stopped, was declared dead, and has come back. -/
def restarted (seeds : List Bytes) : List Event :=
  [.start { id := [65], addr := [1], seeds } 0,
    .start { id := [66], addr := [2], seeds := [[1]] } 0,
    .round [66] 1 {}, .round [66] 2 {}, .round [66] 3 {}, .round [66] 4 {}, .deliver [65] 3 5,
    .stop [66], .round [65] (6 * nanosPerSecond) {},
    .start { id := [66], addr := [2], seeds := [[1]] } (6 * nanosPerSecond)]

/-- `Presumed`, as a test. -/
def presumed (s : Network) (x : Bytes) (i : UInt64) : Bool :=
  (s.running[x]?).any (fun g => g.members.own.incarnation < i) &&
  s.running.toList.all (fun e => e.1 = x || (e.2.members.node x).any fun r =>
    r.state = dead && r.incarnation = i) &&
  s.running.toList.any fun e => e.1 ≠ x

lemma exists_presumed {s : Network} {x : Bytes} {i : UInt64} (h : presumed s x i = true) :
    ∃ gx, Presumed s x gx i := by
  simp only [presumed, Bool.and_eq_true, Option.any_eq_true, List.all_eq_true, List.any_eq_true,
    Bool.or_eq_true, decide_eq_true_eq] at h
  obtain ⟨⟨⟨gx, hgx, hlt⟩, hall⟩, e, he, hne⟩ := h
  refine ⟨gx, hgx, hlt, fun y gy hy hgy => ?_, e.1, e.2, hne, ?_⟩
  · have hmem : (y, gy) ∈ s.running.toList := ExtTreeMap.mem_toList_iff_getElem?_eq_some.mpr hgy
    rcases hall _ hmem with heq | hheld
    · exact absurd heq hy
    · exact hheld
  · exact ExtTreeMap.mem_toList_iff_getElem?_eq_some.mp he

/-- `Reaches`, for some other node, as a test. -/
def reaches (s : Network) (x : Bytes) (i : UInt64) : Bool :=
  i.toNat + 2 < 2 ^ 64 && (s.running[x]?).any fun gx => s.running.toList.any fun e =>
    e.1 ≠ x && gx.flags.addr ∈ e.2.flags.seeds &&
    (gx.members.node e.2.flags.id).all (fun r => r.incarnation.toNat + 1 < 2 ^ 64) &&
    wireSize gx.members + wireSize e.2.members ≤ maxDatagram

lemma exists_reaches {s : Network} {x : Bytes} {gx : Gossiper} {i : UInt64}
    (hx : s.running[x]? = some gx) (h : reaches s x i = true) :
    ∃ (y : Bytes) (gy : Gossiper), y ≠ x ∧ s.running[y]? = some gy ∧ Reaches some gy gx i := by
  simp only [reaches, hx, Option.any_some, Bool.and_eq_true, List.any_eq_true,
    decide_eq_true_eq] at h
  obtain ⟨hclaim, e, he, ⟨⟨hne, hseed⟩, hknown⟩, hfits⟩ := h
  refine ⟨e.1, e.2, hne, ExtTreeMap.mem_toList_iff_getElem?_eq_some.mp he,
    ⟨_, hseed, rfl⟩, hclaim, fun r hr => ?_, hfits⟩
  simpa [hr] using hknown

/-- If the first node was started with the second one as a seed, the two of them bring it back. -/
theorem restarted_node_told_by_seed :
    ∃ s t, exec (Network.step some) (fun _ _ => true) {} (restarted [[2]]) = some s ∧
      presumed s [66] 5 = true ∧ Continues some [66] s t ∧ Recovered t [66] 5 := by
  have hfacts : ((exec (Network.step some) (fun _ _ => true) {} (restarted [[2]])).map fun s =>
      presumed s [66] 5 && reaches s [66] 5) = some true := by decide +kernel
  obtain ⟨s, hs, hcheck⟩ := Option.map_eq_some_iff.mp hfacts
  obtain ⟨hpresumed, hreaches⟩ := Bool.and_eq_true_iff.mp hcheck
  obtain ⟨gx, hx⟩ := exists_presumed hpresumed
  have hrun : Steps (Network.step some) (fun _ _ => True) {} s :=
    .of_exec_true hs
  obtain ⟨t, ht, hrec⟩ := (restarted_node_told hrun hx).1 (exists_reaches hx.runs hreaches)
  exact ⟨s, t, hs, hpresumed, ht, hrec⟩

/-- `Unaddressed`, as a test. -/
def unaddressed (x a : Bytes) (c : UInt64) (s : Network) : Bool :=
  s.running.toList.all (fun e => (e.1 = x || a ∉ e.2.flags.seeds) &&
    e.2.members.nodes.toList.all fun n =>
      n.2.node.id = x || n.2.node.state ≠ alive || n.2.node.addr ≠ a) &&
  s.packets.all fun p =>
    match unmarshal p.payload with
    | .ok nodes => nodes.all fun r => (r.id = x || r.state ≠ alive || r.addr ≠ a) &&
      (p.dst ≠ a || r.id ≠ x || r.state = alive || r.incarnation < c)
    | .error _ => true

lemma unaddressed_of_test {x a : Bytes} {c : UInt64} {s : Network}
    (h : unaddressed x a c s = true) : Unaddressed some x a c s := by
  simp only [unaddressed, Bool.and_eq_true, List.all_eq_true, Bool.or_eq_true,
    decide_eq_true_eq] at h
  obtain ⟨hnodes, hpackets⟩ := h
  have hmem : ∀ (id : Bytes) (g : Gossiper), s.running[id]? = some g →
      (id, g) ∈ s.running.toList :=
    fun id g hg => ExtTreeMap.mem_toList_iff_getElem?_eq_some.mpr hg
  have helse : ∀ r : Node, (r.id = x ∨ r.state ≠ alive) ∨ r.addr ≠ a → Elsewhere some x a r := by
    rintro r ((hid | hs) | haddr) hne halive
    · exact absurd hid hne
    · exact absurd halive hs
    · exact fun heq => haddr (Option.some.inj heq)
  have hrecords : ∀ p ∈ s.packets, ∀ nodes, unmarshal p.payload = .ok nodes → ∀ r ∈ nodes,
      ((r.id = x ∨ r.state ≠ alive) ∨ r.addr ≠ a) ∧
        (((p.dst ≠ a ∨ r.id ≠ x) ∨ r.state = alive) ∨ r.incarnation < c) := by
    intro p hp nodes hn r hr
    have hp := hpackets p hp
    simp only [hn, List.all_eq_true, Bool.and_eq_true, Bool.or_eq_true, decide_eq_true_eq] at hp
    exact hp r hr
  refine ⟨fun id g hne hg seed hseed heq => ?_, fun id g hg k r hr => ?_,
    fun p hp nodes hn r hr => helse r (hrecords p hp nodes hn r hr).1,
    fun p hp hdst nodes hn r hr hid => ?_⟩
  · rcases (hnodes _ (hmem id g hg)).1 with hx | hseeds
    · exact hne hx
    · exact hseeds (Option.some.inj heq ▸ hseed)
  · obtain ⟨e, he, rfl⟩ := Option.map_eq_some_iff.mp hr
    exact helse e.node ((hnodes _ (hmem id g hg)).2 (k, e)
      (ExtTreeMap.mem_toList_iff_getElem?_eq_some.mpr he))
  · rcases (hrecords p hp nodes hn r hr).2 with ((hne | hne) | halive) | hlt
    · exact absurd hdst hne
    · exact absurd hid hne
    · exact .inl halive
    · exact .inr hlt

/-- If the first node has no seeds, nothing they do brings the second one back: it is not told, and
one round does not lift it above what the first one holds. -/
theorem restarted_node_never_told :
    ∃ s gx, Steps (Network.step some) (fun _ _ => True) {} s ∧ Presumed s [66] gx 5 ∧
      ∀ t, Continues some [66] s t → ¬ Recovered t [66] 5 := by
  have hfacts : ((exec (Network.step some) (fun _ _ => true) {} (restarted [])).map fun s =>
      presumed s [66] 5 && unaddressed [66] [2] 1 s && (s.running[([66] : Bytes)]?).all fun g =>
        g.flags.id = [66] && g.flags.addr = [2] && g.members.own.incarnation = 1) =
      some true := by decide +kernel
  obtain ⟨s, hs, hcheck⟩ := Option.map_eq_some_iff.mp hfacts
  simp only [Bool.and_eq_true] at hcheck
  obtain ⟨⟨hpresumed, hun⟩, hat⟩ := hcheck
  obtain ⟨gx, hx⟩ := exists_presumed hpresumed
  simp only [hx.runs, Option.all_some, Bool.and_eq_true, decide_eq_true_eq, and_assoc] at hat
  refine ⟨s, gx, ?_, hx, fun t ht hrec => ?_⟩
  · exact .of_exec_true hs
  · obtain ⟨g, hg, hlt, -⟩ := hrec
    obtain ⟨g', hg', hle⟩ :=
      le_of_continues (unaddressed_of_test hun) ⟨gx, hx.runs, hat.1, hat.2.1, hat.2.2⟩
        (by decide : (1 : UInt64) < 5) ht
    rw [hg, Option.some.injEq] at hg'
    subst hg'
    exact absurd hlt (UInt64.not_lt.mpr hle)

end Kyria.Gossip
