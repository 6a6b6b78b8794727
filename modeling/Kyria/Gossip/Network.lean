import Kyria.Gossip
import Kyria.Time

/-!
Nodes that start, stop and send their rosters to addresses (`Gossiper.round`, `NewGossiper`).

A round goes to the members a node holds `Alive` and to its seeds; it is one step here. A packet
once sent stays in the network.
-/

namespace Kyria.Gossip

open Std (ExtTreeMap LawfulEqOrd)
open Kyria.Lib.Cursor Kyria.Lib.MapOrder Kyria.Lib.Runs Kyria.Binenc Kyria.Membership Kyria.Time

/-! ### A running node -/

/-- What a node is started with. The flags override a default only with a positive number. -/
structure Flags where
  id : Bytes
  addr : Bytes
  seeds : List Bytes := []
  fanout : ℕ := 3
  failTimeout : ℤ := 5 * nanosPerSecond
  fanout_pos : 0 < fanout := by decide
  failTimeout_pos : 0 < failTimeout := by decide

/-- A node that runs. Its roster is about itself, at the address it is bound to. -/
structure Gossiper where
  flags : Flags
  members : Members
  self_eq : members.self = flags.id
  addr_eq : members.own.addr = flags.addr

/-- What a round leaves to chance: the order in which `Alive` and `Snapshot` visit the roster, and
the shuffle of the candidates. -/
structure Choices where
  alive : VisitOrder (Bytes × Entry) := default
  snapshot : VisitOrder (Bytes × Entry) := default
  shuffle : VisitOrder Bytes := default

structure Packet where
  dst : Bytes
  payload : Bytes
  deriving DecidableEq

def addCandidate (candidates : List Bytes) (addr : Bytes) : List Bytes :=
  if addr ∈ candidates then candidates else candidates ++ [addr]

def pickPeers (shuffle : VisitOrder Bytes) (addrs : List Bytes) (k : ℕ) : List Bytes :=
  (shuffle.visit 0 addrs).take k

lemma addr_mergeOne (m : Members) (r : Node) (now : ℕ) :
    (m.mergeOne r now).own.addr = m.own.addr := by
  have hself := (m.mergeOne r now).node_self
  rw [Members.self_mergeOne, Members.node_mergeOne, m.node_self] at hself
  split_ifs at hself with hr
  · simp only [Members.news, if_pos hr] at hself
    split_ifs at hself
    · have haddr := congrArg Node.addr (Option.some.inj hself)
      exact haddr.symm
    · have haddr := congrArg Node.addr (Option.some.inj hself)
      exact haddr.symm
  · exact congrArg Node.addr (Option.some.inj hself).symm

lemma addr_merge (m : Members) (remote : List Node) (now : ℕ) :
    (m.merge remote now).own.addr = m.own.addr := by
  unfold Members.merge
  induction remote generalizing m with
  | nil => rfl
  | cons r remote ih => rw [List.foldl_cons, ih, addr_mergeOne]

namespace Gossiper

/-- A node that is started knows only itself. -/
def boot (f : Flags) (now : ℕ) : Gossiper where
  flags := f
  members := newMembers ⟨f.id, f.addr, alive, 1⟩ now
  self_eq := rfl
  addr_eq := by
    rw [Members.own_eq (n := ⟨f.id, f.addr, alive, 1⟩)]
    simp [newMembers, Members.node]

/-- The beginning of `round`: `Bump` and `DetectFailures`. -/
def heartbeat (g : Gossiper) (now : ℕ) : Gossiper where
  flags := g.flags
  members := (g.members.bump now).detectFailures now g.flags.failTimeout
  self_eq := g.self_eq
  addr_eq := by
    rw [Members.own_detectFailures, Members.own_bump]
    exact g.addr_eq

/-- The addresses of the alive peers and the seeds, each once. -/
def candidates (g : Gossiper) (o : VisitOrder (Bytes × Entry)) : List Bytes :=
  let peers := (g.members.aliveNodes o).filter fun n => n.id ≠ g.members.own.id
  (peers.map Node.addr ++ g.flags.seeds).foldl addCandidate []

/-- The datagram with the roster, if it can be encoded and written. -/
def payload (g : Gossiper) (o : VisitOrder (Bytes × Entry)) : Option Bytes :=
  match marshal (g.members.snapshot o) with
  | .ok p => if p.length ≤ maxDatagram then some p else none
  | .error _ => none

/-- The end of `round`. -/
def sent (resolve : Bytes → Option Bytes) (g : Gossiper) (c : Choices) : List Packet :=
  match g.payload c.snapshot with
  | none => []
  | some p =>
    ((pickPeers c.shuffle (g.candidates c.alive) g.flags.fanout).filterMap resolve).map
      fun dst => ⟨dst, p⟩

def merge (g : Gossiper) (nodes : List Node) (now : ℕ) : Gossiper where
  flags := g.flags
  members := g.members.merge nodes now
  self_eq := (Members.self_merge _ _ _).trans g.self_eq
  addr_eq := (addr_merge _ _ _).trans g.addr_eq

/-- One iteration of `receiveLoop`. -/
def receive (g : Gossiper) (p : Bytes) (now : ℕ) : Gossiper :=
  match unmarshal p with
  | .ok nodes => g.merge nodes now
  | .error _ => g

end Gossiper

/-! ### The network -/

structure Network where
  now : ℕ := 0
  running : ExtTreeMap Bytes Gossiper := ∅
  packets : List Packet := []

inductive Event
  | start (f : Flags) (now : ℕ)
  | stop (id : Bytes)
  | round (id : Bytes) (now : ℕ) (c : Choices)
  | deliver (id : Bytes) (i : ℕ) (now : ℕ)

section

-- the socket address that an address stands for (`net.ResolveUDPAddr`)
variable (resolve : Bytes → Option Bytes)

/-- A node binds an address that nobody else has bound, and names it by the bound address
itself. -/
def Network.step (s : Network) : Event → Option Network
  | .start f now =>
    if s.now ≤ now ∧ f.id ∉ s.running ∧ resolve f.addr = some f.addr ∧
        ∀ g ∈ s.running.values, g.flags.addr ≠ f.addr then
      some { s with now, running := s.running.insert f.id (.boot f now) }
    else none
  | .stop id => if id ∈ s.running then some { s with running := s.running.erase id } else none
  | .round id now c =>
    match s.running[id]? with
    | none => none
    | some g =>
      if s.now ≤ now then
        let g := g.heartbeat now
        some ⟨now, s.running.insert id g, s.packets ++ g.sent resolve c⟩
      else none
  | .deliver id i now =>
    match s.running[id]?, s.packets[i]? with
    | some g, some p =>
      if s.now ≤ now ∧ p.dst = g.flags.addr then
        some { s with now, running := s.running.insert id (g.receive p.payload now) }
      else none
    | _, _ => none

/-! ### What a round sends -/

variable {resolve}

lemma mem_foldl_addCandidate {l acc : List Bytes} {a : Bytes} :
    a ∈ l.foldl addCandidate acc ↔ a ∈ acc ∨ a ∈ l := by
  induction l generalizing acc with
  | nil => simp
  | cons b l ih =>
    have hone : a ∈ addCandidate acc b ↔ a ∈ acc ∨ a = b := by
      unfold addCandidate
      split_ifs with hb
      · constructor
        · exact .inl
        · rintro (ha | rfl)
          · exact ha
          · exact hb
      · simp
    rw [List.foldl_cons, ih, hone, List.mem_cons, or_assoc]

lemma Gossiper.mem_candidates {g : Gossiper} {o : VisitOrder (Bytes × Entry)} {a : Bytes} :
    a ∈ g.candidates o ↔
      (∃ r, g.members.node r.id = some r ∧ r.state = alive ∧ r.id ≠ g.flags.id ∧ r.addr = a) ∨
      a ∈ g.flags.seeds := by
  simp only [Gossiper.candidates, mem_foldl_addCandidate, List.not_mem_nil, false_or,
    List.mem_append, List.mem_map, List.mem_filter, Members.aliveNodes, Members.mem_snapshot,
    Members.own_id, g.self_eq, decide_eq_true_eq, and_assoc]

lemma Gossiper.unmarshal_payload {g : Gossiper} {o : VisitOrder (Bytes × Entry)} {p : Bytes}
    (h : g.payload o = some p) : unmarshal p = .ok (g.members.snapshot o) := by
  unfold Gossiper.payload at h
  split at h
  · next q hq =>
    split_ifs at h
    cases h
    exact unmarshal_marshal hq
  · cases h

lemma Gossiper.of_mem_sent {g : Gossiper} {c : Choices} {p : Packet} (h : p ∈ g.sent resolve c) :
    unmarshal p.payload = .ok (g.members.snapshot c.snapshot) ∧
      ∃ a ∈ g.candidates c.alive, resolve a = some p.dst := by
  unfold Gossiper.sent at h
  split at h
  · cases h
  · next q hq =>
    obtain ⟨dst, hdst, rfl⟩ := List.mem_map.mp h
    obtain ⟨a, ha, hres⟩ := List.mem_filterMap.mp hdst
    have hpick : a ∈ g.candidates c.alive := by
      rw [← c.shuffle.mem_visit 0]
      exact List.mem_of_mem_take ha
    exact ⟨unmarshal_payload hq, a, hpick, hres⟩

lemma Gossiper.flags_receive (g : Gossiper) (p : Bytes) (now : ℕ) :
    (g.receive p now).flags = g.flags := by
  unfold Gossiper.receive
  split <;> rfl

/-! ### How the network moves -/

lemma step_round {s t : Network} {id : Bytes} {now : ℕ} {c : Choices}
    (h : s.step resolve (.round id now c) = some t) :
    ∃ g, s.running[id]? = some g ∧
      t = ⟨now, s.running.insert id (g.heartbeat now),
        s.packets ++ (g.heartbeat now).sent resolve c⟩ := by
  simp only [Network.step] at h
  split at h
  · cases h
  · next g hg =>
    split_ifs at h
    cases h
    exact ⟨g, hg, rfl⟩

lemma step_deliver {s t : Network} {id : Bytes} {i now : ℕ}
    (h : s.step resolve (.deliver id i now) = some t) :
    ∃ g p, s.running[id]? = some g ∧ p ∈ s.packets ∧ p.dst = g.flags.addr ∧
      t = { s with now, running := s.running.insert id (g.receive p.payload now) } := by
  simp only [Network.step] at h
  split at h
  · next g p hg hp =>
    split_ifs at h with hok
    cases h
    exact ⟨g, p, hg, List.mem_of_getElem? hp, hok.2, rfl⟩
  · cases h

lemma getElem?_insert_running (r : ExtTreeMap Bytes Gossiper) (id k : Bytes) (g : Gossiper) :
    (r.insert id g)[k]? = if id = k then some g else r[k]? := by
  simp only [ExtTreeMap.getElem?_insert, LawfulEqOrd.compare_eq_iff_eq]

lemma forall_insert_running {P : Bytes → Gossiper → Prop} {r : ExtTreeMap Bytes Gossiper}
    (h : ∀ (k : Bytes) g, r[k]? = some g → P k g) {id : Bytes} {g : Gossiper} (hg : P id g)
    (k : Bytes) (g' : Gossiper) (hg' : (r.insert id g)[k]? = some g') : P k g' := by
  rw [getElem?_insert_running] at hg'
  split_ifs at hg' with hk
  · cases hg'
    exact hk ▸ hg
  · exact h k g' hg'

end

end Kyria.Gossip
