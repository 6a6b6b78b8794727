import Kyria.Gossip.Restart
import Kyria.Lib.Spread

/-!
Who is held for dead, and by whom (`Members.DetectFailures`).

A node gives up on another one that it has heard nothing new about for its timeout, and its claim
travels with its roster. Three things follow for a network in which nodes start, stop and come back
at any time and packets are lost, delayed and repeated: a claim of death goes back to such a
silence; a node that has stopped is given up on; and a node whose heartbeat gets through is held for
alive by everyone it has reached.
-/

namespace Kyria.Gossip

open Std (ExtTreeMap LawfulEqOrd)
open Kyria.Lib.Cursor Kyria.Lib.MapOrder Kyria.Lib.Runs Kyria.Lib.Spread
open Kyria.Membership Kyria.Time

variable {resolve : Bytes → Option Bytes} {s t u v : Network} {x y : Bytes} {g g' : Gossiper}

/-! ### What is said of a node -/

/-- The records in the packets sent so far. -/
def inFlight (s : Network) : Set Node :=
  { r | ∃ p ∈ s.packets, ∃ nodes, unmarshal p.payload = .ok nodes ∧ r ∈ nodes }

/-- The record is in the roster of a running node or in a packet. -/
def Says (s : Network) (r : Node) : Prop :=
  (∃ (y : Bytes) (g : Gossiper), s.running[y]? = some g ∧ g.members.node r.id = some r) ∨
    r ∈ inFlight s

/-- `n` is what record `r` makes of entry `e`: as fresh and as dead as `r`, and more so than `e`. -/
structure Fresher (e : Option Entry) (r n : Node) : Prop where
  id : n.id = r.id
  incarnation : n.incarnation = r.incarnation
  state : n.state = r.state
  above : ∀ l, e = some l → l.node.incarnation < n.incarnation ∨
    l.node.incarnation = n.incarnation ∧ l.node.state < n.state

lemma fresher_of_news {self : Bytes} {e : Option Entry} {r n : Node} (hr : r.id ≠ self)
    (he : ∀ l, e = some l → l.node.id = r.id)
    (h : Members.news self (e.map Entry.node) r = some n) : Fresher e r n := by
  rcases e with _ | l
  · cases h
    exact ⟨rfl, rfl, rfl, fun l hl => by cases hl⟩
  · simp only [Members.news, Option.map_some, if_neg hr] at h
    split_ifs at h with hlt htie
    · cases h
      exact ⟨rfl, rfl, rfl, fun l' hl' => by cases hl'; exact .inl hlt⟩
    · cases h
      exact ⟨he l rfl, htie.1.symm, rfl, fun l' hl' => by cases hl'; exact .inr ⟨rfl, htie.2⟩⟩

lemma entry_merge {P : Option Entry → Prop} {m : Members} {nodes : List Node} {now : ℕ}
    (hx : x ≠ m.self)
    (hP : ∀ e r n, r ∈ nodes → r.id = x → Fresher e r n → P e → P (some ⟨n, now⟩))
    (h : P m.nodes[x]?) : P (m.merge nodes now).nodes[x]? := by
  unfold Members.merge
  induction nodes generalizing m with
  | nil => exact h
  | cons r nodes ih =>
    rw [List.foldl_cons]
    refine ih (by rwa [Members.self_mergeOne]) (fun e r' n hr' => hP e r' n (.tail _ hr')) ?_
    rw [Members.getElem?_mergeOne]
    split_ifs with hr
    · cases hn : Members.news m.self (m.node x) r with
      | none => exact h
      | some n =>
        have hid : ∀ l, m.nodes[x]? = some l → l.node.id = r.id := fun l hl =>
          (m.keyed x l hl).trans hr.symm
        exact hP _ r n List.mem_cons_self hr (fresher_of_news (by rwa [hr]) hid hn) h
    · exact h

lemma entry_heartbeat {now : ℕ} (hx : x ≠ g.flags.id) :
    (g.heartbeat now).members.nodes[x]? =
      (g.members.nodes[x]?).map (Members.detect g.flags.id now g.flags.failTimeout) := by
  rw [← g.self_eq] at hx ⊢
  exact (Members.getElem?_detectFailures _ now g.flags.failTimeout x).trans
    (by rw [Members.getElem?_bump_of_ne now hx]; rfl)

lemma detect_cases {self : Bytes} {now : ℕ} {timeout : ℤ} {l : Entry} (h : l.node.id ≠ self) :
    (Members.detect self now timeout l = l ∧
      (l.node.state = alive → sub now l.lastSeen ≤ timeout)) ∨
    (l.node.state = alive ∧ timeout < sub now l.lastSeen ∧
      Members.detect self now timeout l = { l with node := { l.node with state := dead } }) := by
  unfold Members.detect
  rw [if_neg h]
  split_ifs with hlate
  · exact .inr ⟨hlate.1, hlate.2, rfl⟩
  · exact .inl ⟨rfl, fun ha => not_lt.mp fun hlt => hlate ⟨ha, hlt⟩⟩

/-! ### What a step can do -/

variable (resolve) in
/-- The steps, each with what it takes and where it leads. -/
inductive Stepped (s : Network) : Event → Network → Prop
  | start (f : Flags) (now : ℕ) (hnow : s.now ≤ now) (hnew : f.id ∉ s.running) :
      Stepped s (.start f now) { s with now, running := s.running.insert f.id (.boot f now) }
  | stop (k : Bytes) : Stepped s (.stop k) { s with running := s.running.erase k }
  | round (k : Bytes) (now : ℕ) (c : Choices) (g : Gossiper) (hnow : s.now ≤ now)
      (hg : s.running[k]? = some g) :
      Stepped s (.round k now c) ⟨now, s.running.insert k (g.heartbeat now),
        s.packets ++ (g.heartbeat now).sent resolve c⟩
  | deliver (k : Bytes) (i now : ℕ) (g : Gossiper) (p : Packet) (hnow : s.now ≤ now)
      (hg : s.running[k]? = some g) (hp : s.packets[i]? = some p) :
      Stepped s (.deliver k i now)
        { s with now, running := s.running.insert k (g.receive p.payload now) }

lemma stepped {ev : Event} (h : s.step resolve ev = some t) : Stepped resolve s ev t := by
  cases ev with
  | start f now =>
    simp only [Network.step] at h
    split_ifs at h with hok
    cases h
    exact .start f now hok.1 hok.2.1
  | stop k =>
    simp only [Network.step] at h
    split_ifs at h
    cases h
    exact .stop k
  | round k now c =>
    simp only [Network.step] at h
    split at h
    · cases h
    · next g hg =>
      split_ifs at h with hnow
      cases h
      exact .round k now c g hnow hg
  | deliver k i now =>
    simp only [Network.step] at h
    split at h
    · next g p hg hp =>
      split_ifs at h with hok
      cases h
      exact .deliver k i now g p hok.1 hg hp
    · cases h

lemma step_now {ev : Event} (h : s.step resolve ev = some t) : s.now ≤ t.now := by
  cases stepped h with
  | stop k => exact le_rfl
  | start _ _ hnow => exact hnow
  | round _ _ _ _ hnow => exact hnow
  | deliver _ _ _ _ _ hnow => exact hnow

lemma step_node {ev : Event} (h : s.step resolve ev = some t) (hg : t.running[y]? = some g') :
    (∃ f now, ev = .start f now ∧ f.id = y ∧ f.id ∉ s.running ∧ g' = .boot f now) ∨
    s.running[y]? = some g' ∨
    (∃ g now c, ev = .round y now c ∧ s.running[y]? = some g ∧ t.now = now ∧
      g' = g.heartbeat now) ∨
    ∃ g i now p, ev = .deliver y i now ∧ s.running[y]? = some g ∧ s.packets[i]? = some p ∧
      t.now = now ∧ g' = g.receive p.payload now := by
  cases stepped h with
  | stop k =>
    rw [ExtTreeMap.getElem?_erase] at hg
    split_ifs at hg
    exact .inr (.inl hg)
  | start f now _ hnew =>
    rw [getElem?_insert_running] at hg
    split_ifs at hg with hy
    · cases hg
      exact .inl ⟨f, now, rfl, hy, hnew, rfl⟩
    · exact .inr (.inl hg)
  | round k now c g _ hk =>
    rw [getElem?_insert_running] at hg
    split_ifs at hg with hy
    · cases hg
      subst hy
      exact .inr (.inr (.inl ⟨g, now, c, rfl, hk, rfl, rfl⟩))
    · exact .inr (.inl hg)
  | deliver k i now g p _ hk hp =>
    rw [getElem?_insert_running] at hg
    split_ifs at hg with hy
    · cases hg
      subst hy
      exact .inr (.inr (.inr ⟨g, i, now, p, rfl, hk, hp, rfl, rfl⟩))
    · exact .inr (.inl hg)

lemma step_runs {ev : Event} (h : s.step resolve ev = some t) (hg : s.running[y]? = some g)
    (hstop : ev ≠ .stop y) : ∃ g', t.running[y]? = some g' := by
  have hinsert : ∀ (k : Bytes) (a : Gossiper), ∃ g', (s.running.insert k a)[y]? = some g' := by
    intro k a
    rw [getElem?_insert_running]
    split_ifs
    · exact ⟨a, rfl⟩
    · exact ⟨g, hg⟩
  cases stepped h with
  | start f => exact hinsert f.id _
  | round k => exact hinsert k _
  | deliver k => exact hinsert k _
  | stop k =>
    refine ⟨g, ?_⟩
    rw [ExtTreeMap.getElem?_erase, if_neg, hg]
    exact fun hk => hstop (by rw [LawfulEqOrd.compare_eq_iff_eq.mp hk])

lemma step_packets {ev : Event} (h : s.step resolve ev = some t) {q : Packet}
    (hq : q ∈ t.packets) :
    q ∈ s.packets ∨ ∃ (y : Bytes) (g : Gossiper) (o : _), t.running[y]? = some g ∧
      unmarshal q.payload = .ok (g.members.snapshot o) := by
  cases stepped h with
  | start => exact .inl hq
  | stop => exact .inl hq
  | deliver => exact .inl hq
  | round k now c g =>
    rcases List.mem_append.mp hq with hq | hq
    · exact .inl hq
    · exact .inr ⟨k, g.heartbeat now, c.snapshot, ExtTreeMap.getElem?_insert_self,
        (Gossiper.of_mem_sent hq).1⟩

/-- The node gives up on `x`, which it holds for alive at incarnation `i`: it has heard nothing new
about it for longer than its timeout. -/
def GivesUp (g : Gossiper) (now : ℕ) (x : Bytes) (i : UInt64) : Prop :=
  ∃ e : Entry, g.members.nodes[x]? = some e ∧ e.node.incarnation = i ∧ e.node.state = alive ∧
    g.flags.failTimeout < sub now e.lastSeen

/-- The record says what a record of `s` says. -/
def Repeats (s : Network) (r : Node) : Prop :=
  ∃ r', Says s r' ∧ r'.id = r.id ∧ r'.incarnation = r.incarnation ∧ r'.state = r.state

lemma repeats_of_receive (hb : g.flags.id = y) (hg : s.running[y]? = some g) {p : Packet}
    (hp : p ∈ s.packets) {now : ℕ} {r : Node} (hne : r.id ≠ y)
    (hr : (g.receive p.payload now).members.node r.id = some r) : Repeats s r := by
  have hold : ∀ e, g.members.nodes[r.id]? = some e → Repeats s e.node := fun e he =>
    ⟨e.node, .inl ⟨y, g, hg, by rw [g.members.keyed r.id e he, Members.node, he]; rfl⟩, rfl, rfl,
      rfl⟩
  have hentry : ∀ e, (g.receive p.payload now).members.nodes[r.id]? = some e →
      Repeats s e.node := by
    unfold Gossiper.receive
    split
    · next nodes hn =>
      refine entry_merge (P := fun o => ∀ e, o = some e → Repeats s e.node) ?_ ?_ hold
      · rwa [g.self_eq, hb]
      · intro e r' n hr' _ hfresh _ e' he'
        cases he'
        exact ⟨r', .inr ⟨p, hp, nodes, hn, hr'⟩, hfresh.id.symm, hfresh.incarnation.symm,
          hfresh.state.symm⟩
    · exact hold
  obtain ⟨e, he, rfl⟩ := Option.map_eq_some_iff.mp hr
  exact hentry e he

/-- **What a step can say**: what was said before, what a node says of itself, or that a node that
makes a round gives up on another. -/
lemma says_step (hb : Bound resolve t) {ev : Event} (h : s.step resolve ev = some t) {r : Node}
    (hr : Says t r) :
    Repeats s r ∨ (∃ g, t.running[r.id]? = some g ∧ g.members.own = r) ∨
    ∃ y now c g, ev = .round y now c ∧ s.running[y]? = some g ∧ y ≠ r.id ∧
      GivesUp g now r.id r.incarnation := by
  -- a new packet is one of the rosters, so only these matter
  have hroster : ∀ (y : Bytes) (g' : Gossiper), t.running[y]? = some g' →
      g'.members.node r.id = some r →
      Repeats s r ∨ (∃ g, t.running[r.id]? = some g ∧ g.members.own = r) ∨
      ∃ y now c g, ev = .round y now c ∧ s.running[y]? = some g ∧ y ≠ r.id ∧
        GivesUp g now r.id r.incarnation := by
    intro y g' hg' hnode
    obtain ⟨hid, -⟩ := hb y g' hg'
    by_cases hself : r.id = y
    · refine .inr (.inl ⟨g', hself ▸ hg', Members.own_eq ?_⟩)
      rwa [g'.self_eq, hid, ← hself]
    rcases step_node h hg' with ⟨f, now, rfl, rfl, -, rfl⟩ | hg | ⟨g, now, c, rfl, hg, -, rfl⟩ |
      ⟨g, i, now, p, rfl, hg, hp, -, rfl⟩
    · simp [Gossiper.boot, newMembers, Members.node, Ne.symm hself] at hnode
    · exact .inl ⟨r, .inl ⟨y, g', hg, hnode⟩, rfl, rfl, rfl⟩
    · have hid : g.flags.id = y := hid
      obtain ⟨e', he', hr'⟩ := Option.map_eq_some_iff.mp hnode
      rw [entry_heartbeat (hid ▸ hself)] at he'
      obtain ⟨e, he, rfl⟩ := Option.map_eq_some_iff.mp he'
      have hne : e.node.id ≠ g.flags.id := by
        rw [g.members.keyed _ e he, hid]
        exact hself
      rcases detect_cases hne with ⟨hsame, -⟩ | ⟨halive, hlate, hdead⟩
      · rw [hsame] at hr'
        exact .inl ⟨r, .inl ⟨y, g, hg, by rw [Members.node, he, ← hr']; rfl⟩, rfl, rfl, rfl⟩
      · rw [hdead] at hr'
        exact .inr (.inr ⟨y, now, c, g, rfl, hg, Ne.symm hself, e, he, by rw [← hr'], halive,
          hlate⟩)
    · rw [g.flags_receive] at hid
      exact .inl (repeats_of_receive hid hg (List.mem_of_getElem? hp) hself hnode)
  rcases hr with ⟨y, g', hg', hnode⟩ | ⟨p, hp, nodes, hn, hmem⟩
  · exact hroster y g' hg' hnode
  · rcases step_packets h hp with hp | ⟨y, g', o, hg', hsnap⟩
    · exact .inl ⟨r, .inr ⟨p, hp, nodes, hn, hmem⟩, rfl, rfl, rfl⟩
    · rw [hsnap] at hn
      cases hn
      exact hroster y g' hg' (Members.mem_snapshot.mp hmem)

/-! ### Where a claim of death comes from -/

variable (resolve) in
/-- On its way to `s` the network has passed a round in which a node gave up on `x`, which it held
for alive at incarnation `i`. -/
def TimedOut (s : Network) (x : Bytes) (i : UInt64) : Prop :=
  ∃ u v z now c g, Steps (Network.step resolve) (fun _ _ => True) {} u ∧ u.running[z]? = some g ∧
    z ≠ x ∧ GivesUp g now x i ∧ u.step resolve (.round z now c) = some v ∧
    Steps (Network.step resolve) (fun _ _ => True) v s

/-- **A claim of death goes back to a silence.** Wherever it is held or sent that a node is not
alive, some other node has waited for its whole timeout without hearing anything newer about it than
the very incarnation that is claimed dead. -/
theorem death_goes_back_to_silence (hrun : Steps (Network.step resolve) (fun _ _ => True) {} s)
    {r : Node} (hr : Says s r) (hs : r.state ≠ alive) :
    TimedOut resolve s r.id r.incarnation := by
  induction hrun generalizing r with
  | refl =>
    rcases hr with ⟨y, g, hg, -⟩ | ⟨p, hp, -⟩
    · rw [show ({} : Network).running = ∅ from rfl, ExtTreeMap.getElem?_empty] at hg
      cases hg
    · cases hp
  | @tail s t ev hrun _ hstep ih =>
    have hb := bound_of_steps (.tail ev hrun trivial hstep)
    rcases says_step hb hstep hr with ⟨r', hr', hid, hinc, hst⟩ | ⟨g, -, rfl⟩ |
      ⟨y, now, c, g, rfl, hg, hne, hup⟩
    · obtain ⟨u, v, z, now, c, g, hu, hg, hz, hup, hround, hv⟩ := ih hr' (hst ▸ hs)
      exact ⟨u, v, z, now, c, g, hu, hg, hid ▸ hz, hid ▸ hinc ▸ hup, hround,
        .tail ev hv trivial hstep⟩
    · exact absurd g.members.own_state hs
    · exact ⟨s, t, y, now, c, g, hrun, hg, hne, hup, hstep, .refl⟩

lemma defaultFanout_pos : 0 < 3 := by decide

lemma defaultTimeout_pos : (0 : ℤ) < 5 * nanosPerSecond := by decide

/-- A node that is started without flags for its fanout and its timeout. -/
def plain (id addr : Bytes) (seeds : List Bytes) : Flags where
  id := id
  addr := addr
  seeds := seeds
  fanout_pos := defaultFanout_pos
  failTimeout_pos := defaultTimeout_pos

/-- The second node of a cluster is heard of once, and not again. -/
def silent : List Event :=
  [.start (plain [65] [1] []) 0, .start (plain [66] [2] [[1]]) 0, .round [66] 1 {},
    .deliver [65] 0 2, .round [65] (10 * nanosPerSecond) {}]

theorem death_goes_back_to_silence_silent :
    ∃ s, Says s ⟨[66], [2], dead, 2⟩ ∧ TimedOut some s [66] 2 := by
  have hheld : ((exec (Network.step some) (fun _ _ => true) {} silent).bind fun s =>
      s.running[([65] : Bytes)]?.bind fun g => g.members.node [66]) =
        some ⟨[66], [2], dead, 2⟩ := by decide +kernel
  obtain ⟨s, hs, hheld⟩ := Option.bind_eq_some_iff.mp hheld
  obtain ⟨g, hg, hnode⟩ := Option.bind_eq_some_iff.mp hheld
  have hsays : Says s ⟨[66], [2], dead, 2⟩ := .inl ⟨[65], g, hg, hnode⟩
  have hrun : Steps (Network.step some) (fun _ _ => True) {} s :=
    .of_exec_true hs
  exact ⟨s, hsays, death_goes_back_to_silence hrun hsays (by decide)⟩

/-! ### A node that has stopped -/

/-- `x` does not come back, and `y` runs on. -/
def Gone (x y : Bytes) (_ : Network) : Event → Prop
  | .start f _ => f.id ≠ x
  | .stop id => id ≠ y
  | _ => True

/-- No record about `x` is above `b`. -/
def Capped (x : Bytes) (b : UInt64) (s : Network) : Prop :=
  ∀ r, Says s r → r.id = x → r.incarnation ≤ b

/-- `y` holds `x` for alive, at incarnation `i`. -/
def HoldsAlive (s : Network) (y x : Bytes) (i : UInt64) : Prop :=
  ∃ (g : Gossiper) (e : Entry), s.running[y]? = some g ∧ g.members.nodes[x]? = some e ∧
    e.node.state = alive ∧ e.node.incarnation = i

lemma HoldsAlive.says {i : UInt64} (h : HoldsAlive s y x i) :
    ∃ r, Says s r ∧ r.id = x ∧ r.incarnation = i := by
  obtain ⟨g, e, hg, he, -, hi⟩ := h
  have hkey := g.members.keyed x e he
  exact ⟨e.node, .inl ⟨y, g, hg, by rw [hkey, Members.node, he]; rfl⟩, hkey, hi⟩

/-- An entry that a node had about another one, at incarnation `i` and last heard of at `seen`, as
it may be now: there has been news, or it is no longer alive, or nothing has happened. -/
def Aging (i : UInt64) (seen : ℕ) (o : Option Entry) : Prop :=
  ∃ e, o = some e ∧ (i < e.node.incarnation ∨
    e.node.incarnation = i ∧ (e.node.state = alive → e.lastSeen = seen))

lemma aging_merge {i : UInt64} {seen now : ℕ} {nodes : List Node} (hx : x ≠ g.flags.id)
    (h : Aging i seen g.members.nodes[x]?) :
    Aging i seen (g.members.merge nodes now).nodes[x]? := by
  refine entry_merge (by rwa [g.self_eq]) (fun o r n _ _ hfresh ho => ?_) h
  obtain ⟨e, rfl, hage⟩ := ho
  refine ⟨_, rfl, ?_⟩
  rcases hfresh.above e rfl with hlt | ⟨heq, hdeader⟩
  · rcases hage with hage | ⟨hinc, -⟩
    · exact .inl (UInt64.lt_trans hage hlt)
    · exact .inl (hinc ▸ hlt)
  · have hdead : n.state ≠ alive := fun hn => UInt8.not_lt_zero (hn ▸ hdeader)
    rcases hage with hage | ⟨hinc, -⟩
    · exact .inl (heq ▸ hage)
    · exact .inr ⟨heq ▸ hinc, fun hn => absurd hn hdead⟩

lemma aging_heartbeat {i : UInt64} {seen now : ℕ} (hx : x ≠ g.flags.id)
    (h : Aging i seen g.members.nodes[x]?) :
    Aging i seen (g.heartbeat now).members.nodes[x]? := by
  obtain ⟨e, he, hage⟩ := h
  have hne : e.node.id ≠ g.flags.id := by rwa [g.members.keyed x e he]
  rw [entry_heartbeat hx, he]
  refine ⟨_, rfl, ?_⟩
  rcases detect_cases hne with ⟨hsame, -⟩ | ⟨-, -, hdead⟩
  · rwa [hsame]
  · rw [hdead]
    exact hage.imp id fun hinc => ⟨hinc.1, fun hd => absurd hd (by decide : dead ≠ alive)⟩

lemma aging_of_steps {i : UInt64} {seen : ℕ} {ok : Network → Event → Prop}
    (hok : ∀ s ev, ok s ev → ev ≠ .stop y) (hy : g.flags.id = y) (hx : x ≠ y)
    (hg : s.running[y]? = some g) (h : Aging i seen g.members.nodes[x]?)
    (hrun : Steps (Network.step resolve) ok s t) :
    ∃ g', t.running[y]? = some g' ∧ g'.flags = g.flags ∧ Aging i seen g'.members.nodes[x]? := by
  refine hrun.invariant (I := fun t => ∃ g', t.running[y]? = some g' ∧ g'.flags = g.flags ∧
    Aging i seen g'.members.nodes[x]?) ⟨g, hg, rfl, h⟩ ?_
  rintro u ev v ⟨a, ha, hflags, hage⟩ hev hstep
  have hxa : x ≠ a.flags.id := by rwa [hflags, hy]
  obtain ⟨a', ha'⟩ := step_runs hstep ha (hok u ev hev)
  refine ⟨a', ha', ?_⟩
  rcases step_node hstep ha' with ⟨f, now, -, rfl, hnew, -⟩ | hsame | ⟨b, now, c, -, hb, -, rfl⟩ |
    ⟨b, j, now, p, -, hb, -, -, rfl⟩
  · exact absurd (ExtTreeMap.isSome_getElem?_iff_mem.mp (by rw [ha]; rfl)) hnew
  · cases ha.symm.trans hsame
    exact ⟨hflags, hage⟩
  · cases ha.symm.trans hb
    exact ⟨hflags, aging_heartbeat hxa hage⟩
  · cases ha.symm.trans hb
    refine ⟨(a.flags_receive _ _).trans hflags, ?_⟩
    unfold Gossiper.receive
    split
    · exact aging_merge hxa hage
    · exact hage

lemma lastSeen_le (hrun : Steps (Network.step resolve) (fun _ _ => True) {} s)
    (hg : s.running[y]? = some g) (hx : x ≠ y) {e : Entry} (he : g.members.nodes[x]? = some e) :
    e.lastSeen ≤ s.now := by
  induction hrun generalizing g e with
  | refl =>
    rw [show ({} : Network).running = ∅ from rfl, ExtTreeMap.getElem?_empty] at hg
    cases hg
  | @tail s t ev hrun _ hstep ih =>
    have hnow := step_now hstep
    rcases step_node hstep hg with ⟨f, now, -, rfl, -, rfl⟩ | hsame | ⟨a, now, c, -, ha, -, rfl⟩ |
      ⟨a, i, now, p, -, ha, -, rfl, rfl⟩
    · simp [Gossiper.boot, newMembers, Ne.symm hx] at he
    · exact (ih hsame he).trans hnow
    · have hid := (bound_of_steps hrun y a ha).1
      rw [entry_heartbeat (by rwa [hid])] at he
      obtain ⟨l, hl, rfl⟩ := Option.map_eq_some_iff.mp he
      have hseen : (Members.detect a.flags.id now a.flags.failTimeout l).lastSeen = l.lastSeen := by
        unfold Members.detect
        split_ifs <;> rfl
      exact hseen ▸ (ih ha hl).trans hnow
    · have hid := (bound_of_steps hrun y a ha).1
      have hold : ∀ l, a.members.nodes[x]? = some l → l.lastSeen ≤ t.now := fun l hl =>
        (ih ha hl).trans hnow
      have hnew : ∀ l, (a.receive p.payload t.now).members.nodes[x]? = some l →
          l.lastSeen ≤ t.now := by
        unfold Gossiper.receive
        split
        · refine entry_merge (P := fun o => ∀ l, o = some l → l.lastSeen ≤ t.now)
            (by rwa [a.self_eq, hid]) (fun o r n _ _ _ _ l hl => ?_) hold
          cases hl
          exact le_rfl
        · exact hold
      exact hnew e he

lemma capped_of_steps {b : UInt64} (hrun : Steps (Network.step resolve) (fun _ _ => True) {} s)
    (hx : x ∉ s.running) (hcap : Capped x b s)
    (h : Steps (Network.step resolve) (Gone x y) s t) : x ∉ t.running ∧ Capped x b t := by
  induction h with
  | refl => exact ⟨hx, hcap⟩
  | @tail u w ev h hok hstep ih =>
    obtain ⟨hxu, hcapu⟩ := ih
    have hb := bound_of_steps (.tail ev (hrun.trans (h.mono fun _ _ _ => trivial)) trivial hstep)
    have hxw : x ∉ w.running := by
      intro hmem
      obtain ⟨a, ha⟩ := Option.isSome_iff_exists.mp (ExtTreeMap.isSome_getElem?_iff_mem.mpr hmem)
      have hgone : ∀ a, u.running[x]? ≠ some a := fun a ha =>
        hxu (ExtTreeMap.isSome_getElem?_iff_mem.mp (by rw [ha]; rfl))
      rcases step_node hstep ha with ⟨f, now, rfl, hf, -⟩ | hsame | ⟨a, now, c, -, ha, -⟩ |
        ⟨a, i, now, p, -, ha, -⟩
      · exact hok hf
      · exact hgone _ hsame
      · exact hgone _ ha
      · exact hgone _ ha
    refine ⟨hxw, fun r hr hid => ?_⟩
    rcases says_step hb hstep hr with ⟨r', hr', hid', hinc, -⟩ | ⟨a, ha, -⟩ |
      ⟨z, now, c, a, -, ha, -, e, he, hinc, -⟩
    · exact hinc ▸ hcapu r' hr' (hid'.trans hid)
    · exact absurd (ExtTreeMap.isSome_getElem?_iff_mem.mp (by rw [← hid, ha]; rfl)) hxw
    · have hkey := a.members.keyed _ e he
      rw [← hinc]
      exact hcapu e.node (.inl ⟨z, a, ha, by rw [hkey, Members.node, he]; rfl⟩) (hkey.trans hid)

variable (resolve) in
/-- From `s` to `t`, where `x` does not come back and `y` runs on, more than the timeout of `y`
passes; at the end `y` makes a round, and holds `x` for alive still. -/
def StillAlive (x y : Bytes) (s t : Network) : Prop :=
  ∃ u now c g, Steps (Network.step resolve) (Gone x y) s u ∧ u.running[y]? = some g ∧
    u.step resolve (.round y now c) = some t ∧ g.flags.failTimeout < sub t.now s.now ∧
    ∃ i, HoldsAlive t y x i

lemma StillAlive.news {i : UInt64} (hrun : Steps (Network.step resolve) (fun _ _ => True) {} s)
    (hx : x ∉ s.running) (hi : HoldsAlive s y x i) (h : StillAlive resolve x y s t) :
    ∃ j, HoldsAlive t y x j ∧ i < j := by
  obtain ⟨g, e, hg, he, halive, rfl⟩ := hi
  obtain ⟨u, now, c, a, hsteps, ha, hround, hlate, j, hj⟩ := h
  have hxy : x ≠ y := by
    rintro rfl
    exact hx (ExtTreeMap.isSome_getElem?_iff_mem.mp (by rw [hg]; rfl))
  have hid := (bound_of_steps hrun y g hg).1
  obtain ⟨a', ha', hflags, hage⟩ := aging_of_steps
    (fun _ ev hok => by rintro rfl; exact hok rfl) hid hxy hg
    ⟨e, he, .inr ⟨rfl, fun _ => rfl⟩⟩ hsteps
  cases ha.symm.trans ha'
  refine ⟨j, hj, ?_⟩
  obtain ⟨b, e', hb, he', halive', rfl⟩ := hj
  obtain ⟨a₀, ha₀, rfl⟩ := step_round hround
  cases ha.symm.trans ha₀
  rw [getElem?_insert_running, if_pos rfl, Option.some.injEq] at hb
  subst hb
  have hxa : x ≠ a.flags.id := by rwa [hflags, hid]
  obtain ⟨l, hl, hlage⟩ := hage
  rw [entry_heartbeat hxa, hl, Option.map_some, Option.some.injEq] at he'
  subst he'
  rcases detect_cases (by rwa [a.members.keyed x l hl]) with ⟨hsame, hseen⟩ | ⟨-, -, hdead⟩
  · rw [hsame] at halive' ⊢
    rcases hlage with hlt | ⟨-, hstale⟩
    · exact hlt
    · -- nothing new since `s`, so the timeout has passed
      have hle := lastSeen_le hrun hg hxy he
      have hrecent := hseen halive'
      rw [hstale halive'] at hrecent
      have : sub now s.now ≤ sub now e.lastSeen := by
        unfold sub
        omega
      exact absurd hlate (not_lt.mpr (this.trans hrecent))
  · rw [hdead] at halive'
    exact absurd halive' (by decide : dead ≠ alive)

/-- **A node that has stopped is given up on.** Let `x` not run any more, with no record about it
above incarnation `b`, and let `y` hold it for alive, at incarnation `i`. Then of the rounds that
`y` makes, each more than its timeout after the last, at most `b - i` leave it with `x` alive:
whatever old packets still come in, in whatever order. -/
theorem stopped_node_given_up {b i : UInt64}
    (hrun : Steps (Network.step resolve) (fun _ _ => True) {} s) (hx : x ∉ s.running)
    (hcap : Capped x b s) (hi : HoldsAlive s y x i) (rounds : List Network)
    (h : List.IsChain (StillAlive resolve x y) (s :: rounds)) :
    rounds.length ≤ b.toNat - i.toNat := by
  induction rounds generalizing s i with
  | nil => exact Nat.zero_le _
  | cons t rounds ih =>
    obtain ⟨hst, hrest⟩ := List.isChain_cons_cons.mp h
    obtain ⟨j, hj, hlt⟩ := hst.news hrun hx hi
    obtain ⟨u, now, c, g, hsteps, -, hround, -⟩ := hst
    have hsteps : Steps (Network.step resolve) (Gone x y) s t :=
      .tail (.round y now c) hsteps trivial hround
    obtain ⟨hxt, hcapt⟩ := capped_of_steps hrun hx hcap hsteps
    obtain ⟨r, hr, hid, hinc⟩ := hj.says
    have hjb := UInt64.le_iff_toNat_le.mp (hinc ▸ hcapt r hr hid)
    have hij := UInt64.lt_iff_toNat_lt.mp hlt
    have hlen := ih (hrun.trans (hsteps.mono fun _ _ _ => trivial)) hxt hcapt hj hrest
    rw [List.length_cons]
    omega

/-- `Capped`, as a test. -/
def capped (x : Bytes) (b : UInt64) (s : Network) : Bool :=
  s.running.toList.all (fun e => (e.2.members.node x).all fun r => r.incarnation ≤ b) &&
  s.packets.all fun p =>
    match unmarshal p.payload with
    | .ok nodes => nodes.all fun r => r.id ≠ x || r.incarnation ≤ b
    | .error _ => true

lemma capped_of_test {b : UInt64} (h : capped x b s = true) : Capped x b s := by
  simp only [capped, Bool.and_eq_true, List.all_eq_true] at h
  rintro r (⟨y, g, hg, hr⟩ | ⟨p, hp, nodes, hn, hr⟩) rfl
  · have hheld := h.1 (y, g) (ExtTreeMap.mem_toList_iff_getElem?_eq_some.mpr hg)
    simpa [hr] using hheld
  · have hsent := h.2 p hp
    simp only [hn, List.all_eq_true] at hsent
    simpa using hsent r hr

/-- The second node stops after two rounds; the packet of the first has arrived. -/
def stopping : List Event :=
  [.start (plain [65] [1] []) 0, .start (plain [66] [2] [[1]]) 0, .round [66] 1 {},
    .round [66] 2 {}, .deliver [65] 0 3, .stop [66]]

/-- The packet of the second arrives late, and makes one round more. -/
theorem stopped_node_given_up_late :
    ∃ s t, HoldsAlive s [65] [66] 2 ∧ StillAlive some [66] [65] s t ∧
      [t].length ≤ (3 : UInt64).toNat - (2 : UInt64).toNat := by
  have hfacts : (exec (Network.step some) (fun _ _ => true) {} stopping).any (fun s =>
      s.now = 3 ∧ capped [66] 3 s ∧ [66] ∉ s.running ∧
      (s.running[([65] : Bytes)]?.bind fun g => g.members.node [66]) = some ⟨[66], [2], alive, 2⟩ ∧
      (s.step some (.deliver [65] 1 (6 * nanosPerSecond))).any (fun u =>
        (u.running[([65] : Bytes)]?.any fun g =>
          g.flags.failTimeout = 5000000000) ∧
        (u.step some (.round [65] (6 * nanosPerSecond) {})).any fun t =>
          t.now = 6 * nanosPerSecond ∧ (t.running[([65] : Bytes)]?.bind fun g =>
            g.members.node [66]) = some ⟨[66], [2], alive, 3⟩)) = true := by decide +kernel
  simp only [Option.any_eq_true, decide_eq_true_eq] at hfacts
  obtain ⟨s, hs, hnow, hcap, hx, hnode, u, hu, ⟨g, hg, htimeout⟩, t, ht, hlater, hnode'⟩ := hfacts
  have hrun : Steps (Network.step some) (fun _ _ => True) {} s :=
    .of_exec_true hs
  have holds : ∀ {w : Network} {i : UInt64}, (w.running[([65] : Bytes)]?.bind fun g =>
      g.members.node [66]) = some ⟨[66], [2], alive, i⟩ → HoldsAlive w [65] [66] i := by
    intro w i h
    obtain ⟨a, ha, h⟩ := Option.bind_eq_some_iff.mp h
    obtain ⟨e, he, hnode⟩ := Option.map_eq_some_iff.mp h
    exact ⟨a, e, ha, he, by rw [hnode], by rw [hnode]⟩
  have hstill : StillAlive some [66] [65] s t := by
    refine ⟨u, 6 * nanosPerSecond, {}, g, .tail (.deliver [65] 1 (6 * nanosPerSecond)) .refl trivial
      hu, hg, ht, ?_, 3, holds hnode'⟩
    rw [htimeout, hlater, hnow]
    decide
  exact ⟨s, t, holds hnode, hstill, stopped_node_given_up hrun hx (capped_of_test hcap)
    (holds hnode) [t] (List.isChain_pair.mpr hstill)⟩

/-! ### A node that is heard of -/

section Heartbeat

variable {k : UInt64}

/-- `x` runs on and its counter has room, and nobody that has heard of it at incarnation `k` or
later gives up on it. -/
def Patient (x : Bytes) (k : UInt64) (s : Network) : Event → Prop
  | .stop id => id ≠ x
  | .round id now _ => ∀ g : Gossiper, s.running[id]? = some g →
      (id = x → g.members.own.incarnation.toNat < 2 ^ 64 - 1) ∧
      (id ≠ x → ∀ i, k ≤ i → ¬ GivesUp g now x i)
  | _ => True

variable (resolve) in
/-- A node that receives a packet is told what its sender knew when it began the round that sent
it. -/
def gossip (x : Bytes) (k : UInt64) : Talk Network Event Bytes where
  step := Network.step resolve
  ok := Patient x k
  keeps _ ev p := ev ≠ .stop p
  tells v r t ev p := ∃ now c w i later, Patient x k v (.round r now c) ∧
    v.step resolve (.round r now c) = some w ∧ Steps (Network.step resolve) (Patient x k) w t ∧
    v.packets.length ≤ i ∧ i < w.packets.length ∧ ev = .deliver p i later

variable (resolve) in
/-- `x` has reached incarnation `k`, and outbid every claim that it is not alive. -/
structure Outbidding (x : Bytes) (k : UInt64) (s : Network) : Prop where
  reached : Steps (Network.step resolve) (fun _ _ => True) {} s
  runs : ∃ g, s.running[x]? = some g ∧ k ≤ g.members.own.incarnation
  claims : ∀ r, Says s r → r.id = x → r.state ≠ alive → r.incarnation < k

/-- The node has heard of `x` at incarnation `k` or later. -/
def HasHeard (x : Bytes) (k : UInt64) (s : Network) (p : Bytes) : Prop :=
  ∃ (g : Gossiper) (r : Node), s.running[p]? = some g ∧ g.members.node x = some r ∧
    k ≤ r.incarnation

lemma Outbidding.own_receive (h : Outbidding resolve x k s) (hg : s.running[x]? = some g)
    (hk : k ≤ g.members.own.incarnation) {p : Packet} (hp : p ∈ s.packets) (now : ℕ) :
    (g.receive p.payload now).members.own = g.members.own := by
  unfold Gossiper.receive
  split
  · next nodes hn =>
    refine own_merge_of_untold fun r hr hid => ?_
    by_cases hs : r.state = alive
    · exact .inl hs
    · refine .inr (UInt64.lt_of_lt_of_le (h.claims r (.inr ⟨p, hp, nodes, hn, hr⟩) ?_ hs) hk)
      rw [hid, g.self_eq]
      exact (bound_of_steps h.reached x g hg).1
  · rfl

lemma Outbidding.step (h : Outbidding resolve x k s) {ev : Event} (hok : Patient x k s ev)
    (hstep : s.step resolve ev = some t) : Outbidding resolve x k t := by
  have hreached : Steps (Network.step resolve) (fun _ _ => True) {} t :=
    .tail ev h.reached trivial hstep
  refine ⟨hreached, ?_, fun r hr hid hs => ?_⟩
  · obtain ⟨g, hg, hk⟩ := h.runs
    obtain ⟨g', hg'⟩ := step_runs hstep hg (by rintro rfl; exact hok rfl)
    refine ⟨g', hg', ?_⟩
    rcases step_node hstep hg' with
      ⟨f, now, -, rfl, hnew, -⟩ | hsame | ⟨a, now, c, rfl, ha, -, rfl⟩ |
      ⟨a, i, now, p, -, ha, hp, -, rfl⟩
    · exact absurd (ExtTreeMap.isSome_getElem?_iff_mem.mp (by rw [hg]; rfl)) hnew
    · cases hg.symm.trans hsame
      exact hk
    · cases hg.symm.trans ha
      rw [incarnation_heartbeat]
      exact UInt64.le_trans hk (UInt64.le_of_lt (lt_succ_of_lt_max ((hok g hg).1 rfl)))
    · cases hg.symm.trans ha
      rw [h.own_receive hg hk (List.mem_of_getElem? hp)]
      exact hk
  · rcases says_step (bound_of_steps hreached) hstep hr with ⟨r', hr', hid', hinc, hst⟩ |
      ⟨g, -, rfl⟩ | ⟨y, now, c, g, rfl, hg, hne, hup⟩
    · exact hinc ▸ h.claims r' hr' (hid'.trans hid) (hst ▸ hs)
    · exact absurd g.members.own_state hs
    · subst hid
      exact UInt64.not_le.mp fun hle => (hok g hg).2 hne r.incarnation hle hup

lemma Outbidding.hasHeard_self (h : Outbidding resolve x k s) : HasHeard x k s x := by
  obtain ⟨g, hg, hk⟩ := h.runs
  refine ⟨g, g.members.own, hg, ?_, hk⟩
  rw [← g.members.node_self, g.self_eq, (bound_of_steps h.reached x g hg).1]

lemma HasHeard.stay {p : Bytes} (hs : Outbidding resolve x k s) (ht : Outbidding resolve x k t)
    {ev : Event} (hkeeps : ev ≠ .stop p) (hstep : s.step resolve ev = some t)
    (h : HasHeard x k s p) : HasHeard x k t p := by
  by_cases hp : p = x
  · exact hp ▸ ht.hasHeard_self
  · obtain ⟨g, r, hg, hr, hk⟩ := h
    obtain ⟨e, he, rfl⟩ := Option.map_eq_some_iff.mp hr
    have hrun : Steps (Network.step resolve) (fun _ ev => ev ≠ .stop p) s t :=
      .tail ev .refl hkeeps hstep
    obtain ⟨g', hg', -, e', he', hage⟩ := aging_of_steps (fun _ _ h => h)
      (bound_of_steps hs.reached p g hg).1 (Ne.symm hp) hg ⟨e, he, .inr ⟨rfl, fun _ => rfl⟩⟩ hrun
    refine ⟨g', e'.node, hg', by rw [Members.node, he']; rfl, ?_⟩
    rcases hage with hlt | ⟨heq, -⟩
    · exact UInt64.le_trans hk (UInt64.le_of_lt hlt)
    · exact heq ▸ hk

lemma le_of_merge_snapshot {m a : Members} {r : Node} (o : VisitOrder (Bytes × Entry)) (now : ℕ)
    (hx : x ≠ m.self) (hr : a.node x = some r) :
    ∃ r', (m.merge (a.snapshot o) now).node x = some r' ∧ r.incarnation ≤ r'.incarnation := by
  have hid : r.id ≠ m.self := by rwa [Members.id_of_node hr]
  rw [Members.node_merge_snapshot, hr, Option.bind_some]
  cases hl : m.node x with
  | none => exact ⟨r, rfl, UInt64.le_refl _⟩
  | some l =>
    simp only [Members.news, if_neg hid]
    split_ifs with hlt htie
    · exact ⟨r, rfl, UInt64.le_refl _⟩
    · exact ⟨_, rfl, UInt64.le_of_eq htie.1⟩
    · exact ⟨l, rfl, UInt64.not_lt.mp hlt⟩

lemma packets_isPrefix {ok : Network → Event → Prop}
    (h : Steps (Network.step resolve) ok s t) : s.packets <+: t.packets := by
  refine h.invariant (I := fun t => s.packets <+: t.packets) List.prefix_rfl ?_
  intro u ev w hu _ hstep
  cases stepped hstep with
  | round => exact hu.trans (List.prefix_append _ _)
  | start => exact hu
  | stop => exact hu
  | deliver => exact hu

lemma HasHeard.hear {r p : Bytes} {ev : Event} (hv : Outbidding resolve x k v)
    (ht : Outbidding resolve x k t) (hu : Outbidding resolve x k u)
    (htells : (gossip resolve x k).tells v r t ev p) (hstep : t.step resolve ev = some u)
    (h : HasHeard x k v r) : HasHeard x k u p := by
  by_cases hp : p = x
  · exact hp ▸ hu.hasHeard_self
  obtain ⟨now, c, w, i, later, hok, hround, hrest, hle, hlt, rfl⟩ := htells
  have hw : HasHeard x k w r := h.stay hv (hv.step hok hround) (by simp) hround
  obtain ⟨g, hg, rfl⟩ := step_round hround
  obtain ⟨a, n, ha, hn, hk⟩ := hw
  rw [getElem?_insert_running, if_pos rfl, Option.some.injEq] at ha
  subst ha
  -- the packet is one of those the round has sent
  obtain ⟨q, hq⟩ : ∃ q, (v.packets ++ (g.heartbeat now).sent resolve c)[i]? = some q :=
    Option.isSome_iff_exists.mp (by simpa using hlt)
  have hsent : q ∈ (g.heartbeat now).sent resolve c := by
    rw [List.getElem?_append_right hle] at hq
    exact List.mem_of_getElem? hq
  have hqt : t.packets[i]? = some q := by
    obtain ⟨rest, hrest⟩ := packets_isPrefix hrest
    rw [← hrest, List.getElem?_append_left (by simpa using hlt)]
    exact hq
  cases stepped hstep with
  | deliver _ _ _ b q' _ hb hq' =>
    cases hqt.symm.trans hq'
    have hself : x ≠ b.members.self := by
      rw [b.self_eq, (bound_of_steps ht.reached p b hb).1]
      exact Ne.symm hp
    obtain ⟨n', hn', hle'⟩ := le_of_merge_snapshot c.snapshot later hself hn
    refine ⟨_, n', ExtTreeMap.getElem?_insert_self, ?_, UInt64.le_trans hk hle'⟩
    rw [Gossiper.receive, (Gossiper.of_mem_sent hsent).1]
    exact hn'

/-- **A node that is heard of is held for alive.** Let `x` be at incarnation `k`, above every claim
that it is not alive. Whoever its heartbeat reaches from then on, directly or through others, holds
it for alive, whatever claims still come in, as long as `x` runs on with its counter below
`2 ^ 64 - 1`, and nobody that it has reached waits for longer than its timeout. -/
theorem heartbeat_keeps_alive {p : Bytes}
    (hrun : Steps (Network.step resolve) (fun _ _ => True) {} v) (hx : v.running[x]? = some g)
    (hk : g.members.own.incarnation = k)
    (hclaims : ∀ r, Says v r → r.id = x → r.state ≠ alive → r.incarnation < k)
    (h : Flow (gossip resolve x k) v x t p) : ∃ i, k ≤ i ∧ HoldsAlive t p x i := by
  have hv : Outbidding resolve x k v := ⟨hrun, ⟨g, hx, UInt64.le_of_eq hk.symm⟩, hclaims⟩
  have ht : Outbidding resolve x k t :=
    h.steps.invariant hv fun _ _ _ hs hok hstep => hs.step hok hstep
  have hheard : HasHeard x k t p := by
    refine h.spreads (I := Outbidding resolve x k) hv (fun _ _ _ hs hok hstep => hs.step hok hstep)
      ?_ ?_ hv.hasHeard_self
    · intro s ev s' i hs hok hkeeps hstep hi
      exact hi.stay hs (hs.step hok hstep) hkeeps hstep
    · intro w r s ev s' i hw hs _ hok htells hstep hr
      exact hr.hear hw hs (hs.step hok hstep) htells hstep
  obtain ⟨a, r, ha, hr, hle⟩ := hheard
  obtain ⟨e, he, rfl⟩ := Option.map_eq_some_iff.mp hr
  have hkey := a.members.keyed x e he
  refine ⟨_, hle, a, e, ha, he, ?_, rfl⟩
  by_contra hs
  have hsays : Says t e.node := .inl ⟨p, a, ha, by rw [hkey]; exact hr⟩
  exact absurd (ht.claims _ hsays hkey hs) (UInt64.not_lt.mpr hle)

end Heartbeat

/-- A node that has just started. -/
def started (f : Flags) : Network :=
  { running := (∅ : ExtTreeMap Bytes Gossiper).insert f.id (.boot f 0) }

lemma state_of_says_started {f : Flags} {r : Node} (h : Says (started f) r) : r.state = alive := by
  rcases h with ⟨y, g, hg, hr⟩ | ⟨p, hp, -⟩
  · rw [started, getElem?_insert_running] at hg
    split_ifs at hg with hy
    · cases hg
      simp only [Gossiper.boot, newMembers, Members.node, ExtTreeMap.getElem?_insert] at hr
      split_ifs at hr
      · cases hr
        rfl
      · simp at hr
    · simp at hg
  · cases hp

/-- The first node has the second among its seeds. -/
theorem heartbeat_keeps_alive_second : ∃ t i, 1 ≤ i ∧ HoldsAlive t [66] [65] i := by
  let f := plain [65] [1] [[2]]
  let v := started f
  have hv : Steps (Network.step some) (fun _ _ => True) {} v :=
    .tail (.start f 0) .refl trivial rfl
  have hfacts : (v.step some (.start (plain [66] [2] []) 0)).any (fun s =>
      (s.running[([65] : Bytes)]?.any fun g => g.members.own.incarnation = 1) ∧ s.packets = [] ∧
      (s.step some (.round [65] 1 {})).any fun w => w.packets.length = 1 ∧
        (w.step some (.deliver [66] 0 2)).isSome) = true := by decide +kernel
  simp only [Option.any_eq_true, decide_eq_true_eq] at hfacts
  obtain ⟨s, hs, ⟨g, hg, hinc⟩, hnone, w, hw, hone, hsome⟩ := hfacts
  obtain ⟨t, ht⟩ := Option.isSome_iff_exists.mp hsome
  have hround : Patient [65] 1 s (.round [65] 1 {}) := by
    intro a ha
    cases hg.symm.trans ha
    exact ⟨fun _ => by rw [hinc]; decide, fun hne => absurd rfl hne⟩
  have hflow : Flow (gossip some [65] 1) v [65] t [66] := by
    refine .hear (.deliver [66] 0 2) (.stay (.start (plain [66] [2] []) 0) .start trivial
      (by simp [gossip]) hs) (.tail (.round [65] 1 {}) .refl hround hw) trivial ?_ ht
    exact ⟨1, {}, w, 0, 2, hround, hw, .refl, by simp [hnone], by omega, rfl⟩
  have hx : v.running[([65] : Bytes)]? = some (.boot f 0) := ExtTreeMap.getElem?_insert_self
  obtain ⟨i, hi⟩ := heartbeat_keeps_alive hv hx rfl
    (fun r hr _ hne => absurd (state_of_says_started hr) hne) hflow
  exact ⟨t, i, hi⟩

end Kyria.Gossip
