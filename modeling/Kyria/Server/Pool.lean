import Kyria.Server.Peer

/-!
The pool of connections to the peers, with many calls at a time: who holds which connection, and
what a caller can rely on.
-/

namespace Kyria.Server.Peer

open Std (ExtTreeMap)
open Kyria.Lib.Cursor Kyria.Lib.Runs Kyria.Lib.Tally Kyria.Protocol Kyria.Text Kyria.Sha256
open Kyria.Server.Connection

/-! ### Who holds which connection -/

/-- The connection a call holds. -/
def Phase.link : Phase → Option ℕ
  | .sending c _ | .awaiting c _ | .broken c _ | .replied c _ => some c
  | .started | .dialing | .returned _ | .failed => none

/-- How many times a call may have sent its request by now, on connections from the pool or on
fresh ones. -/
def Phase.tries (reused : Bool) : Phase → ℕ
  | .started | .sending _ true => 0
  | .awaiting _ true | .broken _ true | .dialing | .sending _ false => if reused then 1 else 0
  | .awaiting _ false | .broken _ false | .replied _ _ | .returned _ | .failed => 1

lemma Phase.tries_le (reused : Bool) (p : Phase) : p.tries reused ≤ 1 := by
  cases p with
  | sending c r | awaiting c r | broken c r => cases r <;> cases reused <;> simp [Phase.tries]
  | _ => cases reused <;> simp [Phase.tries]

/-- What a call may rely on, of the connection it holds. -/
def Link.Holds (l : Link) (k : ℕ) (r : Request) : Phase → Prop
  | .sending _ _ => l.Ready
  | .awaiting _ _ => l.Awaits k r
  | .replied _ v => l.Ready ∧ v.Sendable ∧ l.Got k r v
  | .started | .dialing | .broken _ _ | .returned _ | .failed => True

/-- How many times the request of call `k` was sent, on connections from the pool or on fresh
ones. -/
def Link.attempts (k : ℕ) (reused : Bool) (l : Link) : ℕ :=
  l.requests.countP fun r => r.call = k ∧ r.reused = reused

def State.attempts (s : State) (k : ℕ) (reused : Bool) : ℕ := tally (Link.attempts k reused) s.links

@[simp] lemma State.attempts_setCall (s : State) (k : ℕ) (d : Call) (p : Phase) (j : ℕ) (b : Bool) :
    (s.setCall k d p).attempts j b = s.attempts j b := rfl

/-- What the holder of a connection relies on. -/
def Link.Kept (l : Link) (s : State) (c : ℕ) : Prop :=
  match l.holder with
  | .pool => l.Ready
  | .call k => ∃ d, s.calls[k]? = some d ∧ d.phase.link = some c ∧ l.addr = d.addr ∧
      l.Holds k d.request d.phase
  | .nobody => True

/-- What holds in every reachable state. -/
structure Inv (σ : Type) (H : Hash) (U : Printable) (s : State) : Prop where
  ok : ∀ (c : ℕ) (l : Link), s.links[c]? = some l → l.Ok σ H U
  kept : ∀ (c : ℕ) (l : Link), s.links[c]? = some l → l.Kept s c
  /-- The pool files each of its connections under the address of its peer. -/
  pool : ∀ a c, c ∈ s.warm a ↔ ∃ l, s.links[c]? = some l ∧ l.addr = a ∧ l.holder = .pool
  bounded : ∀ a, (s.warm a).Nodup ∧ (s.warm a).length ≤ maxIdlePerPeer
  held : ∀ (k : ℕ) (d : Call) (c : ℕ), s.calls[k]? = some d → d.phase.link = some c →
    ∃ l, s.links[c]? = some l ∧ l.holder = .call k
  small : ∀ d ∈ s.calls, d.request.encode.length < 2 ^ 63
  returned : ∀ (k : ℕ) (d : Call) (v : Value), s.calls[k]? = some d → d.phase = .returned v →
    v.Sendable ∧ ∃ (c : ℕ) (l : Link), s.links[c]? = some l ∧ l.addr = d.addr ∧ l.Got k d.request v
  /-- What was sent to a peer is the request of a call to that peer. -/
  sent : ∀ (c : ℕ) (l : Link), s.links[c]? = some l → ∀ r ∈ l.requests,
    ∃ d, s.calls[r.call]? = some d ∧ d.addr = l.addr ∧ d.request = r.request
  tries : ∀ k b, s.attempts k b ≤ (s.calls[k]?).elim 0 (·.phase.tries b)

section Steps

variable {σ : Type} {H : Hash} {U : Printable} {s u : State} {k c : ℕ} {d : Call} {l l' : Link}
  {p : Phase}

lemma Inv.initial : Inv σ H U .initial := by
  constructor <;> simp [State.initial, State.warm, State.attempts]

lemma getElem?_set_of {α : Type} {xs : List α} {i : ℕ} {x y : α} (h : xs[i]? = some x) (j : ℕ) :
    (xs.set i y)[j]? = if i = j then some y else xs[j]? := by
  rw [List.getElem?_set, if_pos (List.getElem?_eq_some_iff.mp h).1]

lemma Inv.holds (hi : Inv σ H U s) (hk : s.calls[k]? = some d) (hlink : d.phase.link = some c)
    (hl : s.links[c]? = some l) :
    l.holder = .call k ∧ l.addr = d.addr ∧ l.Holds k d.request d.phase := by
  obtain ⟨m, hm, hholder⟩ := hi.held k d c hk hlink
  cases hl.symm.trans hm
  have hkept := hi.kept c l hl
  rw [Link.Kept, hholder] at hkept
  obtain ⟨d', hd', -, haddr, hholds⟩ := hkept
  cases hk.symm.trans hd'
  exact ⟨hholder, haddr, hholds⟩

/-- How a call moves on, together with the connection it has, gets or gives up. -/
structure Moves (s : State) (k : ℕ) (d : Call) (c : ℕ) (l l' : Link) (p : Phase) (u : State) :
    Prop where
  calls : u.calls = s.calls.set k { d with phase := p }
  links : u.links = s.links.set c l'
  later : l.Later l'
  /-- No other call has the connection. -/
  alone : ∀ j, l.holder = .call j → j = k
  /-- The call has no other connection. -/
  single : ∀ c', d.phase.link = some c' → c' = c
  link : ∀ c', p.link = some c' ↔ c' = c ∧ l'.holder = .call k
  /-- It passes to no other call. -/
  own : ∀ j, l'.holder = .call j → j = k
  holds : l'.holder = .call k → l'.addr = d.addr ∧ l'.Holds k d.request p
  ready : l'.holder = .pool → l'.Ready
  pool : ∀ a c', c' ∈ u.warm a ↔ (c' ≠ c ∧ c' ∈ s.warm a ∨ c' = c ∧ l'.addr = a ∧ l'.holder = .pool)
  bounded : ∀ a, (u.warm a).Nodup ∧ (u.warm a).length ≤ maxIdlePerPeer
  got : ∀ v, p = .returned v → v.Sendable ∧ l'.addr = d.addr ∧ l'.Got k d.request v
  sent : ∀ r ∈ l'.requests, r ∈ l.requests ∨
    r.call = k ∧ d.addr = l'.addr ∧ d.request = r.request
  tries : ∀ j b, l'.attempts j b + (if j = k then d.phase.tries b else 0) ≤
    l.attempts j b + if j = k then p.tries b else 0

/-- A call keeps its peer and its request. -/
lemma exists_call_set (hk : s.calls[k]? = some d) {j : ℕ} {a : Bytes} {r : Request}
    (h : ∃ e, s.calls[j]? = some e ∧ e.addr = a ∧ e.request = r) :
    ∃ e, (s.calls.set k { d with phase := p })[j]? = some e ∧ e.addr = a ∧ e.request = r := by
  obtain ⟨e, he, hrest⟩ := h
  rw [getElem?_set_of hk]
  split
  · rename_i hkj
    subst hkj
    cases hk.symm.trans he
    exact ⟨_, rfl, hrest⟩
  · exact ⟨e, he, hrest⟩

section Moves

variable (hm : Moves s k d c l l' p u) (hi : Inv σ H U s) (hk : s.calls[k]? = some d)
  (hl : s.links[c]? = some l)

include hm hl in
lemma Moves.getElem?_links (j : ℕ) : u.links[j]? = if c = j then some l' else s.links[j]? := by
  rw [hm.links, getElem?_set_of hl]

include hm hk in
lemma Moves.getElem?_calls (j : ℕ) :
    u.calls[j]? = if k = j then some { d with phase := p } else s.calls[j]? := by
  rw [hm.calls, getElem?_set_of hk]

include hm hi hk hl

lemma Moves.kept {c' : ℕ} {m : Link} (hm' : u.links[c']? = some m) : m.Kept u c' := by
  rw [hm.getElem?_links hl] at hm'
  split at hm'
  · rename_i hcc'
    cases hm'
    unfold Link.Kept
    split
    · exact hm.ready ‹_›
    · rename_i j hj
      have hjk := hm.own j hj
      subst hjk
      obtain ⟨haddr, hholds⟩ := hm.holds hj
      exact ⟨{ d with phase := p }, by rw [hm.getElem?_calls hk, if_pos rfl],
        (hm.link c').mpr ⟨hcc'.symm, hj⟩, haddr, hholds⟩
    · trivial
  · rename_i hcc'
    have hkept := hi.kept c' m hm'
    unfold Link.Kept at hkept ⊢
    split
    · rename_i hpool
      rwa [hpool] at hkept
    · rename_i j hj
      rw [hj] at hkept
      obtain ⟨d', hd', hlink, hrest⟩ := hkept
      have hkj : k ≠ j := by
        rintro rfl
        cases hk.symm.trans hd'
        exact hcc' (hm.single c' hlink).symm
      exact ⟨d', by rw [hm.getElem?_calls hk, if_neg hkj, hd'], hlink, hrest⟩
    · trivial

lemma Moves.held {j : ℕ} {d' : Call} {c' : ℕ} (hd' : u.calls[j]? = some d')
    (hc' : d'.phase.link = some c') : ∃ m, u.links[c']? = some m ∧ m.holder = .call j := by
  rw [hm.getElem?_calls hk] at hd'
  rw [hm.getElem?_links hl]
  split at hd'
  · rename_i hkj
    cases hd'
    obtain ⟨rfl, hholder⟩ := (hm.link c').mp hc'
    exact ⟨l', if_pos rfl, hkj ▸ hholder⟩
  · rename_i hkj
    obtain ⟨m, hm', hholder⟩ := hi.held j d' c' hd' hc'
    have hcc' : c ≠ c' := by
      rintro rfl
      cases hl.symm.trans hm'
      exact hkj (hm.alone j hholder).symm
    exact ⟨m, by rw [if_neg hcc', hm'], hholder⟩

lemma Moves.returned {j : ℕ} {d' : Call} {v : Value} (hd' : u.calls[j]? = some d')
    (hv : d'.phase = .returned v) :
    v.Sendable ∧
      ∃ (c' : ℕ) (m : Link), u.links[c']? = some m ∧ m.addr = d'.addr ∧ m.Got j d'.request v := by
  rw [hm.getElem?_calls hk] at hd'
  split at hd'
  · rename_i hkj
    cases hd'
    obtain ⟨hsend, haddr, hgot⟩ := hm.got v hv
    exact ⟨hsend, c, l', by rw [hm.getElem?_links hl, if_pos rfl], haddr, hkj ▸ hgot⟩
  · obtain ⟨hsend, c', m, hm', haddr, hgot⟩ := hi.returned j d' v hd' hv
    refine ⟨hsend, c', ?_⟩
    rw [hm.getElem?_links hl]
    split
    · rename_i hcc'
      subst hcc'
      cases hl.symm.trans hm'
      exact ⟨l', rfl, hm.later.addr.trans haddr, hgot.later hm.later⟩
    · exact ⟨m, hm', haddr, hgot⟩

lemma Moves.asked {c' : ℕ} {m : Link} (hm' : u.links[c']? = some m) {r : Attempt}
    (hr : r ∈ m.requests) :
    ∃ e, u.calls[r.call]? = some e ∧ e.addr = m.addr ∧ e.request = r.request := by
  rw [hm.calls]
  apply exists_call_set hk
  rw [hm.getElem?_links hl] at hm'
  split at hm'
  · cases hm'
    rcases hm.sent r hr with hr | ⟨rfl, haddr, hreq⟩
    · rw [hm.later.addr]
      exact hi.sent c l hl r hr
    · exact ⟨d, hk, haddr, hreq⟩
  · exact hi.sent c' m hm' r hr

lemma Moves.attempts_le (j : ℕ) (b : Bool) :
    u.attempts j b ≤ (u.calls[j]?).elim 0 (·.phase.tries b) := by
  have hset : u.attempts j b + l.attempts j b = s.attempts j b + l'.attempts j b := by
    rw [State.attempts, State.attempts, hm.links]
    exact tally_set hl
  have hold := hi.tries j b
  have hnew := hm.tries j b
  rw [hm.getElem?_calls hk]
  by_cases hkj : k = j
  · subst hkj
    rw [hk] at hold
    simp only [if_true, Option.elim_some] at hold hnew ⊢
    omega
  · rw [if_neg (Ne.symm hkj), if_neg (Ne.symm hkj)] at hnew
    rw [if_neg hkj]
    omega

/-- **A call that moves on keeps the invariant.** -/
lemma Moves.inv (hok : l'.Ok σ H U) : Inv σ H U u := by
  constructor
  case ok =>
    intro c' m hm'
    rw [hm.getElem?_links hl] at hm'
    split at hm'
    · cases hm'
      exact hok
    · exact hi.ok c' m hm'
  case kept => exact fun _ _ => hm.kept hi hk hl
  case pool =>
    intro a c'
    rw [hm.pool, hm.getElem?_links hl]
    by_cases hcc' : c' = c
    · subst hcc'
      simp
    · rw [if_neg (Ne.symm hcc'), ← hi.pool]
      simp [hcc']
  case bounded => exact hm.bounded
  case held => exact fun _ _ _ => hm.held hi hk hl
  case small =>
    intro d' hd'
    rw [hm.calls] at hd'
    rcases List.mem_or_eq_of_mem_set hd' with hd' | rfl
    · exact hi.small d' hd'
    · exact hi.small d (List.mem_of_getElem? hk)
  case returned => exact fun _ _ _ => hm.returned hi hk hl
  case sent => exact fun _ _ hm' _ => hm.asked hi hk hl hm'
  case tries => exact hm.attempts_le hi hk hl

end Moves

lemma Inv.not_warm (hi : Inv σ H U s) (hl : s.links[c]? = some l) (hholder : l.holder ≠ .pool)
    (a : Bytes) : c ∉ s.warm a := by
  rw [hi.pool]
  rintro ⟨m, hm, -, hpool⟩
  cases hl.symm.trans hm
  exact hholder hpool

/-- **A call goes on with the connection it holds**, or closes it. -/
lemma Inv.onLink (hi : Inv σ H U s) (hk : s.calls[k]? = some d) (hlink : d.phase.link = some c)
    (hl : s.links[c]? = some l) (hlater : l.Later l') (hok : l'.Ok σ H U)
    (hp : p.link = some c ∧ l'.holder = .call k ∧ l'.Holds k d.request p ∨
      p.link = none ∧ l'.holder = .nobody)
    (hgot : ∀ v, p = .returned v → v.Sendable ∧ l'.Got k d.request v)
    (hsent : ∀ r ∈ l'.requests, r ∈ l.requests ∨ r.call = k ∧ d.request = r.request)
    (htries : ∀ j b, l'.attempts j b + (if j = k then d.phase.tries b else 0) ≤
      l.attempts j b + if j = k then p.tries b else 0) :
    Inv σ H U ((s.setLink c l').setCall k d p) := by
  obtain ⟨hholder, haddr, -⟩ := hi.holds hk hlink hl
  have hcold := hi.not_warm hl (by simp [hholder])
  have hnot : l'.holder ≠ .pool := by
    rcases hp with ⟨-, h, -⟩ | ⟨-, h⟩ <;> simp [h]
  refine Moves.inv (p := p) ?_ hi hk hl hok
  constructor
  case calls => rfl
  case links => rfl
  case later => exact hlater
  case alone => exact fun j hj => Holder.call.inj (hj.symm.trans hholder)
  case single => exact fun c' hc' => Option.some.inj (hc'.symm.trans hlink)
  case link =>
    intro c'
    rcases hp with ⟨hpc, h, -⟩ | ⟨hpn, h⟩
    · simp [hpc, h, eq_comm]
    · simp [hpn, h]
  case own =>
    intro j hj
    rcases hp with ⟨-, h, -⟩ | ⟨-, h⟩
    · exact Holder.call.inj (hj.symm.trans h)
    · cases hj.symm.trans h
  case holds =>
    intro hcall
    rcases hp with ⟨-, -, hholds⟩ | ⟨-, h⟩
    · exact ⟨hlater.addr.trans haddr, hholds⟩
    · cases hcall.symm.trans h
  case ready => exact fun h => absurd h hnot
  case pool =>
    intro a c'
    rw [State.warm_setCall, State.warm_setLink]
    constructor
    · exact fun hc' => .inl ⟨fun h => hcold a (h ▸ hc'), hc'⟩
    · rintro (⟨-, hc'⟩ | ⟨-, -, hpool⟩)
      · exact hc'
      · exact absurd hpool hnot
  case bounded => exact hi.bounded
  case got =>
    intro v hv
    exact ⟨(hgot v hv).1, hlater.addr.trans haddr, (hgot v hv).2⟩
  case sent =>
    intro r hr
    exact (hsent r hr).imp_right fun h => ⟨h.1, (hlater.addr.trans haddr).symm, h.2⟩
  case tries => exact htries

lemma warm_setIdle (s : State) (addr : Bytes) (cs : List ℕ) (a : Bytes) :
    (s.setIdle addr cs).warm a = if a = addr then cs else s.warm a := by
  unfold State.setIdle State.warm
  rw [ExtTreeMap.getElem?_insert]
  by_cases h : a = addr
  · simp [h]
  · rw [if_neg h, if_neg (by rwa [Std.LawfulEqOrd.compare_eq_iff_eq, eq_comm])]

lemma Inv.take (hi : Inv σ H U s) (hk : s.calls[k]? = some d) (hd : d.phase = .started)
    {w : List ℕ} (hw : s.warm d.addr = w ++ [c]) (hl : s.links[c]? = some l) :
    Inv σ H U (((s.setIdle d.addr w).setLink c { l with holder := .call k }).setCall k d
      (.sending c true)) := by
  have hmem : c ∈ s.warm d.addr := by simp [hw]
  obtain ⟨m, hm, haddr, hholder⟩ := (hi.pool d.addr c).mp hmem
  cases hl.symm.trans hm
  have hready : l.Ready := by
    have := hi.kept c l hl
    rwa [Link.Kept, hholder] at this
  obtain ⟨hnodup, hlen⟩ := hi.bounded d.addr
  rw [hw] at hnodup hlen
  suffices hmoves : Moves s k d c l { l with holder := .call k } (.sending c true)
      (((s.setIdle d.addr w).setLink c { l with holder := .call k }).setCall k d
        (.sending c true)) from
    hmoves.inv hi hk hl (hi.ok c l hl).pass
  constructor
  case calls => rfl
  case links => rfl
  case later => exact l.later_pass _
  case alone =>
    intro j hj
    cases hholder.symm.trans hj
  case single =>
    intro c' hc'
    rw [hd] at hc'
    cases hc'
  case link => simp [Phase.link, eq_comm]
  case own => exact fun j hj => (Holder.call.inj hj).symm
  case holds => exact fun _ => ⟨haddr, hready⟩
  case ready => simp
  case pool =>
    intro a c'
    rw [State.warm_setCall, State.warm_setLink, warm_setIdle]
    split
    · rename_i ha
      subst ha
      have hc : c ∉ w := fun h =>
        (List.nodup_append.mp hnodup).2.2 c h c (List.mem_singleton_self c) rfl
      rw [hw, List.mem_append, List.mem_singleton]
      constructor
      · exact fun hc' => .inl ⟨fun h => hc (h ▸ hc'), .inl hc'⟩
      · rintro (⟨hne, hc'⟩ | ⟨-, -, h⟩)
        · exact hc'.resolve_right hne
        · cases h
    · rename_i ha
      -- it is filed under its own address only
      have hne : c' ∈ s.warm a → c' ≠ c := by
        rintro hc' rfl
        obtain ⟨m, hm, hma, -⟩ := (hi.pool a c').mp hc'
        cases hl.symm.trans hm
        exact ha (hma.symm.trans haddr)
      constructor
      · exact fun hc' => .inl ⟨hne hc', hc'⟩
      · rintro (⟨-, hc'⟩ | ⟨-, -, h⟩)
        · exact hc'
        · cases h
  case bounded =>
    intro a
    rw [State.warm_setCall, State.warm_setLink, warm_setIdle]
    split
    · refine ⟨(List.nodup_append.mp hnodup).1, ?_⟩
      rw [List.length_append] at hlen
      omega
    · exact hi.bounded a
  case got => simp
  case sent => exact fun r hr => .inl hr
  case tries =>
    intro j b
    rw [hd]
    cases b <;> exact le_rfl

lemma Inv.put (hi : Inv σ H U s) (hk : s.calls[k]? = some d) {v : Value}
    (hd : d.phase = .replied c v) (hl : s.links[c]? = some l)
    (hroom : (s.warm d.addr).length < maxIdlePerPeer) :
    Inv σ H U (((s.setIdle d.addr (s.warm d.addr ++ [c])).setLink c
      { l with holder := .pool }).setCall k d (.returned v)) := by
  have hlink : d.phase.link = some c := by rw [hd]; rfl
  obtain ⟨hholder, haddr, hholds⟩ := hi.holds hk hlink hl
  rw [hd] at hholds
  obtain ⟨hready, hsend, hgot⟩ := hholds
  have hcold := hi.not_warm hl (by simp [hholder])
  suffices hmoves : Moves s k d c l { l with holder := .pool } (.returned v)
      (((s.setIdle d.addr (s.warm d.addr ++ [c])).setLink c { l with holder := .pool }).setCall k d
        (.returned v)) from
    hmoves.inv hi hk hl (hi.ok c l hl).pass
  constructor
  case calls => rfl
  case links => rfl
  case later => exact l.later_pass _
  case alone => exact fun j hj => Holder.call.inj (hj.symm.trans hholder)
  case single => exact fun c' hc' => Option.some.inj (hc'.symm.trans hlink)
  case link => simp [Phase.link]
  case own => simp
  case holds => simp
  case ready => exact fun _ => hready
  case pool =>
    intro a c'
    rw [State.warm_setCall, State.warm_setLink, warm_setIdle]
    split
    · rename_i ha
      subst ha
      rw [List.mem_append, List.mem_singleton]
      constructor
      · rintro (hc' | rfl)
        · exact .inl ⟨fun h => hcold _ (h ▸ hc'), hc'⟩
        · exact .inr ⟨rfl, haddr, rfl⟩
      · rintro (⟨-, hc'⟩ | ⟨hc', -⟩)
        · exact .inl hc'
        · exact .inr hc'
    · rename_i ha
      constructor
      · exact fun hc' => .inl ⟨fun h => hcold a (h ▸ hc'), hc'⟩
      · rintro (⟨-, hc'⟩ | ⟨-, haddr', -⟩)
        · exact hc'
        · exact absurd (haddr'.symm.trans haddr) ha
  case bounded =>
    intro a
    rw [State.warm_setCall, State.warm_setLink, warm_setIdle]
    split
    · obtain ⟨hnodup, -⟩ := hi.bounded d.addr
      constructor
      · rw [List.nodup_append]
        refine ⟨hnodup, List.nodup_singleton c, fun x hx y hy hxy => ?_⟩
        rw [List.mem_singleton.mp hy] at hxy
        exact hcold d.addr (hxy ▸ hx)
      · rw [List.length_append, List.length_singleton]
        omega
    · exact hi.bounded a
  case got =>
    intro w hw
    cases hw
    exact ⟨hsend, haddr, hgot⟩
  case sent => exact fun r hr => .inl hr
  case tries =>
    intro j b
    rw [hd]
    cases b <;> exact le_rfl

lemma Inv.append (hi : Inv σ H U s) (addr : Bytes) :
    Inv σ H U { s with links := s.links ++ [{ addr := addr, holder := .nobody }] } := by
  have hnew : ∀ (c : ℕ) (l : Link),
      (s.links ++ [{ addr := addr, holder := .nobody }])[c]? = some l ↔
        s.links[c]? = some l ∨ c = s.links.length ∧ l = { addr := addr, holder := .nobody } := by
    intro c l
    rw [List.getElem?_append]
    split
    · rename_i hlt
      exact ⟨.inl, fun h => h.resolve_right fun h => by omega⟩
    · rename_i hlt
      rw [List.getElem?_eq_none (by omega : s.links.length ≤ c)]
      simp only [List.getElem?_singleton, reduceCtorEq, false_or]
      split
      · rename_i h0
        simp only [Option.some.injEq, eq_comm, and_iff_right (show c = s.links.length by omega)]
      · rename_i h0
        simp only [reduceCtorEq, false_iff, not_and]
        omega
  constructor
  case ok =>
    intro c l hl
    rcases (hnew c l).mp hl with hl | ⟨-, rfl⟩
    · exact hi.ok c l hl
    · exact Link.ok_fresh addr _
  case kept =>
    intro c l hl
    rcases (hnew c l).mp hl with hl | ⟨-, rfl⟩
    · exact hi.kept c l hl
    · trivial
  case pool =>
    intro a c
    refine (hi.pool a c).trans ?_
    constructor
    · rintro ⟨l, hl, hrest⟩
      exact ⟨l, (hnew c l).mpr (.inl hl), hrest⟩
    · rintro ⟨l, hl, hla, hpool⟩
      rcases (hnew c l).mp hl with hl | ⟨-, rfl⟩
      · exact ⟨l, hl, hla, hpool⟩
      · cases hpool
  case bounded => exact hi.bounded
  case held =>
    intro k d c hk hc
    obtain ⟨l, hl, hholder⟩ := hi.held k d c hk hc
    exact ⟨l, (hnew c l).mpr (.inl hl), hholder⟩
  case small => exact hi.small
  case returned =>
    intro k d v hk hv
    obtain ⟨hsend, c, l, hl, hrest⟩ := hi.returned k d v hk hv
    exact ⟨hsend, c, l, (hnew c l).mpr (.inl hl), hrest⟩
  case sent =>
    intro c l hl
    rcases (hnew c l).mp hl with hl | ⟨-, rfl⟩
    · exact hi.sent c l hl
    · simp
  case tries =>
    intro j b
    have hsame :
        State.attempts { s with links := s.links ++ [{ addr := addr, holder := .nobody }] } j b =
          s.attempts j b := by
      simp [State.attempts, Link.attempts]
    rw [hsame]
    exact hi.tries j b

lemma Inv.dial (hi : Inv σ H U s) (hk : s.calls[k]? = some d) (hd : d.phase = .dialing) :
    Inv σ H U { s.setCall k d (.sending s.links.length false) with
                links := s.links ++ [{ addr := d.addr, holder := .call k }] } := by
  have hi' := hi.append d.addr
  have hl : (s.links ++ [{ addr := d.addr, holder := .nobody }])[s.links.length]? =
      some { addr := d.addr, holder := .nobody } := by simp
  have hcold := hi'.not_warm hl (by simp)
  suffices hmoves : Moves { s with links := s.links ++ [{ addr := d.addr, holder := .nobody }] } k d
      s.links.length { addr := d.addr, holder := .nobody } { addr := d.addr, holder := .call k }
      (.sending s.links.length false)
      { s.setCall k d (.sending s.links.length false) with
        links := s.links ++ [{ addr := d.addr, holder := .call k }] } from
    hmoves.inv hi' hk hl (Link.ok_fresh d.addr _)
  constructor
  case calls => rfl
  case links => simp
  case later => exact Link.later_pass _ _
  case alone => simp
  case single => simp [hd, Phase.link]
  case link => simp [Phase.link, eq_comm]
  case own => exact fun j hj => (Holder.call.inj hj).symm
  case holds => exact fun _ => ⟨rfl, Link.ready_fresh d.addr _⟩
  case ready => simp
  case pool =>
    intro a c'
    constructor
    · exact fun hc' => .inl ⟨fun h => hcold a (h ▸ hc'), hc'⟩
    · rintro (⟨-, hc'⟩ | ⟨-, -, h⟩)
      · exact hc'
      · cases h
  case bounded => exact hi.bounded
  case got => simp
  case sent => exact fun r hr => .inl hr
  case tries =>
    intro j b
    rw [hd]
    cases b <;> exact le_rfl

lemma Inv.onCall (hi : Inv σ H U s) (hk : s.calls[k]? = some d) (hnone : d.phase.link = none)
    (hp : p.link = none) (hret : ∀ v, p ≠ .returned v) (htries : ∀ b, d.phase.tries b ≤ p.tries b) :
    Inv σ H U (s.setCall k d p) := by
  have hcalls := getElem?_set_of (y := { d with phase := p }) hk
  refine { hi with kept := ?_, held := ?_, small := ?_, returned := ?_, sent := ?_, tries := ?_ }
  · intro c l hl
    have hkept := hi.kept c l hl
    unfold Link.Kept at hkept ⊢
    split at hkept
    · exact hkept
    · rename_i j hj
      obtain ⟨d', hd', hlink, hrest⟩ := hkept
      have hkj : k ≠ j := by
        rintro rfl
        cases hk.symm.trans hd'
        cases hnone.symm.trans hlink
      exact ⟨d', by rw [State.calls_setCall, hcalls, if_neg hkj, hd'], hlink, hrest⟩
    · trivial
  · intro j d' c' hd' hc'
    rw [State.calls_setCall, hcalls] at hd'
    split at hd'
    · cases hd'
      cases hp.symm.trans hc'
    · exact hi.held j d' c' hd' hc'
  · intro d' hd'
    rcases List.mem_or_eq_of_mem_set hd' with hd' | rfl
    · exact hi.small d' hd'
    · exact hi.small d (List.mem_of_getElem? hk)
  · intro j d' v hd' hv
    rw [State.calls_setCall, hcalls] at hd'
    split at hd'
    · cases hd'
      exact absurd hv (hret v)
    · exact hi.returned j d' v hd' hv
  · exact fun c l hl r hr => exists_call_set hk (hi.sent c l hl r hr)
  · intro j b
    have hold := hi.tries j b
    rw [State.attempts_setCall, State.calls_setCall, hcalls]
    split
    · rename_i hkj
      subst hkj
      rw [hk] at hold
      exact hold.trans (htries b)
    · exact hold

/-- **The peer goes on with its end of a connection**, whoever has ours. -/
lemma Inv.onPeer (hi : Inv σ H U s) (hl : s.links[c]? = some l) (hok : l'.Ok σ H U)
    (hlater : l.Later l') (hholder : l'.holder = l.holder) (hreq : l'.requests = l.requests)
    (hready : l.Ready → l'.Ready) (hawaits : ∀ k r, l.Awaits k r → l'.Awaits k r) :
    Inv σ H U (s.setLink c l') := by
  have hlinks := getElem?_set_of (y := l') hl
  have hholds : ∀ (k : ℕ) (r : Request) (p : Phase), l.Holds k r p → l'.Holds k r p := by
    intro k r p h
    cases p with
    | sending c reused => exact hready h
    | awaiting c reused => exact hawaits k r h
    | replied c v => exact ⟨hready h.1, h.2.1, h.2.2.later hlater⟩
    | _ => trivial
  refine { hi with ok := ?_, kept := ?_, pool := ?_, held := ?_, returned := ?_, sent := ?_
                   tries := ?_ }
  · intro c' m hm
    rw [State.links_setLink, hlinks] at hm
    split at hm
    · cases hm
      exact hok
    · exact hi.ok c' m hm
  · intro c' m hm
    rw [State.links_setLink, hlinks] at hm
    split at hm
    · rename_i hcc'
      subst hcc'
      cases hm
      have hkept := hi.kept c l hl
      unfold Link.Kept at hkept ⊢
      rw [hholder]
      split at hkept
      · exact hready hkept
      · obtain ⟨d', hd', hlink, haddr, hh⟩ := hkept
        exact ⟨d', hd', hlink, hlater.addr.trans haddr, hholds _ _ _ hh⟩
      · trivial
    · exact hi.kept c' m hm
  · intro a c'
    rw [State.warm_setLink, State.links_setLink, hlinks, hi.pool]
    split
    · rename_i hcc'
      subst hcc'
      simp [hl, hholder, hlater.addr]
    · rfl
  · intro j d' c' hd' hc'
    obtain ⟨m, hm, hmh⟩ := hi.held j d' c' hd' hc'
    rw [State.links_setLink, hlinks]
    split
    · rename_i hcc'
      subst hcc'
      cases hl.symm.trans hm
      exact ⟨l', rfl, hholder.trans hmh⟩
    · exact ⟨m, hm, hmh⟩
  · intro j d' v hd' hv
    obtain ⟨hsend, c', m, hm, haddr, hgot⟩ := hi.returned j d' v hd' hv
    refine ⟨hsend, c', ?_⟩
    rw [State.links_setLink, hlinks]
    split
    · rename_i hcc'
      subst hcc'
      cases hl.symm.trans hm
      exact ⟨l', rfl, hlater.addr.trans haddr, hgot.later hlater⟩
    · exact ⟨m, hm, haddr, hgot⟩
  · intro c' m hm
    rw [State.links_setLink, hlinks] at hm
    split at hm
    · cases hm
      rw [hreq, hlater.addr]
      exact hi.sent c l hl
    · exact hi.sent c' m hm
  · intro j b
    have hset : (s.setLink c l').attempts j b + l.attempts j b =
      s.attempts j b + l'.attempts j b := tally_set hl
    have hsame : l'.attempts j b = l.attempts j b := by rw [Link.attempts, Link.attempts, hreq]
    have hold := hi.tries j b
    rw [State.calls_setLink]
    omega

lemma Inv.serve (hi : Inv σ H U s) (hl : s.links[c]? = some l) {n : ℕ} {h : Handler σ}
    {amb : Ambient} (hserve : l.serve H U n h amb = some l') : Inv σ H U (s.setLink c l') := by
  obtain ⟨hok, hreplies⟩ := (hi.ok c l hl).serve hserve
  obtain ⟨haddr, hreq, hread, hholder⟩ := Link.serve_frame hserve
  have hgrows : l.replies <+: l'.replies := by
    rcases hreplies with heq | ⟨v, heq⟩ <;> rw [heq]
    exact List.prefix_append _ _
  refine hi.onPeer hl hok ⟨haddr, hreq ▸ List.prefix_rfl, hgrows⟩ hholder hreq ?_ ?_
  · -- with nothing outstanding there is nothing to reply to
    rintro ⟨hlen, hall⟩
    have hcount := hok.count
    have hsame : l'.replies = l.replies := by
      refine hreplies.resolve_right ?_
      rintro ⟨v, heq⟩
      rw [heq, hreq, List.length_append, List.length_singleton] at hcount
      omega
    exact ⟨by rw [hsame, hreq, hlen], by rw [hread, hall, Link.output, Link.output, hsame]⟩
  · rintro k r ⟨rs, reused, hrs, hle, hat⟩
    refine ⟨rs, reused, by rw [hreq, hrs], hle.trans hgrows.length_le, ?_⟩
    obtain ⟨more, hmore⟩ := hgrows
    rw [hread, hat, ← hmore, List.take_append_of_le_length hle]

lemma Inv.hangUp (hi : Inv σ H U s) (hl : s.links[c]? = some l) :
    Inv σ H U (s.setLink c { l with ended := true }) := by
  have hok := hi.ok c l hl
  exact hi.onPeer hl { hok with cursor := by simp, replied := by simp }
    ⟨rfl, List.prefix_rfl, List.prefix_rfl⟩ rfl rfl id fun _ _ h => h

lemma Inv.begin (hi : Inv σ H U s) {addr : Bytes} {r : Request}
    (hsmall : r.encode.length < 2 ^ 63) :
    Inv σ H U
      { s with calls := s.calls ++ [{ addr := addr, request := r, phase := .started }] } := by
  have hold : ∀ (k : ℕ) (d : Call), s.calls[k]? = some d →
      (s.calls ++ [{ addr := addr, request := r, phase := .started }])[k]? = some d :=
    fun k d hk => getElem?_of_prefix (List.prefix_append _ _) hk
  have hnew : ∀ (k : ℕ) (d : Call),
      (s.calls ++ [{ addr := addr, request := r, phase := .started }])[k]? = some d →
        s.calls[k]? = some d ∨ d.phase = .started := by
    intro k d hd
    rw [List.getElem?_append] at hd
    split at hd
    · exact .inl hd
    · obtain ⟨hlt, rfl⟩ := List.getElem?_eq_some_iff.mp hd
      exact .inr (by simp)
  refine { hi with kept := ?_, held := ?_, small := ?_, returned := ?_, sent := ?_, tries := ?_ }
  · intro c l hl
    have hkept := hi.kept c l hl
    unfold Link.Kept at hkept ⊢
    split at hkept
    · exact hkept
    · obtain ⟨d', hd', hrest⟩ := hkept
      exact ⟨d', hold _ _ hd', hrest⟩
    · trivial
  · intro k d c hd hc
    rcases hnew k d hd with hd | hd
    · exact hi.held k d c hd hc
    · rw [hd] at hc
      cases hc
  · intro d hd
    rcases List.mem_append.mp hd with hd | hd
    · exact hi.small d hd
    · rw [List.mem_singleton.mp hd]
      exact hsmall
  · intro k d v hd hv
    rcases hnew k d hd with hd | hd
    · exact hi.returned k d v hd hv
    · cases hd.symm.trans hv
  · intro c l hl r hr
    obtain ⟨d, hd, hrest⟩ := hi.sent c l hl r hr
    exact ⟨d, hold _ d hd, hrest⟩
  · intro k b
    refine (hi.tries k b).trans ?_
    cases hk : s.calls[k]? with
    | none => exact Nat.zero_le _
    | some d => rw [hold k d hk]

lemma mem_pooled (s : State) (c : ℕ) :
    c ∈ s.idle.toList.flatMap Prod.snd ↔ ∃ a, c ∈ s.warm a := by
  simp only [List.mem_flatMap, Prod.exists, State.warm]
  constructor
  · rintro ⟨a, cs, hcs, hc⟩
    exact ⟨a, by rwa [ExtTreeMap.mem_toList_iff_getElem?_eq_some.mp hcs, Option.getD_some]⟩
  · rintro ⟨a, hc⟩
    cases ha : s.idle[a]? with
    | none => simp [ha] at hc
    | some cs =>
      rw [ha, Option.getD_some] at hc
      exact ⟨a, cs, ExtTreeMap.mem_toList_iff_getElem?_eq_some.mpr ha, hc⟩

/-- A connection is closed if it was in the pool, and the same otherwise. -/
lemma Inv.getElem?_close (hi : Inv σ H U s) (c : ℕ) (l' : Link) :
    s.close.links[c]? = some l' ↔ ∃ l, s.links[c]? = some l ∧
      l' = if l.holder = .pool then { l with holder := .nobody } else l := by
  have hiff : ∀ l, s.links[c]? = some l →
      (c ∈ s.idle.toList.flatMap Prod.snd ↔ l.holder = .pool) := by
    intro l hl
    rw [mem_pooled]
    constructor
    · rintro ⟨a, hc⟩
      obtain ⟨m, hm, -, hpool⟩ := (hi.pool a c).mp hc
      cases hl.symm.trans hm
      exact hpool
    · exact fun hpool => ⟨l.addr, (hi.pool l.addr c).mpr ⟨l, hl, rfl, hpool⟩⟩
  simp only [State.close, List.getElem?_mapIdx, Option.map_eq_some_iff]
  refine exists_congr fun l => and_congr_right fun hl => ?_
  simp only [hiff l hl, eq_comm]

lemma attempts_close (s : State) (j : ℕ) (b : Bool) : s.close.attempts j b = s.attempts j b := by
  have hsame : s.close.links.map (Link.attempts j b) = s.links.map (Link.attempts j b) := by
    refine List.ext_getElem? fun c => ?_
    simp only [State.close, List.getElem?_map, List.getElem?_mapIdx, Option.map_map]
    refine congrArg (Option.map · s.links[c]?) (funext fun l => ?_)
    simp only [Function.comp_apply]
    split <;> rfl
  rw [State.attempts, State.attempts, tally, tally, hsame]

lemma Inv.close (hi : Inv σ H U s) : Inv σ H U s.close := by
  have hlinks := hi.getElem?_close
  have hwarm : ∀ a, s.close.warm a = [] := fun a => by simp [State.close, State.warm]
  have hlater : ∀ l : Link,
      l.Later (if l.holder = .pool then { l with holder := .nobody } else l) := by
    intro l
    split
    · exact l.later_pass _
    · exact .refl l
  constructor
  case ok =>
    intro c l' hl'
    obtain ⟨l, hl, rfl⟩ := (hlinks c l').mp hl'
    split
    · exact (hi.ok c l hl).pass
    · exact hi.ok c l hl
  case kept =>
    intro c l' hl'
    obtain ⟨l, hl, rfl⟩ := (hlinks c l').mp hl'
    split
    · trivial
    · exact hi.kept c l hl
  case pool =>
    intro a c
    rw [hwarm]
    simp only [List.not_mem_nil, false_iff, not_exists]
    rintro l' ⟨hl', -, hpool⟩
    obtain ⟨l, hl, rfl⟩ := (hlinks c l').mp hl'
    split at hpool
    · cases hpool
    · exact absurd hpool ‹_›
  case bounded =>
    intro a
    rw [hwarm]
    exact ⟨List.nodup_nil, Nat.zero_le _⟩
  case held =>
    intro k d c hk hc
    obtain ⟨l, hl, hholder⟩ := hi.held k d c hk hc
    exact ⟨l, (hlinks c l).mpr ⟨l, hl, by simp [hholder]⟩, hholder⟩
  case small => exact hi.small
  case returned =>
    intro k d v hk hv
    obtain ⟨hsend, c, l, hl, haddr, hgot⟩ := hi.returned k d v hk hv
    exact ⟨hsend, c, _, (hlinks c _).mpr ⟨l, hl, rfl⟩, (hlater l).addr.trans haddr,
      hgot.later (hlater l)⟩
  case sent =>
    intro c l' hl'
    obtain ⟨l, hl, rfl⟩ := (hlinks c l').mp hl'
    split <;> exact hi.sent c l hl
  case tries =>
    intro j b
    rw [attempts_close]
    exact hi.tries j b

lemma attempts_send (l : Link) (k : ℕ) (reused : Bool) (r : Request) (n j : ℕ) (b : Bool) :
    (l.send k reused r n).attempts j b =
      l.attempts j b + if j = k ∧ b = reused then 1 else 0 := by
  simp only [Link.attempts, Link.send, List.countP_append, List.countP_singleton,
    decide_eq_true_eq, @eq_comm _ k, @eq_comm _ reused]

lemma mem_requests_send {l : Link} {k : ℕ} {reused : Bool} {r : Request} {n : ℕ} {x : Attempt}
    (h : x ∈ (l.send k reused r n).requests) : x ∈ l.requests ∨ x.call = k ∧ r = x.request := by
  rcases List.mem_append.mp h with h | h
  · exact .inl h
  · cases List.mem_singleton.mp h
    exact .inr ⟨rfl, rfl⟩

/-- On the tries of a call whose step sends nothing. -/
lemma tries_of_requests_eq {q : Phase} (hreq : l'.requests = l.requests)
    (h : ∀ b, q.tries b ≤ p.tries b) (j : ℕ) (b : Bool) :
    l'.attempts j b + (if j = k then q.tries b else 0) ≤
      l.attempts j b + if j = k then p.tries b else 0 := by
  rw [Link.attempts, Link.attempts, hreq]
  apply Nat.add_le_add_left
  split
  · exact h b
  · exact le_rfl

/-- **A call sends its request**, or the beginning of it. -/
lemma Inv.sends (hi : Inv σ H U s) (hk : s.calls[k]? = some d) {reused : Bool}
    (hd : d.phase = .sending c reused) (hl : s.links[c]? = some l) {n : ℕ}
    (hp : p = .broken c reused ∨ p = .awaiting c reused ∧ n = d.request.encode.length) :
    Inv σ H U ((s.setLink c (l.send k reused d.request n)).setCall k d p) := by
  have hlink : d.phase.link = some c := by rw [hd]; rfl
  obtain ⟨hholder, -, hready⟩ := hi.holds hk hlink hl
  rw [hd] at hready
  have hholds : p.link = some c ∧ (l.send k reused d.request n).Holds k d.request p := by
    rcases hp with rfl | ⟨rfl, rfl⟩
    · exact ⟨rfl, trivial⟩
    · exact ⟨rfl, hready.send _ _⟩
  have htries : ∀ b, p.tries b =
      (Phase.sending c reused).tries b + if b = reused then 1 else 0 := by
    intro b
    rcases hp with rfl | ⟨rfl, -⟩ <;> cases reused <;> cases b <;> rfl
  have hok : (l.send k reused d.request n).Ok σ H U :=
    (hi.ok c l hl).send hready (hi.small d (List.mem_of_getElem? hk)) reused n
  refine hi.onLink hk hlink hl (l.later_send k reused d.request n) hok
    (.inl ⟨hholds.1, hholder, hholds.2⟩) (fun v hv => ?_) (fun _ => mem_requests_send)
    fun j b => ?_
  · rcases hp with rfl | ⟨rfl, -⟩ <;> cases hv
  · rw [attempts_send, hd, htries]
    by_cases hj : j = k
    · simp only [hj, true_and, if_true]
      omega
    · simp [hj]

/-- **A call that meets an error** still has its connection, and will close it. -/
lemma Inv.breaks (hi : Inv σ H U s) (hk : s.calls[k]? = some d) (hlink : d.phase.link = some c)
    (hl : s.links[c]? = some l) {reused : Bool}
    (htries : ∀ b, d.phase.tries b ≤ (Phase.broken c reused).tries b) :
    Inv σ H U ((s.setLink c l).setCall k d (.broken c reused)) := by
  obtain ⟨hholder, -, -⟩ := hi.holds hk hlink hl
  exact hi.onLink hk hlink hl (.refl l) (hi.ok c l hl) (.inl ⟨rfl, hholder, trivial⟩) (by simp)
    (fun _ => .inl) (tries_of_requests_eq rfl htries)

lemma Inv.receive (hi : Inv σ H U s) (hk : s.calls[k]? = some d) {reused : Bool}
    (hd : d.phase = .awaiting c reused) (hl : s.links[c]? = some l) {n off : ℕ} {v : Value}
    (hdec : Protocol.decode (l.output.take n) l.read = .ok (v, off)) :
    Inv σ H U ((s.setLink c { l with read := off }).setCall k d (.replied c v)) := by
  have hlink : d.phase.link = some c := by rw [hd]; rfl
  obtain ⟨hholder, -, hawaits⟩ := hi.holds hk hlink hl
  rw [hd] at hawaits
  have hok := hi.ok c l hl
  obtain ⟨hsend, hready, hgot⟩ := hawaits.receive hok hdec
  refine hi.onLink hk hlink hl ⟨rfl, List.prefix_rfl, List.prefix_rfl⟩ { hok with }
    (.inl ⟨rfl, hholder, hready, hsend, hgot⟩) (by simp) (fun _ => .inl)
    (tries_of_requests_eq rfl fun b => ?_)
  exact Phase.tries_le b _

/-- **A call gives its connection up**, and goes on without one or returns. -/
lemma Inv.drop (hi : Inv σ H U s) (hk : s.calls[k]? = some d) (hlink : d.phase.link = some c)
    (hl : s.links[c]? = some l) (hp : p.link = none)
    (hgot : ∀ v, p = .returned v → v.Sendable ∧ l.Got k d.request v)
    (htries : ∀ b, d.phase.tries b ≤ p.tries b) :
    Inv σ H U ((s.setLink c { l with holder := .nobody }).setCall k d p) :=
  hi.onLink hk hlink hl (l.later_pass .nobody) (hi.ok c l hl).pass (.inr ⟨hp, rfl⟩) hgot
    (fun _ => .inl) (tries_of_requests_eq rfl htries)

lemma Inv.callStep (hi : Inv σ H U s) (hk : s.calls[k]? = some d) {a : CallStep}
    (h : callStep s k d a = some u) : Inv σ H U u := by
  cases a with
  | getIdle =>
    simp only [Peer.callStep] at h
    split at h
    · rename_i hd
      split at h
      · rename_i c hlast
        obtain ⟨l, hl, rfl⟩ := Option.map_eq_some_iff.mp h
        have hw : s.warm d.addr = (s.warm d.addr).dropLast ++ [c] := by
          obtain ⟨ys, hys⟩ := List.getLast?_eq_some_iff.mp hlast
          rw [hys, List.dropLast_concat]
        exact hi.take hk hd hw hl
      · cases h
        exact hi.onCall hk (by rw [hd]; rfl) rfl (by simp)
          (fun b => by rw [hd]; exact Nat.zero_le _)
    · cases h
  | dial ok =>
    simp only [Peer.callStep] at h
    split at h
    · rename_i hd
      split at h
      · cases h
        exact hi.dial hk hd
      · cases h
        exact hi.onCall hk (by rw [hd]; rfl) rfl (by simp) (fun b => Phase.tries_le b _)
    · cases h
  | send =>
    simp only [Peer.callStep] at h
    split at h
    · rename_i c reused hd
      obtain ⟨l, hl, rfl⟩ := Option.map_eq_some_iff.mp h
      exact hi.sends hk hd hl (.inr ⟨rfl, rfl⟩)
    · cases h
  | sendFails n =>
    simp only [Peer.callStep] at h
    split at h
    · rename_i c reused hd
      obtain ⟨l, hl, rfl⟩ := Option.map_eq_some_iff.mp h
      exact hi.sends hk hd hl (.inl rfl)
    · cases h
  | receive n =>
    simp only [Peer.callStep] at h
    split at h
    · rename_i c reused hd
      obtain ⟨l, hl, h⟩ := Option.bind_eq_some_iff.mp h
      split at h
      · rename_i v off hdec
        cases h
        exact hi.receive hk hd hl hdec
      · cases h
      · cases h
        exact hi.breaks hk (by rw [hd]; rfl) hl fun b => by rw [hd]; cases reused <;> exact le_rfl
    · cases h
  | giveUp =>
    simp only [Peer.callStep] at h
    split at h
    · rename_i c reused hd
      obtain ⟨l, hl, rfl⟩ := Option.map_eq_some_iff.mp h
      refine hi.breaks hk (by rw [hd]; rfl) hl fun b => ?_
      rw [hd]
      cases reused <;> cases b <;> simp [Phase.tries]
    · rename_i c reused hd
      obtain ⟨l, hl, rfl⟩ := Option.map_eq_some_iff.mp h
      exact hi.breaks hk (by rw [hd]; rfl) hl fun b => by rw [hd]; cases reused <;> exact le_rfl
    · cases h
  | close =>
    simp only [Peer.callStep] at h
    split at h
    · rename_i c reused hd
      obtain ⟨l, hl, rfl⟩ := Option.map_eq_some_iff.mp h
      refine hi.drop hk (by rw [hd]; rfl) hl (by cases reused <;> rfl)
        (by cases reused <;> simp) fun b => ?_
      rw [hd]
      cases reused <;> exact le_rfl
    · cases h
  | put =>
    simp only [Peer.callStep] at h
    split at h
    · rename_i c v hd
      obtain ⟨l, hl, rfl⟩ := Option.map_eq_some_iff.mp h
      split
      · have hlink : d.phase.link = some c := by rw [hd]; rfl
        obtain ⟨-, -, hholds⟩ := hi.holds hk hlink hl
        rw [hd] at hholds
        refine hi.drop hk hlink hl rfl (fun w hw => ?_) fun b => Phase.tries_le b _
        cases hw
        exact hholds.2
      · exact hi.put hk hd hl (Nat.lt_of_not_le ‹_›)
    · cases h

/-- **Every step keeps the invariant.** -/
lemma Inv.step (hi : Inv σ H U s) {a : Action σ} (h : step H U s a = some u) : Inv σ H U u := by
  cases a with
  | begin addr r =>
    obtain ⟨hsmall, h⟩ := Option.ite_none_right_eq_some.mp h
    cases h
    exact hi.begin hsmall
  | call k a =>
    obtain ⟨d, hk, h⟩ := Option.bind_eq_some_iff.mp h
    exact hi.callStep hk h
  | close =>
    cases h
    exact hi.close
  | serve c n h' amb =>
    obtain ⟨l, hl, h⟩ := Option.bind_eq_some_iff.mp h
    obtain ⟨l', hl', rfl⟩ := Option.map_eq_some_iff.mp h
    exact hi.serve hl hl'
  | hangUp c =>
    obtain ⟨l, hl, rfl⟩ := Option.map_eq_some_iff.mp h
    exact hi.hangUp hl

variable (σ H U) in
/-- `s` is a state of a node's calls to its peers, under some interleaving. -/
def Reachable (s : State) : Prop := Steps (step (σ := σ) H U) (fun _ _ => True) .initial s

lemma Reachable.inv (h : Reachable σ H U s) : Inv σ H U s :=
  h.invariant (I := Inv σ H U) .initial fun _ _ _ hi _ hstep => hi.step hstep

/-! ### What a caller can rely on -/

/-- **A call returns the reply to its own request.** Whatever else the node asks of its peers
meanwhile, and whichever connections are reused, time out, break in the middle of a request or are
closed from the other end: a reply that a call returns is what the peer it asked has replied to this
very request, as a call on a connection of its own would have got it. The one exception is a request
over the limits of the decoder, which the peer refuses. -/
theorem call_gets_its_own_reply (h : Reachable σ H U s) (hk : s.calls[k]? = some d) {v : Value}
    (hv : d.phase = .returned v) :
    (∃ (c : ℕ) (l : Link), s.links[c]? = some l ∧ l.addr = d.addr ∧ l.Got k d.request v) ∧
    ((∃ (peer : Handler σ) (amb : Ambient), (call H peer amb d.request.command).1 = .ok v) ∨
      ¬ Sendable d.request.command ∧ ∃ e, v = .error (ascii "ERR " ++ protocolText U e)) := by
  have hi := h.inv
  obtain ⟨hsend, c, l, hl, haddr, hgot⟩ := hi.returned k d v hk hv
  refine ⟨⟨c, l, hl, haddr, hgot⟩, ?_⟩
  obtain ⟨j, reused, hreq, hrep⟩ := hgot
  obtain ⟨r, hr, hans⟩ := (hi.ok c l hl).answers j v hrep
  cases hreq.symm.trans hr
  rcases hans with ⟨hcmd, peer, amb, hreply⟩ | hrefused
  · refine .inl ⟨peer, amb, ?_⟩
    have hargs : (d.request.command.args.all fun a => a.length ≤ maxBulkSize) = true := by
      simpa using fun a ha => hcmd.sizes a (List.mem_cons_of_mem _ ha)
    have hdeliver : deliverable v = true := by
      cases hsend with
      | bulk hlen => simpa [deliverable] using hlen
      | _ => rfl
    simp [Server.call, hargs, hreply, hdeliver]
  · exact .inr hrefused

/-- **A connection has one owner.** The pool keeps at most eight connections to a peer, all of them
to that peer, with every reply read and nothing outstanding; no two calls have the same connection,
and none has one that is in the pool; and no connection is forgotten: one that is open is in the
pool or with a call that has not returned. -/
theorem connections_have_one_owner (h : Reachable σ H U s) :
    (∀ a, (s.warm a).Nodup ∧ (s.warm a).length ≤ maxIdlePerPeer ∧ ∀ c ∈ s.warm a,
      (∃ l, s.links[c]? = some l ∧ l.addr = a ∧ l.Ready) ∧
      ∀ (k : ℕ) (d : Call), s.calls[k]? = some d → d.phase.link ≠ some c) ∧
    (∀ (k k' : ℕ) (d d' : Call) (c : ℕ), s.calls[k]? = some d → s.calls[k']? = some d' →
      d.phase.link = some c → d'.phase.link = some c → k = k') ∧
    ∀ (c : ℕ) (l : Link), s.links[c]? = some l → l.holder ≠ .nobody →
      c ∈ s.warm l.addr ∨ ∃ (k : ℕ) (d : Call), s.calls[k]? = some d ∧ d.phase.link = some c := by
  have hi := h.inv
  refine ⟨fun a => ⟨(hi.bounded a).1, (hi.bounded a).2, fun c hc => ?_⟩, ?_, fun c l hl hopen => ?_⟩
  · obtain ⟨l, hl, haddr, hpool⟩ := (hi.pool a c).mp hc
    have hkept := hi.kept c l hl
    rw [Link.Kept, hpool] at hkept
    refine ⟨⟨l, hl, haddr, hkept⟩, fun k d hk hlink => ?_⟩
    obtain ⟨m, hm, hholder⟩ := hi.held k d c hk hlink
    cases hl.symm.trans hm
    cases hpool.symm.trans hholder
  · intro k k' d d' c hk hk' hc hc'
    obtain ⟨l, hl, hholder⟩ := hi.held k d c hk hc
    obtain ⟨m, hm, hholder'⟩ := hi.held k' d' c hk' hc'
    cases hl.symm.trans hm
    exact Holder.call.inj (hholder.symm.trans hholder')
  · have hkept := hi.kept c l hl
    unfold Link.Kept at hkept
    split at hkept
    · exact .inl ((hi.pool l.addr c).mpr ⟨l, hl, rfl, ‹_›⟩)
    · rename_i k hk
      obtain ⟨d, hd, hlink, -⟩ := hkept
      exact .inr ⟨k, d, hd, hlink⟩
    · exact absurd ‹_› hopen

/-- How many times the handler of the peer at `addr` was given the command. -/
def State.executed (s : State) (addr : Bytes) (cmd : Command) : ℕ :=
  tally (fun l => if l.addr = addr then l.handled.count cmd else 0) s.links

/-- How many calls asked the peer at `addr` for it. -/
def State.asked (s : State) (addr : Bytes) (cmd : Command) : ℕ :=
  s.calls.countP fun d => d.addr = addr ∧ d.request.command = cmd

/-- The calls that did, with both ways of sending a request. -/
def State.askers (s : State) (addr : Bytes) (cmd : Command) : Finset (ℕ × Bool) :=
  {k ∈ Finset.range s.calls.length | s.calls[k]?.any fun d =>
    d.addr = addr ∧ d.request.command = cmd} ×ˢ Finset.univ

lemma card_askers (s : State) (addr : Bytes) (cmd : Command) :
    (s.askers addr cmd).card = 2 * s.asked addr cmd := by
  rw [State.askers, Finset.card_product, card_places, Finset.card_univ, Fintype.card_bool,
    Nat.mul_comm, State.asked]

lemma Inv.count_handled_le (hi : Inv σ H U s) (hl : l ∈ s.links) (cmd : Command) :
    l.handled.count cmd ≤ ∑ kb ∈ s.askers l.addr cmd, l.attempts kb.1 kb.2 := by
  obtain ⟨c, hc⟩ := List.mem_iff_getElem?.mp hl
  calc l.handled.count cmd
      ≤ (l.requests.map fun r => r.request.command).count cmd :=
        (hi.ok c l hc).handled.sublist.count_le cmd
    _ = l.requests.countP fun r => r.request.command = cmd := by
        rw [List.count, List.countP_map]
        rfl
    _ ≤ ∑ kb ∈ s.askers l.addr cmd, l.requests.countP fun r => (r.call, r.reused) = kb := by
        refine countP_le_sum (fun r : Attempt => (r.call, r.reused)) fun r hr hcmd => ?_
        obtain ⟨d, hd, haddr, hreq⟩ := hi.sent c l hc r hr
        have hlt := (List.getElem?_eq_some_iff.mp hd).1
        rw [State.askers, Finset.mem_product, Finset.mem_filter, Finset.mem_range]
        refine ⟨⟨hlt, ?_⟩, Finset.mem_univ _⟩
        rw [hd]
        simpa [haddr, hreq] using hcmd
    _ = _ := by simp only [Link.attempts, Prod.ext_iff]

/-- **A request is sent at most once on a connection from the pool and at most once on a fresh
one**, however the connections fail. A peer handles the requests on a connection in the order in
which they were sent, each at most once; and so, over all connections, it executes a command at most
twice for each call that asks for it. -/
theorem request_sent_at_most_twice (h : Reachable σ H U s) :
    (∀ k reused, s.attempts k reused ≤ 1) ∧
    (∀ l ∈ s.links, l.handled <+: l.requests.map fun r => r.request.command) ∧
    ∀ addr cmd, s.executed addr cmd ≤ 2 * s.asked addr cmd := by
  have hi := h.inv
  have htries : ∀ k reused, s.attempts k reused ≤ 1 := by
    intro k reused
    refine (hi.tries k reused).trans ?_
    cases hk : s.calls[k]? with
    | none => exact Nat.zero_le _
    | some d => exact d.phase.tries_le reused
  refine ⟨htries, fun l hl => ?_, fun addr cmd => ?_⟩
  · obtain ⟨c, hc⟩ := List.mem_iff_getElem?.mp hl
    exact (hi.ok c l hc).handled
  · calc s.executed addr cmd
        ≤ tally (fun l => ∑ kb ∈ s.askers addr cmd, l.attempts kb.1 kb.2) s.links := by
          refine tally_le_tally fun l hl => ?_
          split
          · rename_i haddr
            exact haddr ▸ hi.count_handled_le hl cmd
          · exact Nat.zero_le _
      _ = ∑ kb ∈ s.askers addr cmd, s.attempts kb.1 kb.2 := tally_sum _ _ _
      _ ≤ ∑ kb ∈ s.askers addr cmd, 1 := Finset.sum_le_sum fun kb _ => htries kb.1 kb.2
      _ = 2 * s.asked addr cmd := by rw [Finset.sum_const, card_askers, smul_eq_mul, Nat.mul_one]

end Steps

/-! ### A call that is sent twice -/

/-- A call is answered and its connection put back. The peer hangs up, and the next call finds that
out only when it gets no reply. -/
def resent : List (Action Unit) :=
  [.begin (ascii "a:1") (.get (ascii "k")), .call 0 .getIdle, .call 0 (.dial true), .call 0 .send,
    .serve 0 100 lone default, .call 0 (.receive 100), .call 0 .put, .hangUp 0,
    .begin (ascii "a:1") (.get (ascii "k")), .call 1 .getIdle, .call 1 .send, .call 1 .giveUp,
    .call 1 .close, .call 1 (.dial true), .call 1 .send, .serve 1 100 lone default,
    .call 1 (.receive 100), .call 1 .put]

lemma exists_resent (p : State → Bool)
    (hp : (exec (step sha256 latin1) (fun _ _ => true) .initial resent).any p = true) :
    ∃ s, Reachable Unit sha256 latin1 s ∧ p s = true := by
  obtain ⟨s, hs, hps⟩ := (Option.any_eq_true _ _).mp hp
  exact ⟨s, .of_exec_true hs, hps⟩

theorem call_gets_its_own_reply_resent : ∃ (s : State) (d : Call),
    s.calls[1]? = some d ∧ d.phase = .returned (.bulkString none) ∧
    ∃ (c : ℕ) (l : Link), s.links[c]? = some l ∧ l.addr = d.addr ∧
      l.Got 1 d.request (.bulkString none) := by
  obtain ⟨s, hs, htest⟩ := exists_resent
    (fun s => s.calls[1]?.any fun d => d.phase == .returned (.bulkString none)) (by decide +kernel)
  simp only [Option.any_eq_true, beq_iff_eq] at htest
  obtain ⟨d, hd, hphase⟩ := htest
  exact ⟨s, d, hd, hphase, (call_gets_its_own_reply hs hd hphase).1⟩

theorem connections_have_one_owner_resent : ∃ (s : State) (c : ℕ),
    c ∈ s.warm (ascii "a:1") ∧ ∃ l, s.links[c]? = some l ∧ l.addr = ascii "a:1" ∧ l.Ready := by
  obtain ⟨s, hs, htest⟩ := exists_resent (fun s => s.warm (ascii "a:1") == [1]) (by decide +kernel)
  have hmem : 1 ∈ s.warm (ascii "a:1") := by simp [beq_iff_eq.mp htest]
  exact ⟨s, 1, hmem, (((connections_have_one_owner hs).1 (ascii "a:1")).2.2 1 hmem).1⟩

theorem request_sent_at_most_twice_resent : ∃ s : State,
    (s.attempts 1 true = 1 ∧ s.attempts 1 false = 1 ∧
      s.executed (ascii "a:1") ⟨ascii "RGET", [ascii "k"]⟩ = 2) ∧
    (∀ k reused, s.attempts k reused ≤ 1) ∧
    (∀ l ∈ s.links, l.handled <+: l.requests.map fun r => r.request.command) ∧
    ∀ addr cmd, s.executed addr cmd ≤ 2 * s.asked addr cmd := by
  obtain ⟨s, hs, htest⟩ := exists_resent (fun s => s.attempts 1 true == 1 &&
    (s.attempts 1 false == 1 && s.executed (ascii "a:1") ⟨ascii "RGET", [ascii "k"]⟩ == 2))
    (by decide +kernel)
  simp only [Bool.and_eq_true, beq_iff_eq] at htest
  exact ⟨s, htest, request_sent_at_most_twice hs⟩

end Kyria.Server.Peer
