import Kyria.Lib.Handshake
import Kyria.Server.Shutdown
import Kyria.Lib.Cursor

/-!
A node: the background loops, the server, and the goroutine of `main` that starts and stops them.

Each loop is a group of goroutines with a stop channel, and its `Stop` is the handshake of
`Kyria.Lib.Handshake`: the body of a loop is a piece of work of its goroutine. `main` waits for a
signal, stops the loops in order, releases the pooled connections of `peer` and closes the server.
-/

namespace Kyria.Node

open Kyria.Lib Kyria.Lib.Cursor Kyria.Lib.Runs
open Kyria.Server

/-- What `main` reads of the configuration to decide what it starts. The intervals are in
nanoseconds. -/
structure Config where
  maxConns : ℕ := 0
  reapInterval : ℤ := 1000000000
  gossipAddr : Bytes := []
  gossipInterval : ℤ := 0
  rebuildInterval : ℤ := 1000000000
  hintReplayerInterval : ℤ := 1000000000
  antiEntropyInterval : ℤ := 0
  tombstoneGCInterval : ℤ := 0

/-- The loops, in the order in which `main` stops them. -/
inductive Loop
  | janitor
  | gossiper
  | router
  | replayer
  | antiEntropy
  | tombstoneGC
  deriving DecidableEq, Repr

namespace Config

variable (cfg : Config)

/-- Whether `main` starts the loop. -/
def starts : Loop → Bool
  | .janitor => 0 < cfg.reapInterval
  | .gossiper | .router | .replayer => cfg.gossipAddr ≠ []
  | .antiEntropy => cfg.gossipAddr ≠ [] ∧ 0 < cfg.antiEntropyInterval
  | .tombstoneGC => cfg.gossipAddr ≠ [] ∧ 0 < cfg.tombstoneGCInterval

def loops : List Loop :=
  [.janitor, .gossiper, .router, .replayer, .antiEntropy, .tombstoneGC].filter cfg.starts

/-- The interval of the loop's ticker; the gossiper has a default of a second. -/
def interval : Loop → ℤ
  | .janitor => cfg.reapInterval
  | .gossiper => if 0 < cfg.gossipInterval then cfg.gossipInterval else 1000000000
  | .router => cfg.rebuildInterval
  | .replayer => cfg.hintReplayerInterval
  | .antiEntropy => cfg.antiEntropyInterval
  | .tombstoneGC => cfg.tombstoneGCInterval

end Config

/-- One goroutine, which selects between its ticker and its stop channel. -/
def single : Handshake.State := Handshake.start 1 [{ wait := .select, signal := 0 }]

/-- `Stop` of the gossiper closes the stop channel, which ends `gossipLoop`, and then the
connection, which ends `receiveLoop`. -/
def gossiper : Handshake.State :=
  Handshake.start 2 [{ wait := .read, signal := 1 }, { wait := .select, signal := 0 }]

def Loop.start : Loop → Handshake.State
  | .gossiper => Node.gossiper
  | .janitor | .router | .replayer | .antiEntropy | .tombstoneGC => single

/-- Where `main` stands. -/
inductive Main
  /-- It waits for the signal, or for `Serve` to fail. -/
  | serving
  /-- `Stop` of loop `i` is next, or `peer.Close` where there is no such loop. -/
  | stopping (i : ℕ)
  /-- In `Stop` of loop `i`. -/
  | draining (i : ℕ)
  /-- `srv.Close` is next. -/
  | closing
  /-- In `srv.Close`, which is call `k` of it. -/
  | waiting (k : ℕ)
  | returned
  /-- `os.Exit`, after `Serve` has failed. -/
  | exited
  deriving DecidableEq, Repr

structure State where
  loops : List Handshake.State
  server : Lifecycle.State
  peerClosed : Bool
  main : Main
  deriving DecidableEq

/-- A node as it begins to serve. A ticker with an interval that is not positive panics. -/
def start (cfg : Config) : Option State :=
  if ∀ l ∈ cfg.loops, 0 < cfg.interval l then
    some { loops := cfg.loops.map Loop.start, server := .initial, peerClosed := false,
           main := .serving }
  else none

inductive Action
  | loop (i : ℕ) (a : Handshake.Action)
  | server (a : Lifecycle.Action)
  /-- The signal arrives. -/
  | signal
  | serveFailed
  /-- `main` goes on. -/
  | main

def mainStep (cfg : Config) (s : State) : Option State :=
  match s.main with
  | .stopping i =>
    match s.loops[i]? with
    | some g => (Handshake.step g .call).map fun g' =>
        { s with loops := s.loops.set i g', main := .draining i }
    | none => some { s with peerClosed := cfg.gossipAddr ≠ [], main := .closing }
  | .draining i =>
    if ∃ g ∈ s.loops[i]?, g.callers[0]? = some .returned then
      some { s with main := .stopping (i + 1) }
    else none
  | .closing => (Lifecycle.step cfg.maxConns s.server .callClose).map fun v =>
      { s with server := v, main := .waiting s.server.closers.length }
  | .waiting k =>
    if s.server.closers[k]? = some .returned then some { s with main := .returned } else none
  | .serving | .returned | .exited => none

/-- What the goroutines of a running process do. Nobody but `main` stops a loop or closes the
server. -/
def act (cfg : Config) (s : State) : Action → Option State
  | .loop i a =>
    if a = .call then none
    else s.loops[i]?.bind fun g => (Handshake.step g a).map fun g' =>
      { s with loops := s.loops.set i g' }
  | .server a =>
    if a = .callClose then none
    else (Lifecycle.step cfg.maxConns s.server a).map fun v => { s with server := v }
  | .signal => if s.main = .serving then some { s with main := .stopping 0 } else none
  | .serveFailed =>
    if s.main = .serving ∧ s.server.serve = .returned then some { s with main := .exited } else none
  | .main => mainStep cfg s

/-- The process ends with `main`. -/
def State.Alive (s : State) : Prop := s.main ≠ .returned ∧ s.main ≠ .exited

instance (s : State) : Decidable s.Alive := inferInstanceAs (Decidable (_ ∧ _))

def step (cfg : Config) (s : State) (a : Action) : Option State :=
  if s.Alive then act cfg s a else none

variable {cfg : Config} {s t u : State} {i j k : ℕ}

/-- What each action does, with its guards. -/
inductive Took (cfg : Config) (s : State) : Action → State → Prop
  | loop {i : ℕ} {a : Handshake.Action} {g g' : Handshake.State} (ha : a ≠ .call)
      (hg : s.loops[i]? = some g) (h : Handshake.step g a = some g') :
      Took cfg s (.loop i a) { s with loops := s.loops.set i g' }
  | server {a : Lifecycle.Action} {v : Lifecycle.State} (ha : a ≠ .callClose)
      (h : Lifecycle.step cfg.maxConns s.server a = some v) :
      Took cfg s (.server a) { s with server := v }
  | signal (hmain : s.main = .serving) : Took cfg s .signal { s with main := .stopping 0 }
  | serveFailed (hmain : s.main = .serving) : Took cfg s .serveFailed { s with main := .exited }
  | stop {i : ℕ} {g : Handshake.State} (hmain : s.main = .stopping i) (hg : s.loops[i]? = some g) :
      Took cfg s .main
        { s with loops := s.loops.set i { g with callers := g.callers ++ [.calling] }
                 main := .draining i }
  | release {i : ℕ} (hmain : s.main = .stopping i) (hg : s.loops[i]? = none) :
      Took cfg s .main { s with peerClosed := cfg.gossipAddr ≠ [], main := .closing }
  | drained {i : ℕ} {g : Handshake.State} (hmain : s.main = .draining i)
      (hg : s.loops[i]? = some g) (hret : g.callers[0]? = some .returned) :
      Took cfg s .main { s with main := .stopping (i + 1) }
  | close (hmain : s.main = .closing) :
      Took cfg s .main
        { s with server := { s.server with closers := s.server.closers ++ [.entered] }
                 main := .waiting s.server.closers.length }
  | back {k : ℕ} (hmain : s.main = .waiting k) (hk : s.server.closers[k]? = some .returned) :
      Took cfg s .main { s with main := .returned }

lemma took_of_mainStep (h : mainStep cfg s = some u) : Took cfg s .main u := by
  unfold mainStep at h
  split at h
  · split at h
    · cases h
      exact .stop ‹_› ‹_›
    · cases h
      exact .release ‹_› ‹_›
  · obtain ⟨⟨g, hg, hret⟩, h⟩ := Option.ite_none_right_eq_some.mp h
    cases h
    exact .drained ‹_› (Option.mem_def.mp hg) hret
  · cases h
    exact .close ‹_›
  · obtain ⟨hk, h⟩ := Option.ite_none_right_eq_some.mp h
    cases h
    exact .back ‹_› hk
  · cases h
  · cases h
  · cases h

lemma took_of_step {a : Action} (h : step cfg s a = some u) : Took cfg s a u := by
  obtain ⟨-, h⟩ := Option.ite_none_right_eq_some.mp h
  cases a with
  | loop i a =>
    obtain ⟨ha, h⟩ := Option.ite_none_left_eq_some.mp h
    obtain ⟨g, hg, h⟩ := Option.bind_eq_some_iff.mp h
    obtain ⟨g', hg', rfl⟩ := Option.map_eq_some_iff.mp h
    exact .loop ha hg hg'
  | server a =>
    obtain ⟨ha, h⟩ := Option.ite_none_left_eq_some.mp h
    obtain ⟨v, hv, rfl⟩ := Option.map_eq_some_iff.mp h
    exact .server ha hv
  | signal =>
    obtain ⟨hmain, h⟩ := Option.ite_none_right_eq_some.mp h
    cases h
    exact .signal hmain
  | serveFailed =>
    obtain ⟨hmain, h⟩ := Option.ite_none_right_eq_some.mp h
    cases h
    exact .serveFailed hmain.1
  | main => exact took_of_mainStep h

/-! ### The invariant -/

/-- `main` has called `Stop` of loop `j`. -/
def Main.called (j : ℕ) : Main → Bool
  | .serving | .exited => false
  | .stopping i => j < i
  | .draining i => j ≤ i
  | .closing | .waiting _ | .returned => true

/-- `Stop` of loop `j` has returned to `main`. -/
def Main.drained (j : ℕ) : Main → Bool
  | .serving | .exited => false
  | .stopping i | .draining i => j < i
  | .closing | .waiting _ | .returned => true

structure Inv (cfg : Config) (s : State) : Prop where
  loop : ∀ g ∈ s.loops, Handshake.Inv g
  server : Lifecycle.Inv cfg.maxConns s.server
  calls : ∀ j g, s.loops[j]? = some g → g.callers.length = (s.main.called j).toNat
  drained : ∀ j g, s.loops[j]? = some g → s.main.drained j = true → .returned ∈ g.callers
  peer : s.peerClosed = true → ∀ j, s.main.drained j = true
  draining : ∀ i, s.main = .draining i → i < s.loops.length
  waiting : ∀ k, s.main = .waiting k → k < s.server.closers.length
  returned : s.main = .returned → ∃ k : ℕ, s.server.closers[k]? = some .returned

lemma inv_loop_start (l : Loop) : Handshake.Inv l.start := by
  cases l <;> exact Handshake.inv_start (by simp) (by simp)

lemma inv_start (h : start cfg = some s) : Inv cfg s := by
  obtain ⟨-, h⟩ := Option.ite_none_right_eq_some.mp h
  cases h
  refine ⟨fun g hg => ?_, .initial, fun j g hj => ?_, by simp [Main.drained], by simp, by simp,
    by simp, by simp⟩
  · obtain ⟨l, -, rfl⟩ := List.mem_map.mp hg
    exact inv_loop_start l
  · obtain ⟨l, -, rfl⟩ := List.mem_map.mp (List.mem_of_getElem? hj)
    cases l <;> rfl

lemma Inv.setLoop (hi : Inv cfg s) {g g' : Handshake.State} {m : Main} (hg : s.loops[i]? = some g)
    (hg' : Handshake.Inv g') (hcalls : g'.callers.length = (m.called i).toNat)
    (hret : m.drained i = true → .returned ∈ g'.callers)
    (hcalled : ∀ j ≠ i, m.called j = s.main.called j)
    (hdrained : ∀ j, m.drained j = s.main.drained j)
    (hin : ∀ j, m = .draining j → j = i ∨ s.main = .draining j)
    (hwait : ∀ k, m = .waiting k → s.main = .waiting k)
    (hback : m = .returned → s.main = .returned) :
    Inv cfg { s with loops := s.loops.set i g', main := m } := by
  have hlt := (List.getElem?_eq_some_iff.mp hg).1
  refine ⟨fun v hv => ?_, hi.server, fun j v hj => ?_, fun j v hj hd => ?_, fun hp j => ?_,
    fun j hj => ?_, fun k hk => hi.waiting k (hwait k hk), fun hm => hi.returned (hback hm)⟩
  · rcases List.mem_or_eq_of_mem_set hv with hv | rfl
    · exact hi.loop v hv
    · exact hg'
  · by_cases hij : i = j
    · subst hij
      cases (List.getElem?_set_self hlt).symm.trans hj
      exact hcalls
    · rw [List.getElem?_set_ne hij] at hj
      exact (hi.calls j v hj).trans (by rw [hcalled j (Ne.symm hij)])
  · by_cases hij : i = j
    · subst hij
      cases (List.getElem?_set_self hlt).symm.trans hj
      exact hret hd
    · rw [List.getElem?_set_ne hij] at hj
      exact hi.drained j v hj ((hdrained j).symm.trans hd)
  · exact (hdrained j).trans (hi.peer hp j)
  · rw [List.length_set]
    rcases hin j hj with rfl | hj
    · exact hlt
    · exact hi.draining j hj

lemma Inv.moveMain (hi : Inv cfg s) {m : Main} {v : Lifecycle.State} {p : Bool}
    (hv : Lifecycle.Inv cfg.maxConns v)
    (hcalled : ∀ j < s.loops.length, m.called j = s.main.called j)
    (hdrained : ∀ j g, s.loops[j]? = some g → m.drained j = true → s.main.drained j = true ∨
      .returned ∈ g.callers)
    (hpeer : p = true → ∀ j, m.drained j = true)
    (hin : ∀ i, m = .draining i → s.main = .draining i)
    (hwait : ∀ k, m = .waiting k → k < v.closers.length)
    (hback : m = .returned → ∃ k : ℕ, v.closers[k]? = some .returned) :
    Inv cfg { s with server := v, peerClosed := p, main := m } := by
  refine ⟨hi.loop, hv, fun j g hj => ?_, fun j g hj hd => ?_, hpeer,
    fun i h => hi.draining i (hin i h), hwait, hback⟩
  · rw [hi.calls j g hj, hcalled j (List.getElem?_eq_some_iff.mp hj).1]
  · exact (hdrained j g hj hd).elim (hi.drained j g hj) id

/-- **Every step keeps the invariant.** -/
lemma Inv.step (hi : Inv cfg s) {a : Action} (h : step cfg s a = some u) : Inv cfg u := by
  cases took_of_step h with
  | @loop i a g g' ha hg hstep =>
    refine hi.setLoop hg ((hi.loop g (List.mem_of_getElem? hg)).step hstep) ?_ (fun hd => ?_)
      (fun _ _ => rfl) (fun _ => rfl) (fun _ => .inr) (fun _ hk => hk) fun hm => hm
    · rw [Handshake.length_callers ha hstep]
      exact hi.calls i g hg
    · exact Handshake.returned_mem_step (hi.drained i g hg hd) hstep
  | @server a v ha hstep =>
    refine hi.moveMain (hi.server.step hstep) (fun _ _ => rfl) (fun _ _ _ hd => .inl hd) hi.peer
      (fun _ hj => hj) (fun k hk => ?_) fun hm => ?_
    · exact (hi.waiting k hk).trans_le (Lifecycle.length_closers_le hi.server hstep)
    · obtain ⟨k, hk⟩ := hi.returned hm
      exact ⟨k, Lifecycle.returned_step hi.server hstep hk⟩
  | signal hmain =>
    refine hi.moveMain hi.server (fun j _ => ?_) (fun j g _ hd => ?_) (fun hp j => ?_)
      (by simp) (by simp) (by simp)
    · simp [hmain, Main.called]
    · simp [Main.drained] at hd
    · exact absurd (hi.peer hp j) (by simp [hmain, Main.drained])
  | serveFailed hmain =>
    refine hi.moveMain hi.server (fun j _ => ?_) (fun j g _ hd => ?_) (fun hp j => ?_)
      (by simp) (by simp) (by simp)
    · simp [hmain, Main.called]
    · simp [Main.drained] at hd
    · exact absurd (hi.peer hp j) (by simp [hmain, Main.drained])
  | @stop i g hmain hg =>
    have hinv := hi.loop g (List.mem_of_getElem? hg)
    refine hi.setLoop hg (hinv.step (a := .call) rfl) ?_ ?_ (fun j hj => ?_) (fun j => ?_)
      (by simp) (by simp) (by simp)
    · have hlen := hi.calls i g hg
      simp only [hmain, Main.called, lt_irrefl, decide_false, Bool.toNat_false] at hlen
      simp [hlen, Main.called]
    · simp [Main.drained]
    · simp only [hmain, Main.called, decide_eq_decide]
      omega
    · simp [hmain, Main.drained]
  | @release i hmain hg =>
    have hlen := List.getElem?_eq_none_iff.mp hg
    refine hi.moveMain hi.server (fun j hj => ?_) (fun j g hj _ => .inl ?_) (fun _ j => rfl)
      (by simp) (by simp) (by simp)
    · simp [hmain, Main.called]
      omega
    · have := (List.getElem?_eq_some_iff.mp hj).1
      simp [hmain, Main.drained]
      omega
  | @drained i g hmain hg hret =>
    refine hi.moveMain hi.server (fun j _ => ?_) (fun j g' hj hd => ?_) (fun hp j => ?_)
      (by simp) (by simp) (by simp)
    · simp [hmain, Main.called]
    · simp only [Main.drained, decide_eq_true_eq] at hd
      rcases Nat.lt_succ_iff_lt_or_eq.mp hd with hlt | rfl
      · exact .inl (by simpa [hmain, Main.drained] using hlt)
      · cases hg.symm.trans hj
        exact .inr (List.mem_of_getElem? hret)
    · exact absurd (hi.peer hp i) (by simp [hmain, Main.drained])
  | close hmain =>
    refine hi.moveMain hi.server.call (fun j _ => ?_) (fun j g _ _ => .inl ?_) (fun _ _ => rfl)
      (by simp) (fun k hk => ?_) (by simp)
    · simp [hmain, Main.called]
    · simp [hmain, Main.drained]
    · cases hk
      simp
  | @back k hmain hk =>
    refine hi.moveMain hi.server (fun j _ => ?_) (fun j g _ _ => .inl ?_) (fun _ _ => rfl)
      (by simp) (by simp) fun _ => ⟨k, hk⟩
    · simp [hmain, Main.called]
    · simp [hmain, Main.drained]

/-- `s` is reached from the start of a node, under some interleaving of its goroutines. -/
def Reachable (cfg : Config) (s : State) : Prop :=
  ∃ s₀, start cfg = some s₀ ∧ Steps (step cfg) (fun _ _ => True) s₀ s

lemma Reachable.inv (h : Reachable cfg s) : Inv cfg s := by
  obtain ⟨s₀, h₀, hrun⟩ := h
  exact hrun.invariant (I := Inv cfg) (inv_start h₀) fun _ _ _ hi _ hstep => hi.step hstep

/-! ### The order of the shutdown -/

/-- Every goroutine of the loop has returned. -/
def Gone (g : Handshake.State) : Prop := ∀ w ∈ g.workers, w.phase = .exited

lemma Inv.gone (hi : Inv cfg s) {g : Handshake.State} (hg : s.loops[j]? = some g)
    (hd : s.main.drained j = true) : Gone g :=
  (hi.loop g (List.mem_of_getElem? hg)).returned (hi.drained j g hg hd)

lemma drained_step {a : Action} (h : step cfg s a = some u) (hd : s.main.drained j = true) :
    u.main.drained j = true := by
  cases took_of_step h with
  | loop | server => exact hd
  | signal hmain | serveFailed hmain => simp [hmain, Main.drained] at hd
  | stop hmain => simpa [hmain, Main.drained] using hd
  | drained hmain =>
    simp only [hmain, Main.drained, decide_eq_true_eq] at hd ⊢
    omega
  | release | close | back => rfl

lemma workers_step (hi : Inv cfg s) {a : Action} (h : step cfg s a = some u)
    {g : Handshake.State} (hg : s.loops[j]? = some g) (hd : s.main.drained j = true) :
    ∃ g', u.loops[j]? = some g' ∧ g'.workers = g.workers := by
  have hset : ∀ {i : ℕ} {g₀ g' : Handshake.State}, s.loops[i]? = some g₀ →
      (i = j → g'.workers = g₀.workers) →
      ∃ g'', (s.loops.set i g')[j]? = some g'' ∧ g''.workers = g.workers := by
    intro i g₀ g' hg₀ hw
    by_cases hij : i = j
    · subst hij
      cases hg₀.symm.trans hg
      exact ⟨g', List.getElem?_set_self (List.getElem?_eq_some_iff.mp hg).1, hw rfl⟩
    · exact ⟨g, by rw [List.getElem?_set_ne hij, hg], rfl⟩
  cases took_of_step h with
  | @loop i a g₀ g' ha hg₀ hstep =>
    refine hset hg₀ ?_
    rintro rfl
    cases hg₀.symm.trans hg
    exact Handshake.workers_of_exited (hi.gone hg hd) hstep
  | stop hmain hg₀ => exact hset hg₀ fun _ => rfl
  | server | signal | serveFailed | release | drained | close | back => exact ⟨g, hg, rfl⟩

/-- **The shutdown keeps its order.** In every reachable state of a node: no stop channel and no
connection of a loop has been closed twice; a loop whose `Stop` has returned to `main` has no
goroutine left and will never run its body again; the pooled connections to the replicas are
released only when all loops have gone; and when `main` returns, so have the loops, and no client is
being served. -/
theorem shutdown_in_order (h : Reachable cfg s) :
    (∀ g ∈ s.loops, ∀ n ∈ g.closes, n ≤ 1) ∧
    (∀ j g, s.loops[j]? = some g → s.main.drained j = true → Gone g ∧
      ∀ t, Steps (step cfg) (fun _ _ => True) s t →
        ∃ g', t.loops[j]? = some g' ∧ g'.workers = g.workers) ∧
    (s.peerClosed = true → ∀ g ∈ s.loops, Gone g) ∧
    (s.main = .returned → (∀ g ∈ s.loops, Gone g) ∧ s.server.live = ∅ ∧
      s.server.listening = false ∧ ∀ c ∈ s.server.conns, c.phase.tracked = false) := by
  have hi := h.inv
  have hall : (∀ j, s.main.drained j = true) → ∀ g ∈ s.loops, Gone g := by
    intro hd g hg
    obtain ⟨j, hj⟩ := List.mem_iff_getElem?.mp hg
    exact hi.gone hj (hd j)
  refine ⟨fun g hg n hn => (hi.loop g hg).closes_le_one hn, fun j g hg hd => ⟨hi.gone hg hd, ?_⟩,
    fun hp => hall (hi.peer hp), fun hm => ⟨hall fun j => by rw [hm]; rfl, ?_⟩⟩
  · intro t hrun
    have key := hrun.invariant (I := fun t => Inv cfg t ∧ t.main.drained j = true ∧
      ∃ g', t.loops[j]? = some g' ∧ g'.workers = g.workers) ⟨hi, hd, g, hg, rfl⟩ ?_
    · exact key.2.2
    · rintro t a u ⟨hit, hdt, g', hg', hw⟩ - hstep
      obtain ⟨g'', hg'', hw'⟩ := workers_step hit hstep hg' hdt
      exact ⟨hit.step hstep, drained_step hstep hdt, g'', hg'', hw'.trans hw⟩
  · obtain ⟨k, hk⟩ := hi.returned hm
    exact hi.server.untracked_of_returned hk

/-- A standalone node that is stopped while its janitor sweeps. -/
def standalone : List Action :=
  [.loop 0 (.worker 0 .work), .signal, .main, .loop 0 (.enter 0), .loop 0 (.close 0),
    .loop 0 (.leave 0), .loop 0 (.worker 0 .finish), .loop 0 (.worker 0 .exit), .loop 0 (.back 0),
    .main, .main, .main, .server (.close 0), .server (.close 0), .server (.close 0),
    .server (.close 0), .main]

theorem shutdown_in_order_standalone :
    ∃ s, Reachable {} s ∧ s.main = .returned ∧ s.loops.length = 1 ∧ (∀ g ∈ s.loops, Gone g) ∧
      s.server.live = ∅ := by
  have heval : ((start {}).any fun s₀ => (exec (step {}) (fun _ _ => true) s₀ standalone).any
      fun s => s.main == .returned && s.loops.length == 1) = true := by
    decide +kernel
  obtain ⟨s₀, h₀, heval⟩ := (Option.any_eq_true _ _).mp heval
  obtain ⟨s, hs, heval⟩ := (Option.any_eq_true _ _).mp heval
  simp only [Bool.and_eq_true, beq_iff_eq] at heval
  have hreach : Reachable {} s := ⟨s₀, h₀, .of_exec_true hs⟩
  obtain ⟨hgone, hlive, -, -⟩ := (shutdown_in_order hreach).2.2.2 heval.1
  exact ⟨s, hreach, heval.1, heval.2, hgone, hlive⟩

/-! ### The end of the shutdown -/

/-- No loop takes new work. -/
def Calm (_ : State) (a : Action) : Prop := ∀ i j, a ≠ .loop i (.worker j .work)

lemma step_alive (hs : s.Alive) (a : Action) : step cfg s a = act cfg s a := if_pos hs

lemma steps_loop (hs : s.Alive) {g g' : Handshake.State} (hg : s.loops[i]? = some g)
    (hrun : Steps Handshake.step Handshake.Quiet g g') :
    Steps (step cfg) Calm s { s with loops := s.loops.set i g' } := by
  have hlt := (List.getElem?_eq_some_iff.mp hg).1
  induction hrun with
  | refl =>
    obtain ⟨-, rfl⟩ := List.getElem?_eq_some_iff.mp hg
    rw [List.set_getElem_self hlt]
    exact .refl
  | @tail g₁ g₂ a _ hquiet hstep ih =>
    refine .tail (.loop i a) ih (fun i' j => ?_) ?_
    · rintro ⟨⟩
      exact hquiet.1 j rfl
    · rw [step_alive (s := { s with loops := s.loops.set i g₁ }) hs]
      simp [act, hquiet.2, hlt, hstep]

lemma steps_server (hs : s.Alive) {v : Lifecycle.State}
    (hrun : Steps (Lifecycle.step cfg.maxConns) Lifecycle.Own s.server v) :
    Steps (step cfg) Calm s { s with server := v } := by
  induction hrun with
  | refl => exact .refl
  | @tail v₁ v₂ a _ hown hstep ih =>
    refine .tail (.server a) ih (fun i j => by simp) ?_
    rw [step_alive (s := { s with server := v₁ }) hs]
    simp only [act, if_neg hown, hstep, Option.map_some]

lemma inv_of_steps {ok : State → Action → Prop} (hi : Inv cfg s)
    (hrun : Steps (step cfg) ok s t) : Inv cfg t :=
  hrun.invariant hi fun _ _ _ hi _ hstep => hi.step hstep

lemma exists_drained (hi : Inv cfg s) (hmain : s.main = .draining i) :
    ∃ t, Steps (step cfg) Calm s t ∧ t.main = .stopping (i + 1) ∧
      t.loops.length = s.loops.length := by
  have hs : s.Alive := by simp [State.Alive, hmain]
  have hlt := hi.draining i hmain
  have hg : s.loops[i]? = some s.loops[i] := List.getElem?_eq_getElem hlt
  obtain ⟨g', hrun, -, hret⟩ := Handshake.lowers_quiet.exists_final
    (F := fun g => ∀ c ∈ g.callers, c = .returned) (fun g => Handshake.exists_quiet_step)
    (hi.loop _ (List.mem_of_getElem? hg))
  have hsteps : Steps (step cfg) Calm s _ := steps_loop hs hg hrun
  -- the call of `main` is the only one
  have hlen := (inv_of_steps hi hsteps).calls i g' (List.getElem?_set_self hlt)
  simp only [hmain, Main.called, le_refl, decide_true, Bool.toNat_true] at hlen
  obtain ⟨c, hc⟩ := List.length_eq_one_iff.mp hlen
  have hback : g'.callers[0]? = some .returned := by
    rw [hc, hret c (by rw [hc]; exact List.mem_singleton_self c)]
    rfl
  refine ⟨{ s with loops := s.loops.set i g', main := .stopping (i + 1) }, ?_, rfl, List.length_set⟩
  refine .tail .main hsteps (fun i j => by simp) ?_
  rw [step_alive (s := { s with loops := s.loops.set i g' }) hs]
  simp [act, mainStep, hmain, hlt, hback]

lemma exists_closing (hi : Inv cfg s) (hmain : s.main = .stopping i) :
    ∃ t, Steps (step cfg) Calm s t ∧ t.main = .closing := by
  -- by induction on the loops that are left
  induction hn : s.loops.length - i generalizing s i with
  | zero =>
    have hnone : s.loops[i]? = none := List.getElem?_eq_none_iff.mpr (by omega)
    refine ⟨{ s with peerClosed := cfg.gossipAddr ≠ [], main := .closing },
      .tail .main .refl (fun i j => by simp) ?_, rfl⟩
    rw [step_alive (by simp [State.Alive, hmain])]
    simp [act, mainStep, hmain, hnone]
  | succ n ih =>
    have hlt : i < s.loops.length := by omega
    have hcall : Steps (step cfg) Calm s
        { s with
          loops := s.loops.set i { s.loops[i] with callers := s.loops[i].callers ++ [.calling] }
          main := .draining i } := by
      refine .tail .main .refl (fun i j => by simp) ?_
      rw [step_alive (by simp [State.Alive, hmain])]
      simp [act, mainStep, hmain, hlt, Handshake.step]
    have hi' := inv_of_steps hi hcall
    obtain ⟨u, hdrain, hu, hlen⟩ := exists_drained hi' rfl
    rw [List.length_set] at hlen
    obtain ⟨t, hrest, ht⟩ := ih (inv_of_steps hi' hdrain) hu (by omega)
    exact ⟨t, (hcall.trans hdrain).trans hrest, ht⟩

lemma exists_returned (hi : Inv cfg s) (hmain : s.main = .waiting k) :
    ∃ t, Steps (step cfg) Calm s t ∧ t.main = .returned := by
  have hs : s.Alive := by simp [State.Alive, hmain]
  have hk := hi.waiting k hmain
  have hne : s.server.closers ≠ [] := List.ne_nil_of_length_pos (by omega)
  obtain ⟨v, hrun, -, -, hret⟩ := Lifecycle.exists_finished hi.server hne
  have hsteps : Steps (step cfg) Calm s _ :=
    steps_server hs (hrun.mono fun _ _ h => h.1)
  have hlt : k < v.closers.length := (inv_of_steps hi hsteps).waiting k hmain
  have hk : v.closers[k]? = some .returned := by
    rw [List.getElem?_eq_getElem hlt, hret _ (List.getElem_mem hlt)]
  refine ⟨{ s with server := v, main := .returned }, ?_, rfl⟩
  refine .tail .main hsteps (fun i j => by simp) ?_
  rw [step_alive (s := { s with server := v }) hs]
  simp [act, mainStep, hmain, hk]

/-- **A node that has got the signal can always shut down.** From every reachable state after the
signal `main` can return, whatever the loops and the clients were doing, and without any loop
running its body once more. -/
theorem main_can_return (h : Reachable cfg s) (hsignal : s.main ≠ .serving)
    (hexit : s.main ≠ .exited) : ∃ t, Steps (step cfg) Calm s t ∧ t.main = .returned := by
  -- from the end: the server, then the loops that are left
  have hclosing : ∀ {s}, Inv cfg s → s.main = .closing →
      ∃ t, Steps (step cfg) Calm s t ∧ t.main = .returned := by
    intro s hi hmain
    have hcall : step cfg s .main = some
        { s with server := { s.server with closers := s.server.closers ++ [.entered] }
                 main := .waiting s.server.closers.length } := by
      rw [step_alive (by simp [State.Alive, hmain])]
      simp [act, mainStep, hmain, Lifecycle.step]
    obtain ⟨t, hrun, ht⟩ := exists_returned (hi.step hcall) rfl
    exact ⟨t, (Steps.tail .main .refl (by simp [Calm]) hcall).trans hrun, ht⟩
  have hstopping : ∀ {s i}, Inv cfg s → s.main = .stopping i →
      ∃ t, Steps (step cfg) Calm s t ∧ t.main = .returned := by
    intro s i hi hmain
    obtain ⟨u, hrun, hu⟩ := exists_closing hi hmain
    obtain ⟨t, hrest, ht⟩ := hclosing (inv_of_steps hi hrun) hu
    exact ⟨t, hrun.trans hrest, ht⟩
  have hi := h.inv
  cases hmain : s.main with
  | serving => exact absurd hmain hsignal
  | stopping i => exact hstopping hi hmain
  | draining i =>
    obtain ⟨u, hrun, hu, -⟩ := exists_drained hi hmain
    obtain ⟨t, hrest, ht⟩ := hstopping (inv_of_steps hi hrun) hu
    exact ⟨t, hrun.trans hrest, ht⟩
  | closing => exact hclosing hi hmain
  | waiting k => exact exists_returned hi hmain
  | returned => exact ⟨s, .refl, hmain⟩
  | exited => exact absurd hmain hexit

/-- A clustered node gets the signal while its gossiper reads a packet. -/
theorem main_can_return_clustered :
    ∃ s t : State, Reachable { gossipAddr := [58] } s ∧ s.main = .stopping 0 ∧
      s.loops.length = 4 ∧ Steps (step { gossipAddr := [58] }) Calm s t ∧ t.main = .returned := by
  have heval : ((start { gossipAddr := [58] }).any fun s₀ =>
      (exec (step { gossipAddr := [58] }) (fun _ _ => true) s₀
        [.loop 1 (.worker 0 .work), .signal]).any
      fun s => s.main == .stopping 0 && s.loops.length == 4) = true := by
    decide +kernel
  obtain ⟨s₀, h₀, heval⟩ := (Option.any_eq_true _ _).mp heval
  obtain ⟨s, hs, heval⟩ := (Option.any_eq_true _ _).mp heval
  simp only [Bool.and_eq_true, beq_iff_eq] at heval
  have hreach : Reachable { gossipAddr := [58] } s := ⟨s₀, h₀, .of_exec_true hs⟩
  obtain ⟨t, hrun, ht⟩ := main_can_return hreach (by simp [heval.1]) (by simp [heval.1])
  exact ⟨s, t, hreach, heval.1, heval.2, hrun, ht⟩

end Kyria.Node
