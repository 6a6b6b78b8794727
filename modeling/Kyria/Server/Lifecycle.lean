import Kyria.Lib.Runs
import Kyria.Lib.Tally

/-!
The goroutines of a server: the accept loop of `Serve`, one goroutine for each connection, and
any number of calls of `Close`.

The state has what they share (the slots of `sem`, the wait group, the set of tracked
connections, the mutex, the flag `closed`, the listener) and where each of them stands. A step
is what one goroutine does between two points at which another may come in between, so a run is
any interleaving. What clients and the network decide is part of the action: that a connection
comes in, what `Decode` finds, whether a write fails.
-/

namespace Kyria.Server.Lifecycle

open Kyria.Lib.Runs Kyria.Lib.Tally

/-- Where a connection and its goroutine stand. -/
inductive Phase
  /-- `Accept` has returned it, its goroutine does not run yet. -/
  | accepted
  /-- `trackConn` is next. -/
  | starting
  /-- In `Decode`. -/
  | reading
  /-- In `Handle`. -/
  | handling
  /-- In `writeReply`; after the last reply the loop returns. -/
  | replying (last : Bool)
  /-- The loop has returned, `untrackConn` is next. -/
  | leaving
  /-- `conn.Close` is next. -/
  | untracked
  /-- `release` is next. -/
  | closed
  /-- `wg.Done` is next. -/
  | released
  | finished
  deriving DecidableEq, Repr

/-- An accepted connection. -/
structure Conn where
  phase : Phase
  /-- This side has not closed it. -/
  isOpen : Bool
  deriving DecidableEq, Repr

/-- Where the accept loop stands. -/
inductive Serve
  | acquiring
  | accepting
  /-- `Accept` has returned connection `i`, `wg.Add` is next. -/
  | accepted (i : ℕ)
  /-- The goroutine of connection `i` is counted and starts next. -/
  | added (i : ℕ)
  /-- `Accept` has failed, `isClosing` is next. -/
  | failed
  /-- Within its own call `k` of `Close`. -/
  | closing (k : ℕ)
  | returned
  deriving DecidableEq, Repr

/-- Where a call of `Close` stands. -/
inductive CloseCall
  | entered
  /-- It holds the mutex and has set `closed`; the listener is next. -/
  | flagged
  /-- It holds the mutex and closes the tracked connections. -/
  | walking
  /-- In `wg.Wait`. -/
  | waiting
  | returned
  deriving DecidableEq, Repr

/-- A server and all its goroutines. -/
structure State where
  /-- How many slots of `sem` are taken. -/
  slots : ℕ
  /-- The counter of the wait group. -/
  wg : ℕ
  /-- The call of `Close` that holds the mutex across several steps. -/
  mu : Option ℕ
  /-- The tracked connections, `s.conns` of the source. -/
  live : Finset ℕ
  closed : Bool
  listening : Bool
  serve : Serve
  /-- Every connection accepted so far. -/
  conns : List Conn
  /-- Every call of `Close` so far. -/
  closers : List CloseCall
  /-- How many commands were handed to the handler. -/
  dispatched : ℕ
  deriving DecidableEq

/-- A server as `Serve` begins. -/
def State.initial : State where
  slots := 0
  wg := 0
  mu := none
  live := ∅
  closed := false
  listening := true
  serve := .acquiring
  conns := []
  closers := []
  dispatched := 0

/-- What `Decode` and `Command` make of what comes next on a connection. -/
inductive Read
  | command
  /-- A value that is no command. -/
  | notCommand
  /-- A protocol error. -/
  | malformed
  /-- The end of the stream, a failed read, a deadline. -/
  | gone
  deriving DecidableEq, Repr

/-- A step of the goroutine of a connection. -/
inductive ConnStep
  | track
  | decoded (r : Read)
  | handled
  /-- `writeReply`, and whether it got through to an open connection. -/
  | wrote (ok : Bool)
  | untrack
  | close
  | release
  | done
  deriving DecidableEq, Repr

inductive Action
  | acquire
  | accept
  | acceptError
  | addWg
  | spawn
  | checkClosing
  | serveReturns
  | conn (i : ℕ) (a : ConnStep)
  /-- Someone calls `Close`. -/
  | callClose
  /-- Call `k` of `Close` goes on. -/
  | close (k : ℕ)
  /-- Call `k` of `Close`, in its walk over the tracked connections, closes connection `i`. -/
  | closeLive (k i : ℕ)
  deriving DecidableEq, Repr

/-- `acquire`: without a cap a no-op, otherwise it blocks while all slots are taken. -/
def acquire (cap slots : ℕ) : Option ℕ :=
  if cap = 0 then some slots else if slots < cap then some (slots + 1) else none

/-- `release`: it blocks where no slot is taken. -/
def release (cap slots : ℕ) : Option ℕ :=
  if cap = 0 then some slots else if 0 < slots then some (slots - 1) else none

/-- Connection `i` moves on. -/
def State.move (s : State) (i : ℕ) (c : Conn) : State :=
  { s with conns := s.conns.set i c }

/-- Call `k` of `Close` moves on. -/
def State.moveClose (s : State) (k : ℕ) (p : CloseCall) : State :=
  { s with closers := s.closers.set k p }

/-- A step of the goroutine of connection `i`, which stands at `c`. -/
def connStep (cap : ℕ) (s : State) (i : ℕ) (c : Conn) : ConnStep → Option State
  | .track =>
    if c.phase = .starting ∧ s.mu = none then
      -- under the mutex: a closing server is not to serve it
      if s.closed then some (s.move i { c with phase := .untracked })
      else some { s.move i { c with phase := .reading } with live := insert i s.live }
    else none
  | .decoded r =>
    if c.phase = .reading then
      match r with
      | .command =>
        some { s.move i { c with phase := .handling } with dispatched := s.dispatched + 1 }
      | .notCommand => some (s.move i { c with phase := .replying false })
      | .malformed => some (s.move i { c with phase := .replying true })
      | .gone => some (s.move i { c with phase := .leaving })
    else none
  | .handled =>
    if c.phase = .handling then some (s.move i { c with phase := .replying false }) else none
  | .wrote ok =>
    match c.phase with
    | .replying last =>
      if ok = true ∧ c.isOpen = true ∧ last = false then
        some (s.move i { c with phase := .reading })
      else some (s.move i { c with phase := .leaving })
    | _ => none
  | .untrack =>
    if c.phase = .leaving ∧ s.mu = none then
      some { s.move i { c with phase := .untracked } with live := s.live.erase i }
    else none
  | .close => if c.phase = .untracked then some (s.move i ⟨.closed, false⟩) else none
  | .release =>
    if c.phase = .closed then
      (release cap s.slots).map fun n => { s.move i { c with phase := .released } with slots := n }
    else none
  | .done =>
    if c.phase = .released ∧ 0 < s.wg then
      some { s.move i { c with phase := .finished } with wg := s.wg - 1 }
    else none

/-- The tracked connections this side has not closed. -/
def State.openLive (s : State) : Finset ℕ :=
  s.live.filter fun i => (s.conns[i]?.any (·.isOpen)) = true

/-- A step of call `k` of `Close`, which stands at `p`. -/
def closeStep (s : State) (k : ℕ) : CloseCall → Option State
  | .entered =>
    if s.mu = none then
      if s.closed then some (s.moveClose k .waiting)
      else some { s.moveClose k .flagged with closed := true, mu := some k }
    else none
  | .flagged => some { s.moveClose k .walking with listening := false }
  | .walking =>
    -- the walk is over when all tracked connections are closed
    if s.openLive = ∅ then some { s.moveClose k .waiting with mu := none } else none
  | .waiting => if s.wg = 0 then some (s.moveClose k .returned) else none
  | .returned => none

/-- A step of a server with `cap` slots, or without a cap where that is zero. -/
def step (cap : ℕ) (s : State) : Action → Option State
  | .acquire =>
    if s.serve = .acquiring then
      (acquire cap s.slots).map fun n => { s with slots := n, serve := .accepting }
    else none
  | .accept =>
    if s.serve = .accepting ∧ s.listening = true then
      some { s with conns := s.conns ++ [⟨.accepted, true⟩], serve := .accepted s.conns.length }
    else none
  | .acceptError => if s.serve = .accepting then some { s with serve := .failed } else none
  | .addWg =>
    match s.serve with
    | .accepted i => some { s with wg := s.wg + 1, serve := .added i }
    | _ => none
  | .spawn =>
    match s.serve with
    | .added i =>
      s.conns[i]?.map fun c => { s.move i { c with phase := .starting } with serve := .acquiring }
    | _ => none
  | .checkClosing =>
    if s.serve = .failed ∧ s.mu = none then
      if s.closed then some { s with serve := .returned }
      else some { s with serve := .closing s.closers.length, closers := s.closers ++ [.entered] }
    else none
  | .serveReturns =>
    match s.serve with
    | .closing k =>
      if s.closers[k]? = some .returned then some { s with serve := .returned } else none
    | _ => none
  | .conn i a => s.conns[i]?.bind fun c => connStep cap s i c a
  | .callClose => some { s with closers := s.closers ++ [.entered] }
  | .close k => s.closers[k]?.bind (closeStep s k)
  | .closeLive k i =>
    if s.closers[k]? = some .walking ∧ i ∈ s.openLive then
      s.conns[i]?.map fun c => s.move i { c with isOpen := false }
    else none

/-! ### What each goroutine counts for -/

/-- The slots of `sem` a connection holds. -/
def Phase.holds : Phase → ℕ
  | .accepted | .starting | .reading | .handling | .replying _ | .leaving => 1
  | .untracked | .closed => 1
  | .released | .finished => 0

/-- What a connection counts for in the wait group. -/
def Phase.counted : Phase → ℕ
  | .starting | .reading | .handling | .replying _ | .leaving => 1
  | .untracked | .closed | .released => 1
  | .accepted | .finished => 0

/-- The goroutine is between `trackConn` and `untrackConn`. -/
def Phase.tracked : Phase → Bool
  | .reading | .handling | .replying _ | .leaving => true
  | .accepted | .starting | .untracked | .closed | .released | .finished => false

/-- The accept loop takes a slot before it accepts, and keeps it when `Accept` fails. -/
def Serve.holds : Serve → ℕ
  | .acquiring | .accepted _ | .added _ => 0
  | .accepting | .failed | .closing _ | .returned => 1

def Serve.counted : Serve → ℕ
  | .added _ => 1
  | .acquiring | .accepting | .accepted _ | .failed | .closing _ | .returned => 0

/-- How far a goroutine is from its end, once its connection is closed. -/
def Phase.weight : Phase → ℕ
  | .accepted => 9
  | .starting => 8
  | .reading => 7
  | .handling => 6
  | .replying _ => 5
  | .leaving => 4
  | .untracked => 3
  | .closed => 2
  | .released => 1
  | .finished => 0

def Serve.weight : Serve → ℕ
  | .accepted _ => 6
  | .added _ => 5
  | .acquiring => 4
  | .accepting => 3
  | .failed => 2
  | .closing _ => 1
  | .returned => 0

def CloseCall.weight : CloseCall → ℕ
  | .entered => 4
  | .flagged => 3
  | .walking => 2
  | .waiting => 1
  | .returned => 0

/-- What holds in every reachable state. -/
structure Inv (cap : ℕ) (s : State) : Prop where
  /-- The slots taken are those of the connections and of the accept loop. -/
  slots : cap ≠ 0 → s.slots = tally (·.phase.holds) s.conns + s.serve.holds ∧ s.slots ≤ cap
  wg : s.wg = tally (·.phase.counted) s.conns + s.serve.counted
  mem_live : ∀ i, i ∈ s.live ↔ ∃ c, s.conns[i]? = some c ∧ c.phase.tracked = true
  card_live : s.live.card = tally (·.phase.tracked.toNat) s.conns
  /-- A connection without a goroutine is the one the accept loop is about to start. -/
  pending : ∀ i, (∃ c, s.conns[i]? = some c ∧ c.phase = .accepted) ↔
    s.serve = .accepted i ∨ s.serve = .added i
  /-- When the first `Close` has let go of the mutex, nothing is left open. -/
  quiet : s.closed = true → s.mu = none → s.listening = false ∧ s.openLive = ∅
  /-- Before, the call that holds the mutex is on its way. -/
  owner : ∀ k, s.mu = some k → s.closed = true ∧
    (s.closers[k]? = some .flagged ∨ s.closers[k]? = some .walking ∧ s.listening = false)
  locked : ∀ k : ℕ, s.closers[k]? = some .flagged ∨ s.closers[k]? = some .walking → s.mu = some k
  begun : ∀ k : ℕ, s.closers[k]? = some .waiting ∨ s.closers[k]? = some .returned →
    s.closed = true ∧ s.mu = none
  /-- Once a call of `Close` has returned, no connection is tracked. -/
  drained : ∀ k : ℕ, s.closers[k]? = some .returned → s.live = ∅
  own : ∀ k, s.serve = .closing k → k < s.closers.length

/-- How one step of a connection's goroutine changes the state. -/
structure Moves (cap : ℕ) (s : State) (i : ℕ) (c c' : Conn) (u : State) : Prop where
  conns : u.conns = s.conns.set i c'
  live : u.live = if c'.phase.tracked then insert i s.live else s.live.erase i
  slots : cap ≠ 0 → u.slots + c.phase.holds = s.slots + c'.phase.holds
  keeps : c'.phase.holds ≤ c.phase.holds
  wg : u.wg + c.phase.counted = s.wg + c'.phase.counted
  rest : u.mu = s.mu ∧ u.closed = s.closed ∧ u.listening = s.listening ∧ u.serve = s.serve ∧
    u.closers = s.closers
  not_accepted : c.phase ≠ .accepted ∧ c'.phase ≠ .accepted
  /-- A closed server tracks nothing new. -/
  tracks : s.closed = true → c'.phase.tracked = true →
    c.phase.tracked = true ∧ (c'.isOpen = true → c.isOpen = true)
  dispatched : c.phase.tracked = false → u.dispatched = s.dispatched
  /-- A goroutine that finds its connection closed goes towards its end. -/
  lowers : s.closed = true → (c.phase.tracked = true → c.isOpen = false) →
    c'.phase.weight < c.phase.weight

variable {cap : ℕ} {s t u : State} {i k : ℕ} {c : Conn}

lemma release_eq_some {slots n : ℕ} (h : release cap slots = some n) (hcap : cap ≠ 0) :
    n + 1 = slots := by
  rw [release, if_neg hcap, Option.ite_none_right_eq_some, Option.some.injEq] at h
  omega

lemma Inv.mem_live_iff (hi : Inv cap s) (hc : s.conns[i]? = some c) :
    i ∈ s.live ↔ c.phase.tracked = true := by
  simp [hi.mem_live, hc]

lemma moves_phase (hi : Inv cap s) (hc : s.conns[i]? = some c) {q : Phase} {d : ℕ}
    (hq : q.tracked = c.phase.tracked ∧ q.holds = c.phase.holds ∧ q.counted = c.phase.counted)
    (hacc : c.phase ≠ .accepted ∧ q ≠ .accepted)
    (hd : c.phase.tracked = false → d = s.dispatched)
    (hw : (c.phase.tracked = true → c.isOpen = false) → q.weight < c.phase.weight) :
    Moves cap s i c { c with phase := q }
      { s.move i { c with phase := q } with dispatched := d } := by
  obtain ⟨htracked, hholds, hcounted⟩ := hq
  have hlive := hi.mem_live_iff hc
  refine ⟨rfl, ?_, fun _ => by simp [State.move, hholds], hholds.le,
    by simp [State.move, hcounted],
    ⟨rfl, rfl, rfl, rfl, rfl⟩, hacc, fun _ ht => ⟨htracked ▸ ht, id⟩, hd, fun _ => hw⟩
  by_cases h : c.phase.tracked = true
  · simp [State.move, htracked, h, Finset.insert_eq_of_mem (hlive.mpr h)]
  · simp [State.move, htracked, h, Finset.erase_eq_of_notMem (mt hlive.mp h)]

lemma moves_leaving {c' : Conn} {live : Finset ℕ} {slots wg : ℕ} (hlive : live = s.live.erase i)
    (hq : c'.phase.tracked = false ∧ c'.phase.holds ≤ c.phase.holds ∧
      c'.phase.weight < c.phase.weight)
    (hacc : c.phase ≠ .accepted ∧ c'.phase ≠ .accepted)
    (hslots : cap ≠ 0 → slots + c.phase.holds = s.slots + c'.phase.holds)
    (hwg : wg + c.phase.counted = s.wg + c'.phase.counted) :
    Moves cap s i c c' { s.move i c' with live := live, slots := slots, wg := wg } where
  conns := rfl
  live := by simp [hlive, hq.1]
  slots := hslots
  keeps := hq.2.1
  wg := hwg
  rest := ⟨rfl, rfl, rfl, rfl, rfl⟩
  not_accepted := hacc
  tracks _ ht := absurd ht (by simp [hq.1])
  dispatched _ := rfl
  lowers _ _ := hq.2.2

lemma connStep_moves (hi : Inv cap s) (hc : s.conns[i]? = some c) {a : ConnStep}
    (h : connStep cap s i c a = some u) : ∃ c', Moves cap s i c c' u := by
  have hgone : c.phase.tracked = false → s.live = s.live.erase i := fun ht =>
    (Finset.erase_eq_of_notMem (by simp [hi.mem_live_iff hc, ht])).symm
  cases a with
  | track =>
    simp only [connStep, Option.ite_none_right_eq_some] at h
    obtain ⟨⟨hp, -⟩, h⟩ := h
    split at h
    · cases h
      exact ⟨_, moves_phase hi hc (by simp [hp, Phase.tracked, Phase.holds, Phase.counted])
        (by simp [hp]) (fun _ => rfl) (by simp [hp, Phase.weight])⟩
    · rename_i hclosed
      cases h
      refine ⟨{ c with phase := .reading }, rfl, by simp [Phase.tracked], fun _ => ?_,
        by simp [hp, Phase.holds], ?_, ⟨rfl, rfl, rfl, rfl, rfl⟩, by simp [hp],
        fun hcl => absurd hcl hclosed, fun _ => rfl, fun hcl => absurd hcl hclosed⟩
      · simp [State.move, hp, Phase.holds]
      · simp [State.move, hp, Phase.counted]
  | decoded r =>
    simp only [connStep, Option.ite_none_right_eq_some] at h
    obtain ⟨hp, h⟩ := h
    cases r <;> cases h <;>
      exact ⟨_, moves_phase hi hc (by simp [hp, Phase.tracked, Phase.holds, Phase.counted])
        (by simp [hp]) (by simp [hp, Phase.tracked]) (by simp [hp, Phase.weight])⟩
  | handled =>
    simp only [connStep, Option.ite_none_right_eq_some] at h
    obtain ⟨hp, h⟩ := h
    cases h
    exact ⟨_, moves_phase hi hc (by simp [hp, Phase.tracked, Phase.holds, Phase.counted])
      (by simp [hp]) (fun _ => rfl) (by simp [hp, Phase.weight])⟩
  | wrote ok =>
    simp only [connStep] at h
    split at h
    · rename_i last hp
      split at h
      · rename_i hok
        cases h
        -- a write gets through to an open connection only
        exact ⟨_, moves_phase hi hc (by simp [hp, Phase.tracked, Phase.holds, Phase.counted])
          (by simp [hp]) (fun _ => rfl) (by simp [hp, Phase.tracked, hok.2.1])⟩
      · cases h
        exact ⟨_, moves_phase hi hc (by simp [hp, Phase.tracked, Phase.holds, Phase.counted])
          (by simp [hp]) (fun _ => rfl) (by simp [hp, Phase.weight])⟩
    · cases h
  | untrack =>
    simp only [connStep, Option.ite_none_right_eq_some] at h
    obtain ⟨⟨hp, -⟩, h⟩ := h
    cases h
    exact ⟨_, moves_leaving rfl (by simp [hp, Phase.tracked, Phase.holds, Phase.weight])
      (by simp [hp]) (by simp [hp, Phase.holds, State.move])
      (by simp [hp, Phase.counted, State.move])⟩
  | close =>
    simp only [connStep, Option.ite_none_right_eq_some] at h
    obtain ⟨hp, h⟩ := h
    cases h
    exact ⟨_, moves_leaving (hgone (by simp [hp, Phase.tracked]))
      (by simp [hp, Phase.tracked, Phase.holds, Phase.weight]) (by simp [hp])
      (by simp [hp, Phase.holds]) (by simp [hp, Phase.counted])⟩
  | release =>
    simp only [connStep, Option.ite_none_right_eq_some, Option.map_eq_some_iff] at h
    obtain ⟨hp, n, hn, rfl⟩ := h
    exact ⟨_, moves_leaving (hgone (by simp [hp, Phase.tracked]))
      (by simp [hp, Phase.tracked, Phase.holds, Phase.weight]) (by simp [hp])
      (fun hcap => by simpa [hp, Phase.holds] using release_eq_some hn hcap)
      (by simp [hp, Phase.counted, State.move])⟩
  | done =>
    simp only [connStep, Option.ite_none_right_eq_some] at h
    obtain ⟨⟨hp, hwg⟩, h⟩ := h
    cases h
    exact ⟨_, moves_leaving (hgone (by simp [hp, Phase.tracked]))
      (by simp [hp, Phase.tracked, Phase.holds, Phase.weight]) (by simp [hp])
      (by simp [hp, Phase.holds, State.move]) (by simp only [hp, Phase.counted]; omega)⟩

/-! ### The invariant -/

lemma mem_openLive : i ∈ s.openLive ↔ i ∈ s.live ∧ ∃ c, s.conns[i]? = some c ∧ c.isOpen = true := by
  simp [State.openLive, Option.any_eq_true]

lemma Inv.initial : Inv cap .initial := by
  constructor <;> simp [State.initial, Serve.holds, Serve.counted]

lemma Inv.live_eq_empty_of_wg (hi : Inv cap s) (hwg : s.wg = 0) : s.live = ∅ := by
  refine Finset.eq_empty_of_forall_notMem fun i hlive => ?_
  obtain ⟨c, hc, htracked⟩ := (hi.mem_live i).mp hlive
  have hle := le_tally (f := (·.phase.counted)) hc
  have hone : c.phase.counted = 1 := by
    cases hp : c.phase <;> simp_all [Phase.tracked, Phase.counted]
  have := hi.wg
  omega

section Moves

variable {c' : Conn} (hi : Inv cap s) (hc : s.conns[i]? = some c) (hm : Moves cap s i c c' u)
include hc hm

lemma Moves.getElem? (j : ℕ) : u.conns[j]? = if i = j then some c' else s.conns[j]? := by
  have hlt : i < s.conns.length := (List.getElem?_eq_some_iff.mp hc).1
  rw [hm.conns, List.getElem?_set, if_pos hlt]

lemma Moves.tally {f : Conn → ℕ} : tally f u.conns + f c = tally f s.conns + f c' := by
  rw [hm.conns]
  exact tally_set hc

include hi

lemma Moves.mem_live (j : ℕ) :
    j ∈ u.live ↔ ∃ d, u.conns[j]? = some d ∧ d.phase.tracked = true := by
  rw [hm.getElem? hc, hm.live]
  by_cases hj : i = j
  · subst hj
    cases hq : c'.phase.tracked <;> simp [hq]
  · rw [if_neg hj, ← hi.mem_live]
    cases c'.phase.tracked <;> simp [Ne.symm hj]

lemma Moves.card_live : u.live.card = Lib.Tally.tally (·.phase.tracked.toNat) u.conns := by
  have htally := hm.tally hc (f := (·.phase.tracked.toNat))
  have hcard := hi.card_live
  have hmem := hi.mem_live_iff hc
  rw [hm.live]
  cases hq : c'.phase.tracked <;> cases hp : c.phase.tracked <;> rw [hp] at hmem <;>
    simp only [hq, hp, Bool.toNat_true, Bool.toNat_false, if_true] at htally ⊢
  · simp only [Bool.false_eq_true, iff_false] at hmem
    rw [if_neg (by simp), Finset.erase_eq_of_notMem hmem]
    omega
  · rw [if_neg (by simp), Finset.card_erase_of_mem (hmem.mpr rfl)]
    have := Finset.card_pos.mpr ⟨i, hmem.mpr rfl⟩
    omega
  · simp only [Bool.false_eq_true, iff_false] at hmem
    rw [Finset.card_insert_of_notMem hmem]
    omega
  · rw [Finset.insert_eq_of_mem (hmem.mpr rfl)]
    omega

lemma Moves.openLive_subset (hclosed : s.closed = true) : u.openLive ⊆ s.openLive := by
  intro j hj
  obtain ⟨hlive, d, hd, hopen⟩ := mem_openLive.mp hj
  obtain ⟨d', hd', htracked⟩ := (hm.mem_live hi hc j).mp hlive
  rw [mem_openLive, hi.mem_live]
  rw [hm.getElem? hc] at hd hd'
  by_cases hij : i = j
  · rw [if_pos hij] at hd hd'
    cases hd
    cases hd'
    obtain ⟨htr, hop⟩ := hm.tracks hclosed htracked
    exact ⟨⟨c, hij ▸ hc, htr⟩, c, hij ▸ hc, hop hopen⟩
  · rw [if_neg hij] at hd hd'
    exact ⟨⟨d', hd', htracked⟩, d, hd, hopen⟩

lemma Moves.live_eq_empty (hclosed : s.closed = true) (hlive : s.live = ∅) : u.live = ∅ := by
  have hnot : ¬ c'.phase.tracked = true := fun ht =>
    Finset.notMem_empty i (hlive ▸ (hi.mem_live_iff hc).mpr (hm.tracks hclosed ht).1)
  rw [hm.live, if_neg hnot, hlive, Finset.erase_empty]

lemma Moves.inv : Inv cap u := by
  obtain ⟨hmu, hclosed, hlistening, hserve, hclosers⟩ := hm.rest
  have hholds := hm.tally hc (f := (·.phase.holds))
  have hcounted := hm.tally hc (f := (·.phase.counted))
  constructor
  case slots =>
    intro hcap
    obtain ⟨heq, hle⟩ := hi.slots hcap
    have hslots := hm.slots hcap
    have := hm.keeps
    rw [hserve]
    constructor <;> omega
  case wg =>
    have hwg := hm.wg
    have := hi.wg
    rw [hserve]
    omega
  case mem_live => exact hm.mem_live hi hc
  case card_live => exact hm.card_live hi hc
  case pending =>
    intro j
    rw [hserve, ← hi.pending j, hm.getElem? hc]
    by_cases hj : i = j
    · subst hj
      simp [hm.not_accepted, hc]
    · rw [if_neg hj]
  case quiet =>
    rw [hclosed, hmu, hlistening]
    intro hcl hfree
    obtain ⟨hl, hopen⟩ := hi.quiet hcl hfree
    exact ⟨hl, Finset.subset_empty.mp (hopen ▸ hm.openLive_subset hi hc hcl)⟩
  case owner =>
    rw [hmu, hclosed, hclosers, hlistening]
    exact hi.owner
  case locked =>
    rw [hmu, hclosers]
    exact hi.locked
  case begun =>
    rw [hmu, hclosed, hclosers]
    exact hi.begun
  case drained =>
    rw [hclosers]
    intro k hk
    exact hm.live_eq_empty hi hc (hi.begun k (.inr hk)).1 (hi.drained k hk)
  case own =>
    rw [hserve, hclosers]
    exact hi.own

end Moves

/-! ### The steps of `Close` -/

lemma getElem?_append_entered {l : List CloseCall} {p : CloseCall} (hp : p ≠ .entered) (j : ℕ) :
    (l ++ [.entered])[j]? = some p ↔ l[j]? = some p := by
  rw [List.getElem?_append]
  split
  · rfl
  · rename_i hj
    rw [List.getElem?_eq_none (by omega : l.length ≤ j)]
    simp [List.getElem?_singleton, Ne.symm hp]

lemma Inv.call (hi : Inv cap s) : Inv cap { s with closers := s.closers ++ [.entered] } := by
  refine { hi with owner := ?_, locked := ?_, begun := ?_, drained := ?_, own := ?_ }
  · simpa [getElem?_append_entered] using hi.owner
  · simpa [getElem?_append_entered] using hi.locked
  · simpa [getElem?_append_entered] using hi.begun
  · simpa [getElem?_append_entered] using hi.drained
  · intro k hk
    simpa using Nat.lt_succ_of_lt (hi.own k hk)

section CloseStep

variable {p q : CloseCall} (hk : s.closers[k]? = some p)
include hk

lemma getElem?_moveClose (j : ℕ) :
    (s.moveClose k q).closers[j]? = if k = j then some q else s.closers[j]? := by
  have hlt : k < s.closers.length := (List.getElem?_eq_some_iff.mp hk).1
  rw [State.moveClose, List.getElem?_set, if_pos hlt]

lemma closers_of_moveClose {r : CloseCall} (hr : r ≠ q) {j : ℕ}
    (h : (s.moveClose k q).closers[j]? = some r) : s.closers[j]? = some r := by
  rw [getElem?_moveClose hk] at h
  split at h
  · exact absurd (Option.some.inj h).symm hr
  · exact h

lemma Inv.closeStep (hi : Inv cap s) (h : closeStep s k p = some u) : Inv cap u := by
  have hown : ∀ q j, s.serve = .closing j → j < (s.closers.set k q).length :=
    fun q j hj => by simpa using hi.own j hj
  cases p with
  | entered =>
    simp only [Lifecycle.closeStep, Option.ite_none_right_eq_some] at h
    obtain ⟨hmu, h⟩ := h
    split at h
    · -- a call after the first only waits
      rename_i hclosed
      cases h
      refine { hi with owner := ?_, locked := ?_, begun := ?_, drained := ?_, own := hown _ } <;>
        intro j hj
      · exact absurd (hmu.symm.trans hj) (by simp)
      · exact hi.locked j (hj.imp (closers_of_moveClose hk (by simp))
          (closers_of_moveClose hk (by simp)))
      · exact ⟨hclosed, hmu⟩
      · exact hi.drained j (closers_of_moveClose hk (by simp) hj)
    · -- the first call takes the mutex
      rename_i hclosed
      cases h
      have hnew : ∀ j : ℕ, ¬ (s.closers[j]? = some .waiting ∨ s.closers[j]? = some .returned) :=
        fun j hj => hclosed (hi.begun j hj).1
      refine { hi with quiet := ?_, owner := ?_, locked := ?_, begun := ?_, drained := ?_,
                       own := hown _ }
      · intro _ hfree
        simp at hfree
      · intro j hj
        cases hj
        rw [getElem?_moveClose hk, if_pos rfl]
        exact ⟨rfl, .inl rfl⟩
      · intro j hj
        rw [getElem?_moveClose hk] at hj
        split at hj
        · rename_i hkj
          exact congrArg some hkj
        · exact absurd (hmu.symm.trans (hi.locked j hj)) (by simp)
      · intro j hj
        exact absurd (hj.imp (closers_of_moveClose hk (by simp))
          (closers_of_moveClose hk (by simp))) (hnew j)
      · intro j hj
        exact absurd (.inr (closers_of_moveClose hk (by simp) hj)) (hnew j)
  | flagged =>
    simp only [Lifecycle.closeStep, Option.some.injEq] at h
    subst h
    have hmu : s.mu = some k := hi.locked k (.inl hk)
    refine { hi with quiet := ?_, owner := ?_, locked := ?_, begun := ?_, drained := ?_,
                     own := hown _ }
    · intro _ hfree
      exact absurd (hmu.symm.trans hfree) (by simp)
    · intro j hj
      cases hmu.symm.trans hj
      rw [getElem?_moveClose hk, if_pos rfl]
      exact ⟨(hi.owner k hmu).1, .inr ⟨rfl, rfl⟩⟩
    · intro j hj
      rw [getElem?_moveClose hk] at hj
      split at hj
      · rename_i hkj
        exact hkj ▸ hmu
      · exact hi.locked j hj
    · intro j hj
      exact hi.begun j (hj.imp (closers_of_moveClose hk (by simp))
        (closers_of_moveClose hk (by simp)))
    · exact fun j hj => hi.drained j (closers_of_moveClose hk (by simp) hj)
  | walking =>
    simp only [Lifecycle.closeStep, Option.ite_none_right_eq_some] at h
    obtain ⟨hopen, h⟩ := h
    cases h
    have hmu : s.mu = some k := hi.locked k (.inr hk)
    obtain ⟨hclosed, hat⟩ := hi.owner k hmu
    have hlistening : s.listening = false := by simp_all
    refine { hi with quiet := ?_, owner := ?_, locked := ?_, begun := ?_, drained := ?_,
                     own := hown _ }
    · exact fun _ _ => ⟨hlistening, hopen⟩
    · intro j hj
      simp at hj
    · -- only the call that held the mutex was within its section
      intro j hj
      have hj' := hi.locked j (hj.imp (closers_of_moveClose hk (by simp))
        (closers_of_moveClose hk (by simp)))
      cases hmu.symm.trans hj'
      rw [getElem?_moveClose hk, if_pos rfl] at hj
      simp at hj
    · exact fun j _ => ⟨hclosed, rfl⟩
    · exact fun j hj => hi.drained j (closers_of_moveClose hk (by simp) hj)
  | waiting =>
    simp only [Lifecycle.closeStep, Option.ite_none_right_eq_some] at h
    obtain ⟨hwg, h⟩ := h
    cases h
    obtain ⟨hclosed, hmu⟩ := hi.begun k (.inl hk)
    refine { hi with owner := ?_, locked := ?_, begun := ?_, drained := ?_, own := hown _ } <;>
      intro j hj
    · exact absurd (hmu.symm.trans hj) (by simp)
    · exact hi.locked j (hj.imp (closers_of_moveClose hk (by simp))
        (closers_of_moveClose hk (by simp)))
    · exact ⟨hclosed, hmu⟩
    · exact hi.live_eq_empty_of_wg hwg
  | returned => cases h

end CloseStep

lemma moves_closeLive (hi : Inv cap s) (hc : s.conns[i]? = some c) (hopen : i ∈ s.openLive) :
    Moves cap s i c { c with isOpen := false } (s.move i { c with isOpen := false }) := by
  obtain ⟨hlive, d, hd, hd'⟩ := mem_openLive.mp hopen
  cases hc.symm.trans hd
  have htracked := (hi.mem_live_iff hc).mp hlive
  refine ⟨rfl, ?_, fun _ => rfl, le_rfl, rfl, ⟨rfl, rfl, rfl, rfl, rfl⟩, ?_, ?_, fun _ => rfl, ?_⟩
  · simp [State.move, htracked, Finset.insert_eq_of_mem hlive]
  · have hacc : c.phase ≠ .accepted := fun hacc => by simp [hacc, Phase.tracked] at htracked
    exact ⟨hacc, hacc⟩
  · exact fun _ ht => ⟨ht, by simp⟩
  · intro _ hclosed
    simp [hclosed htracked] at hd'

/-! ### The steps of the accept loop -/

lemma Inv.serve (hi : Inv cap s) {v : Serve} {n w : ℕ}
    (hn : cap ≠ 0 → n + s.serve.holds = s.slots + v.holds ∧ n ≤ cap)
    (hw : w + s.serve.counted = s.wg + v.counted)
    (hv : ∀ i, v = .accepted i ∨ v = .added i ↔ s.serve = .accepted i ∨ s.serve = .added i)
    (hk : ∀ k, v = .closing k → k < s.closers.length) :
    Inv cap { s with slots := n, wg := w, serve := v } := by
  refine { hi with slots := ?_, wg := ?_, pending := ?_, own := hk }
  · intro hcap
    obtain ⟨heq, -⟩ := hi.slots hcap
    obtain ⟨hn, hle⟩ := hn hcap
    constructor <;> simp only <;> omega
  · have := hi.wg
    simp only
    omega
  · simpa [hv] using hi.pending

lemma getElem?_append_accepted {l : List Conn} {d : Conn} (j : ℕ) :
    (l ++ [d])[j]? = if j = l.length then some d else l[j]? := by
  rw [List.getElem?_append]
  split
  · rw [if_neg (by omega)]
  · by_cases hj : j = l.length
    · simp [hj]
    · rw [if_neg hj, List.getElem?_eq_none (by simp; omega), List.getElem?_eq_none (by omega)]

lemma Inv.accept (hi : Inv cap s) (hserve : s.serve = .accepting)
    (hlistening : s.listening = true) :
    Inv cap { s with conns := s.conns ++ [⟨.accepted, true⟩]
                     serve := .accepted s.conns.length } := by
  have hget := getElem?_append_accepted (l := s.conns) (d := ⟨.accepted, true⟩)
  have hnone : s.conns[s.conns.length]? = none := List.getElem?_eq_none le_rfl
  refine { hi with slots := ?_, wg := ?_, mem_live := ?_, card_live := ?_, pending := ?_,
                   quiet := ?_, own := by simp }
  · intro hcap
    have := hi.slots hcap
    simp only [hserve, Serve.holds, tally_append, tally_cons, tally_nil, Phase.holds] at this ⊢
    omega
  · have := hi.wg
    simp_all [Phase.counted, Serve.counted]
  · intro j
    rw [hi.mem_live, hget]
    by_cases hj : j = s.conns.length
    · simp [hj, Phase.tracked]
    · rw [if_neg hj]
  · simpa [Phase.tracked] using hi.card_live
  · intro j
    rw [hget]
    have := hi.pending j
    by_cases hj : j = s.conns.length
    · simp [hj]
    · rw [if_neg hj, this]
      simp [hserve, Ne.symm hj]
  · intro hclosed hmu
    have := (hi.quiet hclosed hmu).1
    simp_all

lemma Inv.spawn (hi : Inv cap s) (hserve : s.serve = .added i) (hc : s.conns[i]? = some c) :
    Inv cap { s.move i { c with phase := .starting } with serve := .acquiring } := by
  have hlt : i < s.conns.length := (List.getElem?_eq_some_iff.mp hc).1
  have hacc : c.phase = .accepted := by
    obtain ⟨d, hd, hp⟩ := (hi.pending i).mpr (.inr hserve)
    cases hc.symm.trans hd
    exact hp
  have hset : ∀ f : Phase → ℕ, tally (fun c => f c.phase) (s.conns.set i ⟨.starting, c.isOpen⟩) +
      f .accepted = tally (fun c => f c.phase) s.conns + f .starting :=
    fun f => by rw [← hacc, tally_set hc]
  have hholds : _ + 1 = _ + 1 := hset Phase.holds
  have hcounted : _ + 0 = _ + 1 := hset Phase.counted
  have htracked : _ + 0 = _ + 0 := hset (·.tracked.toNat)
  have hmem : ∀ j : ℕ, (∃ d, (s.conns.set i { c with phase := .starting })[j]? = some d ∧
      d.phase.tracked = true) ↔ ∃ d, s.conns[j]? = some d ∧ d.phase.tracked = true := by
    intro j
    rw [List.getElem?_set]
    by_cases hj : i = j
    · subst hj
      rw [if_pos rfl, if_pos hlt, hc]
      simp [hacc, Phase.tracked]
    · rw [if_neg hj]
  refine { hi with slots := ?_, wg := ?_, mem_live := ?_, card_live := ?_, pending := ?_,
                   quiet := ?_, own := by simp }
  · intro hcap
    have := hi.slots hcap
    simp only [hserve, Serve.holds, State.move] at this ⊢
    omega
  · have := hi.wg
    simp only [hserve, Serve.counted, State.move] at this ⊢
    omega
  · exact fun j => (hi.mem_live j).trans (hmem j).symm
  · have := hi.card_live
    simp only [State.move]
    omega
  · intro j
    have := hi.pending j
    simp only [hserve, State.move] at this ⊢
    rw [List.getElem?_set]
    by_cases hj : i = j
    · simp [hj, hj ▸ hlt]
    · rw [if_neg hj, this]
      simp [hj]
  · intro hclosed hmu
    obtain ⟨hl, hopen⟩ := hi.quiet hclosed hmu
    refine ⟨hl, ?_⟩
    rw [← hopen]
    ext j
    rw [mem_openLive, mem_openLive]
    refine and_congr_right fun hj => ?_
    by_cases hij : i = j
    · subst hij
      have := (hi.mem_live_iff hc).mp hj
      simp [hacc, Phase.tracked] at this
    · simp [State.move, hij]

lemma acquire_eq_some {slots n : ℕ} (h : acquire cap slots = some n) (hcap : cap ≠ 0) :
    n = slots + 1 ∧ n ≤ cap := by
  rw [acquire, if_neg hcap, Option.ite_none_right_eq_some, Option.some.injEq] at h
  omega

/-- What each action does, with its guards. -/
inductive Took (cap : ℕ) (s : State) : Action → State → Prop
  | acquire {n : ℕ} (hserve : s.serve = .acquiring) (hn : acquire cap s.slots = some n) :
      Took cap s .acquire { s with slots := n, serve := .accepting }
  | accept (hserve : s.serve = .accepting) (hlistening : s.listening = true) :
      Took cap s .accept
        { s with conns := s.conns ++ [⟨.accepted, true⟩], serve := .accepted s.conns.length }
  | acceptError (hserve : s.serve = .accepting) :
      Took cap s .acceptError { s with serve := .failed }
  | addWg {i : ℕ} (hserve : s.serve = .accepted i) :
      Took cap s .addWg { s with wg := s.wg + 1, serve := .added i }
  | spawn {i : ℕ} {c : Conn} (hserve : s.serve = .added i) (hc : s.conns[i]? = some c) :
      Took cap s .spawn { s.move i { c with phase := .starting } with serve := .acquiring }
  | closing (hserve : s.serve = .failed) (hclosed : s.closed = true) :
      Took cap s .checkClosing { s with serve := .returned }
  | failed (hserve : s.serve = .failed) (hclosed : s.closed = false) :
      Took cap s .checkClosing
        { s with serve := .closing s.closers.length, closers := s.closers ++ [.entered] }
  | serveReturns {k : ℕ} (hserve : s.serve = .closing k) (hk : s.closers[k]? = some .returned) :
      Took cap s .serveReturns { s with serve := .returned }
  | conn {i : ℕ} {c : Conn} {a : ConnStep} {u : State} (hc : s.conns[i]? = some c)
      (h : connStep cap s i c a = some u) : Took cap s (.conn i a) u
  | callClose : Took cap s .callClose { s with closers := s.closers ++ [.entered] }
  | close {k : ℕ} {p : CloseCall} {u : State} (hk : s.closers[k]? = some p)
      (h : closeStep s k p = some u) : Took cap s (.close k) u
  | closeLive {k i : ℕ} {c : Conn} (hk : s.closers[k]? = some .walking) (hopen : i ∈ s.openLive)
      (hc : s.conns[i]? = some c) :
      Took cap s (.closeLive k i) (s.move i { c with isOpen := false })

lemma took_of_step {a : Action} (h : step cap s a = some u) : Took cap s a u := by
  cases a with
  | acquire =>
    simp only [step, Option.ite_none_right_eq_some, Option.map_eq_some_iff] at h
    obtain ⟨hserve, n, hn, rfl⟩ := h
    exact .acquire hserve hn
  | accept =>
    simp only [step, Option.ite_none_right_eq_some, Option.some.injEq] at h
    obtain ⟨⟨hserve, hlistening⟩, rfl⟩ := h
    exact .accept hserve hlistening
  | acceptError =>
    simp only [step, Option.ite_none_right_eq_some, Option.some.injEq] at h
    obtain ⟨hserve, rfl⟩ := h
    exact .acceptError hserve
  | addWg =>
    simp only [step] at h
    split at h
    · cases h
      exact .addWg ‹_›
    · cases h
  | spawn =>
    simp only [step] at h
    split at h
    · obtain ⟨c, hc, rfl⟩ := Option.map_eq_some_iff.mp h
      exact .spawn ‹_› hc
    · cases h
  | checkClosing =>
    simp only [step, Option.ite_none_right_eq_some] at h
    obtain ⟨⟨hserve, -⟩, h⟩ := h
    split at h
    · cases h
      exact .closing hserve ‹_›
    · cases h
      exact .failed hserve (Bool.eq_false_iff.mpr ‹_›)
  | serveReturns =>
    simp only [step] at h
    split at h
    · obtain ⟨hk, h⟩ := Option.ite_none_right_eq_some.mp h
      cases h
      exact .serveReturns ‹_› hk
    · cases h
  | conn i a =>
    obtain ⟨c, hc, h⟩ := Option.bind_eq_some_iff.mp h
    exact .conn hc h
  | callClose =>
    cases h
    exact .callClose
  | close k =>
    obtain ⟨p, hk, h⟩ := Option.bind_eq_some_iff.mp h
    exact .close hk h
  | closeLive k i =>
    simp only [step, Option.ite_none_right_eq_some, Option.map_eq_some_iff] at h
    obtain ⟨⟨hk, hopen⟩, c, hc, rfl⟩ := h
    exact .closeLive hk hopen hc

lemma Inv.serve_same (hi : Inv cap s) {v : Serve} (hholds : v.holds = s.serve.holds)
    (hcounted : v.counted = s.serve.counted)
    (hv : ∀ i, v = .accepted i ∨ v = .added i ↔ s.serve = .accepted i ∨ s.serve = .added i)
    (hk : ∀ k, v = .closing k → k < s.closers.length) : Inv cap { s with serve := v } :=
  hi.serve (fun hcap => ⟨by rw [hholds], (hi.slots hcap).2⟩) (by rw [hcounted]) hv hk

/-- **Every step keeps the invariant.** -/
lemma Inv.step (hi : Inv cap s) {a : Action} (h : step cap s a = some u) : Inv cap u := by
  cases took_of_step h with
  | acquire hserve hn =>
    refine hi.serve (fun hcap => ?_) ?_ (by simp [hserve]) (by simp)
    · simpa [hserve, Serve.holds] using acquire_eq_some hn hcap
    · simp [hserve, Serve.counted]
  | accept hserve hlistening => exact hi.accept hserve hlistening
  | acceptError hserve =>
    exact hi.serve_same (by rw [hserve]; rfl) (by rw [hserve]; rfl) (by simp [hserve]) (by simp)
  | addWg hserve =>
    refine hi.serve (fun hcap => ?_) ?_ (by simp [hserve]) (by simp)
    · simpa [hserve, Serve.holds] using (hi.slots hcap).2
    · simp [hserve, Serve.counted]
  | spawn hserve hc => exact hi.spawn hserve hc
  | closing hserve _ =>
    exact hi.serve_same (by rw [hserve]; rfl) (by rw [hserve]; rfl) (by simp [hserve]) (by simp)
  | failed hserve _ =>
    exact hi.call.serve_same (by rw [hserve]; rfl) (by rw [hserve]; rfl) (by simp [hserve])
      (by simp)
  | serveReturns hserve _ =>
    exact hi.serve_same (by rw [hserve]; rfl) (by rw [hserve]; rfl) (by simp [hserve]) (by simp)
  | conn hc h =>
    obtain ⟨c', hm⟩ := connStep_moves hi hc h
    exact hm.inv hi hc
  | callClose => exact hi.call
  | close hk h => exact hi.closeStep hk h
  | closeLive _ hopen hc => exact (moves_closeLive hi hc hopen).inv hi hc

variable (cap) in
/-- `s` is a state of a server with `cap` slots, under some interleaving of its goroutines. -/
def Reachable (s : State) : Prop := Steps (step cap) (fun _ _ => True) .initial s

lemma Reachable.inv (h : Reachable cap s) : Inv cap s :=
  h.invariant (I := Inv cap) .initial fun _ _ _ hi _ hstep => hi.step hstep

/-- The state a list of actions leads to from the start. -/
def run (cap : ℕ) (as : List Action) : Option State :=
  exec (step cap) (fun _ _ => true) .initial as

lemma reachable_of_run (as : List Action) (h : run cap as = some s) : Reachable cap s :=
  .of_exec_true h

/-! ### The cap on connections -/

/-- The connections that hold a slot: accepted, and not yet given back by their goroutine. -/
def State.held (s : State) : ℕ := tally (·.phase.holds) s.conns

/-- **The cap is kept.** Under every interleaving a server with a cap holds at most that many
connections, tracked or on their way in or out, and the gauge `conns_live` stays within
`conns_max`. No slot is lost: beside those of the connections only the accept loop has one. -/
theorem held_le_cap (hcap : cap ≠ 0) (h : Reachable cap s) :
    s.live.card ≤ s.held ∧ s.held ≤ cap ∧ s.slots ≤ s.held + 1 := by
  have hi := h.inv
  obtain ⟨hslots, hle⟩ := hi.slots hcap
  have htracked : tally (·.phase.tracked.toNat) s.conns ≤ s.held := by
    refine tally_le_tally fun c _ => ?_
    cases c.phase <;> simp [Phase.tracked, Phase.holds]
  have hserve : s.serve.holds ≤ 1 := by
    cases s.serve <;> simp [Serve.holds]
  have hcard := hi.card_live
  have hheld : s.held = tally (·.phase.holds) s.conns := rfl
  refine ⟨by omega, by omega, by omega⟩

/-- A server at its cap: one connection is read from, the accept loop waits for a slot. -/
def State.full : State :=
  { State.initial with slots := 1, wg := 1, live := {0}, conns := [⟨.reading, true⟩] }

lemma reachable_full : Reachable 1 .full :=
  reachable_of_run [.acquire, .accept, .addWg, .spawn, .conn 0 .track] (by decide)

theorem held_le_cap_full :
    Reachable 1 .full ∧ State.full.live.card = 1 ∧ State.full.live.card ≤ State.full.held ∧
      State.full.held ≤ 1 ∧ State.full.slots ≤ State.full.held + 1 :=
  ⟨reachable_full, rfl, held_le_cap one_ne_zero reachable_full⟩

end Kyria.Server.Lifecycle
