import Kyria.Coordinator
import Kyria.Handoff
import Kyria.TombstoneGC
import Kyria.Lib.Runs

/-!
The nodes of a cluster replicating one key, as a transition system.

A step is what one goroutine does between two points where another one may come in: the
local apply of a write, the handling of an `RSET` by its receiver, the return of
`Replicate`, the parking of a hint, one repair of a read, one fold of anti-entropy. A
request that was sent may be handled late, several times or never, and its sender may be
told that it failed in any of these cases. The nodes' other keys appear only as far as they
can push out the entry of this one.
-/

namespace Kyria.Cluster

open Kyria.Lib.Cursor Kyria.Lib.MapOrder
open Kyria.Version Kyria.Binenc Kyria.Store Kyria.Replica Kyria.Handoff Kyria.Protocol
open Kyria.Coordinator Kyria.TombstoneGC

/-- `blank` is the store every node starts with. Its limit on values keeps the lengths of a
blob within the 32 bits the codec has for them. -/
structure Config (σ : Type) where
  nodes : List Bytes
  key : Bytes
  n : ℕ
  r : ℕ
  w : ℕ
  grace : ℤ
  blank : MapStore σ
  ids : ∀ id ∈ nodes, id.length ≤ maxUint16
  empty : blank.data = ∅
  limit : blank.maxValueSize < 2 ^ 32

/-- `folded` records the versions the node has minted or folded in; no step reads it. -/
structure Node (σ : Type) where
  store : MapStore σ
  hints : HintStore := ∅
  folded : List Version := []

/-- Who waits for a `Replicate` call: the fan-out of a write, a replay, a repair of a read. -/
inductive Origin
  | fanOut (w : ℕ)
  | replay
  | repair (j : ℕ)
  deriving DecidableEq

/-- `acked` and `failed` say what `Replicate` returned; a failed fan-out then parks a hint,
and `finished` has done all it had to do. -/
inductive Phase
  | sent
  | acked
  | failed
  | parked
  | finished (ok : Bool)
  deriving DecidableEq

/-- An `RSET` of the key. `handled` says that the receiver has acknowledged it at least once,
`lost` that it will not be handled any more. -/
structure Call where
  src : Bytes
  dst : Bytes
  blob : Bytes
  origin : Origin
  phase : Phase := .sent
  handled : Bool := false
  lost : Bool := false
  deriving DecidableEq

/-- `running` are the peers whose goroutine has not sent its result to the channel yet. -/
structure WriteOp where
  coord : Bytes
  kind : WriteKind
  version : Version
  need : ℕ
  running : List Bytes
  results : List (Bytes × Bool) := []
  reply : Option Value := none
  deriving DecidableEq

/-- A read that has not replied. `asked` are the peers that have not been heard of, `answers`
the blobs they have sent, `results` what has been received from the channel. -/
structure Waiting where
  coord : Bytes
  need : ℕ
  own : List Version
  asked : List Bytes
  answers : List (Bytes × Bytes) := []
  results : List PeerResult := []

inductive ReadOp
  | waiting (rd : Waiting)
  | replied (coord : Bytes) (need : ℕ) (st : ReadState) (todo : List Repair)

/-- `pulls` are blobs of the key fetched by anti-entropy and not yet folded in, each with the
node that fetched it. -/
structure State (σ : Type) where
  node : Bytes → Node σ
  calls : List Call := []
  writes : List WriteOp := []
  reads : List ReadOp := []
  pulls : List (Bytes × Bytes) := []

variable {σ : Type}

def init (cfg : Config σ) : State σ where
  node _ := { store := cfg.blank }

namespace State

def setNode (s : State σ) (n : Bytes) (nd : Node σ) : State σ :=
  { s with node := Function.update s.node n nd }

def setStore (s : State σ) (n : Bytes) (m : MapStore σ) : State σ :=
  s.setNode n { s.node n with store := m }

/-- The store after an update that has folded `vs` in if it was accepted. -/
def update (s : State σ) (n : Bytes) (m : MapStore σ) (accepted : Bool) (vs : List Version) :
    State σ :=
  s.setNode n { s.node n with
    store := m, folded := (s.node n).folded ++ if accepted then vs else [] }

def setCall (s : State σ) (i : ℕ) (c : Call) : State σ := { s with calls := s.calls.set i c }

def setRead (s : State σ) (j : ℕ) (rd : ReadOp) : State σ := { s with reads := s.reads.set j rd }

end State

/-- Owners of the key as the router reports them, at most `n`. -/
abbrev Owners := List Bytes

/-- The `Replicate` calls of write number `w`. -/
def fanOutCalls (self : Bytes) (w : ℕ) (blob : Bytes) (peers : List Bytes) : List Call :=
  peers.map fun p => { src := self, dst := p, blob, origin := .fanOut w }

/-- What remains of `write` and `delete` after the local apply: the replicated version goes
out to the other owners. A refused apply ends the request. -/
def fanOut (cfg : Config σ) (s : State σ) (self : Bytes) (owners : Owners) (o : ClockOrder) :
    Except StoreError (WriteKind × Version) × MapStore σ → State σ
  | (.error _, m) => s.setStore self m
  | (.ok (kind, v), m) =>
    let peers := peersExcept owners self
    { s.update self m true [v] with
      writes := s.writes ++
        [{ coord := self, kind, version := v, need := min cfg.w owners.length, running := peers }]
      calls := s.calls ++ fanOutCalls self s.writes.length (encode o [v]) peers }

/-- The receiver handles an `RSET`. -/
def handle (cfg : Config σ) (s : State σ) (i : ℕ) (c : Call) (env : Env) : State σ :=
  let r := rset (s.node c.dst).store env cfg.key c.blob
  let ok : Bool := r.1 = .simpleString (ascii "OK")
  (s.update c.dst r.2 ok (siblingsOf c.blob)).setCall i { c with handled := c.handled || ok }

/-- The goroutine of a fan-out sends its result to the channel and ends. -/
def report (s : State σ) (i : ℕ) (c : Call) (w : ℕ) (ok : Bool) : Option (State σ) :=
  match s.writes[w]? with
  | none => none
  | some op =>
    if c.dst ∈ op.running then
      some { s.setCall i { c with phase := .finished ok } with
        writes := s.writes.set w { op with
          running := op.running.erase c.dst, results := op.results ++ [(c.dst, ok)] } }
    else none

/-- The local part of `read`: the own sibling set, and the peers to ask if it does not make
the quorum alone. -/
def startRead (cfg : Config σ) (s : State σ) (self : Bytes) (owners : Owners) (now : ℕ) :
    State σ :=
  let r := (s.node self).store.get now cfg.key
  let need := min cfg.r owners.length
  { s.setStore self r.2 with
    reads := s.reads ++ [.waiting
      { coord := self, need, own := siblingsOf (r.1.getD [])
        asked := if 1 < need then peersExcept owners self else [] }] }

/-- A peer's result, as its goroutine sends it. -/
def peerResult (p blob : Bytes) : PeerResult :=
  (p, match decode blob with | .ok vs => some vs | .error _ => none)

/-- One repair of a finished read. -/
def runRepair (cfg : Config σ) (s : State σ) (j : ℕ) (self : Bytes) (env : Env) :
    Repair → State σ
  | .own merged =>
    let r := foldIn (s.node self).store env cfg.key merged
    s.update self r.2 r.1.isOk merged
  | .push addr v =>
    { s with calls := s.calls ++
        [{ src := self, dst := addr, blob := encode env.clocks [v], origin := .repair j }] }

inductive Action
  | write (self value : Bytes) (owners : Owners) (env : Env) (o : ClockOrder)
  | delete (self : Bytes) (called : ℕ) (owners : Owners) (env : Env) (o : ClockOrder)
  | deliver (i : ℕ) (env : Env)
  | lose (i : ℕ)
  | ack (i : ℕ)
  | fail (i : ℕ)
  | park (i : ℕ)
  | report (i : ℕ)
  | reply (w : ℕ)
  | replay (self : Bytes)
  | forget (i : ℕ)
  | read (self : Bytes) (owners : Owners) (now : ℕ)
  | rget (j : ℕ) (p : Bytes) (now : ℕ)
  | arrive (j k : ℕ)
  | miss (j : ℕ) (p : Bytes)
  | readReply (j : ℕ) (o : VisitOrder (Bytes × List Version))
  | repair (j : ℕ) (env : Env)
  | pull (self p : Bytes) (now : ℕ)
  | fold (i : ℕ) (env : Env)
  | dropPull (i : ℕ)
  | reap (self k : Bytes) (now t : ℕ)
  | other (self k value : Bytes) (env : Env)
  | lookup (self k : Bytes) (now : ℕ)

section Lookup

variable {α β : Type}

/-- The item at a position, provided it passes a test, and what follows from it. -/
def pick (l : List α) (i : ℕ) (p : α → Bool) (f : α → β) : Option β :=
  l[i]?.bind fun x => if p x then some (f x) else none

lemma pick_eq_some {l : List α} {i : ℕ} {p : α → Bool} {f : α → β} {y : β} :
    pick l i p f = some y ↔ ∃ x, l[i]? = some x ∧ p x = true ∧ f x = y := by
  simp [pick, Option.bind_eq_some_iff]

end Lookup

def Origin.isFanOut : Origin → Bool
  | .fanOut _ => true
  | _ => false

/-- The parked hint of a failed fan-out. -/
def parkHint (cfg : Config σ) (s : State σ) (i : ℕ) (c : Call) : State σ :=
  let nd := s.node c.src
  (s.setNode c.src { nd with hints := nd.hints.add c.dst cfg.key c.blob }).setCall i
    { c with phase := .parked }

/-- A replayed hint has been delivered. -/
def forgetHint (cfg : Config σ) (s : State σ) (i : ℕ) (c : Call) : State σ :=
  let nd := s.node c.src
  (s.setNode c.src { nd with hints := nd.hints.remove c.dst cfg.key c.blob }).setCall i
    { c with phase := .finished true }

/-- The calls a sweep of the replayer makes. -/
def replayCalls (cfg : Config σ) (s : State σ) (self : Bytes) : List Call :=
  ((s.node self).hints.snapshot.filter fun h => h.2.1 = cfg.key).map fun h =>
    { src := self, dst := h.1, blob := h.2.2, origin := .replay }

def reportCall (s : State σ) (i : ℕ) (c : Call) : Option (State σ) :=
  match c.origin, c.phase with
  | .fanOut w, .acked => report s i c w true
  | .fanOut w, .parked => report s i c w false
  | _, _ => none

lemma reportCall_eq_some {s s' : State σ} {i : ℕ} {c : Call} (h : reportCall s i c = some s') :
    ∃ w op ok, c.origin = .fanOut w ∧
      (c.phase = .acked ∧ ok = true ∨ c.phase = .parked ∧ ok = false) ∧
      s.writes[w]? = some op ∧ c.dst ∈ op.running ∧
      s' = { s.setCall i { c with phase := .finished ok } with
        writes := s.writes.set w { op with
          running := op.running.erase c.dst, results := op.results ++ [(c.dst, ok)] } } := by
  have key : ∀ w ok, report s i c w ok = some s' → ∃ op, s.writes[w]? = some op ∧
      c.dst ∈ op.running ∧ s' = { s.setCall i { c with phase := .finished ok } with
        writes := s.writes.set w { op with
          running := op.running.erase c.dst, results := op.results ++ [(c.dst, ok)] } } := by
    intro w ok h
    unfold report at h
    split at h
    · simp at h
    · next op hop =>
      simp only [Option.ite_none_right_eq_some, Option.some.injEq] at h
      exact ⟨op, hop, h.1, h.2.symm⟩
  unfold reportCall at h
  split at h
  · next w ho hp =>
    obtain ⟨op, hop⟩ := key w true h
    exact ⟨w, op, true, ho, .inl ⟨hp, rfl⟩, hop⟩
  · next w ho hp =>
    obtain ⟨op, hop⟩ := key w false h
    exact ⟨w, op, false, ho, .inr ⟨hp, rfl⟩, hop⟩
  · simp at h

/-- The coordinator stops receiving acks and replies. -/
def finishWrite (s : State σ) (w : ℕ) (op : WriteOp) : Option (State σ) :=
  if op.reply = none then
    (gather (op.running.length + op.results.length) op.need (op.results.map Prod.snd)).map
      fun acks => { s with
        writes := s.writes.set w { op with reply := some (writeReply op.kind op.need acks) } }
  else none

lemma finishWrite_eq_some {s s' : State σ} {w : ℕ} {op : WriteOp}
    (h : finishWrite s w op = some s') :
    op.reply = none ∧ ∃ acks,
      gather (op.running.length + op.results.length) op.need (op.results.map Prod.snd) = some acks ∧
      s' = { s with
        writes := s.writes.set w { op with reply := some (writeReply op.kind op.need acks) } } := by
  simp only [finishWrite, Option.ite_none_right_eq_some, Option.map_eq_some_iff] at h
  obtain ⟨hr, acks, hg, rfl⟩ := h
  exact ⟨hr, acks, hg, rfl⟩

/-- A peer serves `RGET`: it sends the bytes it stores. -/
def serveGet (cfg : Config σ) (s : State σ) (j : ℕ) (rd : Waiting) (p : Bytes) (now : ℕ) :
    State σ :=
  let r := (s.node p).store.get now cfg.key
  (s.setStore p r.2).setRead j (.waiting { rd with answers := rd.answers ++ [(p, r.1.getD [])] })

/-- A result of a read comes in over the channel. -/
def receive (s : State σ) (j : ℕ) (rd : Waiting) (res : PeerResult) : Option (State σ) :=
  if res.1 ∈ rd.asked then
    some (s.setRead j (.waiting
      { rd with asked := rd.asked.erase res.1, results := rd.results ++ [res] }))
  else none

def finishRead (s : State σ) (j : ℕ) (rd : Waiting) (o : VisitOrder (Bytes × List Version)) :
    Option (State σ) :=
  (readLoop rd.need (rd.asked.length + rd.results.length) (readInit rd.coord rd.own)
    rd.results).map fun st =>
      s.setRead j (.replied rd.coord rd.need st (repairs o rd.coord rd.need st))

/-- The repairs run one after the other: the next one starts when `Replicate` has returned. -/
def nextRepair (cfg : Config σ) (s : State σ) (j : ℕ) (env : Env) : ReadOp → Option (State σ)
  | .replied coord need st (r :: todo) =>
    if s.calls.all fun c => c.origin ≠ .repair j || c.phase ≠ .sent then
      some ((runRepair cfg s j coord env r).setRead j (.replied coord need st todo))
    else none
  | _ => none

lemma nextRepair_eq_some {cfg : Config σ} {s s' : State σ} {j : ℕ} {env : Env} {rd : ReadOp}
    (h : nextRepair cfg s j env rd = some s') :
    ∃ coord need st r todo, rd = .replied coord need st (r :: todo) ∧
      s' = (runRepair cfg s j coord env r).setRead j (.replied coord need st todo) := by
  unfold nextRepair at h
  split at h
  · next coord need st r todo =>
    simp only [Option.ite_none_right_eq_some, Option.some.injEq] at h
    exact ⟨coord, need, st, r, todo, rfl, h.2.symm⟩
  · simp at h

def onWaiting (s : State σ) (j : ℕ) (f : Waiting → Option (State σ)) : Option (State σ) :=
  match s.reads[j]? with
  | some (.waiting rd) => f rd
  | _ => none

/-- Anti-entropy folds a fetched blob in. -/
def foldPull (cfg : Config σ) (s : State σ) (i : ℕ) (env : Env) (p : Bytes × Bytes) : State σ :=
  let r := foldIn (s.node p.1).store env cfg.key (siblingsOf p.2)
  { s.update p.1 r.2 r.1.isOk (siblingsOf p.2) with pulls := s.pulls.eraseIdx i }

/-- One step of the cluster; `none` if the action is not enabled. -/
def step (cfg : Config σ) (s : State σ) : Action → Option (State σ)
  | .write self value owners env o =>
    if self ∈ cfg.nodes ∧ owners.length ≤ cfg.n ∧ value.length ≤ maxBulkSize then
      some (fanOut cfg s self owners o (writeLocal (s.node self).store env self cfg.key value))
    else none
  | .delete self called owners env o =>
    if self ∈ cfg.nodes ∧ owners.length ≤ cfg.n then
      some (fanOut cfg s self owners o (deleteLocal (s.node self).store env self cfg.key called))
    else none
  | .deliver i env =>
    pick s.calls i (fun c => !c.lost && c.dst ∈ cfg.nodes) fun c => handle cfg s i c env
  | .lose i => pick s.calls i (fun _ => true) fun c => s.setCall i { c with lost := true }
  | .ack i =>
    pick s.calls i (fun c => c.phase = .sent && c.handled) fun c =>
      s.setCall i { c with phase := .acked }
  | .fail i =>
    pick s.calls i (fun c => c.phase = .sent) fun c => s.setCall i { c with phase := .failed }
  | .park i =>
    pick s.calls i (fun c => c.phase = .failed && c.origin.isFanOut) fun c => parkHint cfg s i c
  | .report i => s.calls[i]?.bind (reportCall s i)
  | .reply w => s.writes[w]?.bind (finishWrite s w)
  | .replay self =>
    if self ∈ cfg.nodes then some { s with calls := s.calls ++ replayCalls cfg s self } else none
  | .forget i =>
    pick s.calls i (fun c => c.phase = .acked && c.origin = .replay) fun c => forgetHint cfg s i c
  | .read self owners now =>
    if self ∈ cfg.nodes ∧ owners.length ≤ cfg.n then some (startRead cfg s self owners now)
    else none
  | .rget j p now =>
    onWaiting s j fun rd =>
      if p ∈ rd.asked ∧ p ∈ cfg.nodes then some (serveGet cfg s j rd p now) else none
  | .arrive j k =>
    onWaiting s j fun rd => rd.answers[k]?.bind fun a => receive s j rd (peerResult a.1 a.2)
  | .miss j p => onWaiting s j fun rd => receive s j rd (p, none)
  | .readReply j o => onWaiting s j fun rd => finishRead s j rd o
  | .repair j env => s.reads[j]?.bind (nextRepair cfg s j env)
  | .pull self p now =>
    if self ∈ cfg.nodes ∧ p ∈ cfg.nodes then
      ((s.node p).store.get now cfg.key).1.map fun blob =>
        { s with pulls := s.pulls ++ [(self, blob)] }
    else none
  | .fold i env => pick s.pulls i (fun _ => true) fun p => foldPull cfg s i env p
  | .dropPull i => pick s.pulls i (fun _ => true) fun _ => { s with pulls := s.pulls.eraseIdx i }
  | .reap self k now t => some (s.setStore self (reap (s.node self).store k now cfg.grace t).2)
  | .other self k value env =>
    if k ≠ cfg.key then
      some (s.setStore self
        ((s.node self).store.updateReplica env.entries env.now k fun _ => value).2)
    else none
  | .lookup self k now => some (s.setStore self ((s.node self).store.get now k).2)

/-! ### What a step can do -/

lemma mem_of_onWaiting {s s' : State σ} {j : ℕ} {f : Waiting → Option (State σ)}
    (h : onWaiting s j f = some s') :
    ∃ rd, s.reads[j]? = some (.waiting rd) ∧ f rd = some s' := by
  unfold onWaiting at h
  split at h
  · next rd hrd => exact ⟨rd, hrd, h⟩
  · simp at h

lemma receive_eq_some {s s' : State σ} {j : ℕ} {rd : Waiting} {res : PeerResult}
    (h : receive s j rd res = some s') :
    res.1 ∈ rd.asked ∧ s' = s.setRead j (.waiting
      { rd with asked := rd.asked.erase res.1, results := rd.results ++ [res] }) := by
  simp only [receive, Option.ite_none_right_eq_some, Option.some.injEq] at h
  exact ⟨h.1, h.2.symm⟩

/-- The step relation: each action with its guards and the state it leads to. -/
inductive Stepped (cfg : Config σ) (s : State σ) : Action → State σ → Prop
  | write {self value owners env o} (hself : self ∈ cfg.nodes) (hn : owners.length ≤ cfg.n)
      (hval : value.length ≤ maxBulkSize) : Stepped cfg s (.write self value owners env o)
        (fanOut cfg s self owners o (writeLocal (s.node self).store env self cfg.key value))
  | delete {self called owners env o} (hself : self ∈ cfg.nodes) (hn : owners.length ≤ cfg.n) :
      Stepped cfg s (.delete self called owners env o)
        (fanOut cfg s self owners o (deleteLocal (s.node self).store env self cfg.key called))
  | deliver {i env c} (hi : s.calls[i]? = some c) (hl : c.lost = false) (hd : c.dst ∈ cfg.nodes) :
      Stepped cfg s (.deliver i env) (handle cfg s i c env)
  | lose {i c} (hi : s.calls[i]? = some c) :
      Stepped cfg s (.lose i) (s.setCall i { c with lost := true })
  | ack {i c} (hi : s.calls[i]? = some c) (hp : c.phase = .sent) (hh : c.handled = true) :
      Stepped cfg s (.ack i) (s.setCall i { c with phase := .acked })
  | fail {i c} (hi : s.calls[i]? = some c) (hp : c.phase = .sent) :
      Stepped cfg s (.fail i) (s.setCall i { c with phase := .failed })
  | park {i c} (hi : s.calls[i]? = some c) (hp : c.phase = .failed)
      (ho : c.origin.isFanOut = true) : Stepped cfg s (.park i) (parkHint cfg s i c)
  | report {i c w op ok} (hi : s.calls[i]? = some c) (ho : c.origin = .fanOut w)
      (hp : c.phase = .acked ∧ ok = true ∨ c.phase = .parked ∧ ok = false)
      (hw : s.writes[w]? = some op) (hr : c.dst ∈ op.running) :
      Stepped cfg s (.report i) { s.setCall i { c with phase := .finished ok } with
        writes := s.writes.set w { op with
          running := op.running.erase c.dst, results := op.results ++ [(c.dst, ok)] } }
  | reply {w op acks} (hw : s.writes[w]? = some op) (hr : op.reply = none)
      (hg : gather (op.running.length + op.results.length) op.need (op.results.map Prod.snd)
        = some acks) :
      Stepped cfg s (.reply w) { s with
        writes := s.writes.set w { op with reply := some (writeReply op.kind op.need acks) } }
  | replay {self} (hself : self ∈ cfg.nodes) :
      Stepped cfg s (.replay self) { s with calls := s.calls ++ replayCalls cfg s self }
  | forget {i c} (hi : s.calls[i]? = some c) (hp : c.phase = .acked) (ho : c.origin = .replay) :
      Stepped cfg s (.forget i) (forgetHint cfg s i c)
  | read {self owners now} (hself : self ∈ cfg.nodes) (hn : owners.length ≤ cfg.n) :
      Stepped cfg s (.read self owners now) (startRead cfg s self owners now)
  | rget {j p now rd} (hj : s.reads[j]? = some (.waiting rd)) (ha : p ∈ rd.asked)
      (hp : p ∈ cfg.nodes) : Stepped cfg s (.rget j p now) (serveGet cfg s j rd p now)
  | arrive {j k rd x} (hj : s.reads[j]? = some (.waiting rd)) (hx : rd.answers[k]? = some x)
      (ha : x.1 ∈ rd.asked) :
      Stepped cfg s (.arrive j k) (s.setRead j (.waiting { rd with
        asked := rd.asked.erase x.1, results := rd.results ++ [peerResult x.1 x.2] }))
  | miss {j p rd} (hj : s.reads[j]? = some (.waiting rd)) (ha : p ∈ rd.asked) :
      Stepped cfg s (.miss j p) (s.setRead j (.waiting { rd with
        asked := rd.asked.erase p, results := rd.results ++ [(p, none)] }))
  | readReply {j o rd st} (hj : s.reads[j]? = some (.waiting rd))
      (hr : readLoop rd.need (rd.asked.length + rd.results.length) (readInit rd.coord rd.own)
        rd.results = some st) :
      Stepped cfg s (.readReply j o)
        (s.setRead j (.replied rd.coord rd.need st (repairs o rd.coord rd.need st)))
  | repair {j env coord need st r todo}
      (hj : s.reads[j]? = some (.replied coord need st (r :: todo))) :
      Stepped cfg s (.repair j env)
        ((runRepair cfg s j coord env r).setRead j (.replied coord need st todo))
  | pull {self p now blob} (hself : self ∈ cfg.nodes) (hp : p ∈ cfg.nodes)
      (hb : ((s.node p).store.get now cfg.key).1 = some blob) :
      Stepped cfg s (.pull self p now) { s with pulls := s.pulls ++ [(self, blob)] }
  | fold {i env p} (hi : s.pulls[i]? = some p) :
      Stepped cfg s (.fold i env) (foldPull cfg s i env p)
  | dropPull {i p} (hi : s.pulls[i]? = some p) :
      Stepped cfg s (.dropPull i) { s with pulls := s.pulls.eraseIdx i }
  | reap {self k now t} : Stepped cfg s (.reap self k now t)
      (s.setStore self (reap (s.node self).store k now cfg.grace t).2)
  | other {self k value env} (hk : k ≠ cfg.key) : Stepped cfg s (.other self k value env)
      (s.setStore self
        ((s.node self).store.updateReplica env.entries env.now k fun _ => value).2)
  | lookup {self k now} :
      Stepped cfg s (.lookup self k now) (s.setStore self ((s.node self).store.get now k).2)

theorem stepped {cfg : Config σ} {s s' : State σ} {a : Action} (h : step cfg s a = some s') :
    Stepped cfg s a s' := by
  cases a with
  | write self value owners env o =>
    simp only [step, Option.ite_none_right_eq_some, Option.some.injEq] at h
    obtain ⟨⟨hself, hn, hval⟩, rfl⟩ := h
    exact .write hself hn hval
  | delete self called owners env o =>
    simp only [step, Option.ite_none_right_eq_some, Option.some.injEq] at h
    obtain ⟨⟨hself, hn⟩, rfl⟩ := h
    exact .delete hself hn
  | deliver i env =>
    obtain ⟨c, hi, hp, rfl⟩ := pick_eq_some.mp h
    simp only [Bool.and_eq_true, Bool.not_eq_true', decide_eq_true_eq] at hp
    exact .deliver hi hp.1 hp.2
  | lose i =>
    obtain ⟨c, hi, -, rfl⟩ := pick_eq_some.mp h
    exact .lose hi
  | ack i =>
    obtain ⟨c, hi, hp, rfl⟩ := pick_eq_some.mp h
    simp only [Bool.and_eq_true, decide_eq_true_eq] at hp
    exact .ack hi hp.1 hp.2
  | fail i =>
    obtain ⟨c, hi, hp, rfl⟩ := pick_eq_some.mp h
    exact .fail hi (of_decide_eq_true hp)
  | park i =>
    obtain ⟨c, hi, hp, rfl⟩ := pick_eq_some.mp h
    simp only [Bool.and_eq_true, decide_eq_true_eq] at hp
    exact .park hi hp.1 hp.2
  | report i =>
    obtain ⟨c, hi, h⟩ := Option.bind_eq_some_iff.mp h
    obtain ⟨w, op, ok, ho, hp, hw, hr, rfl⟩ := reportCall_eq_some h
    exact .report hi ho hp hw hr
  | reply w =>
    obtain ⟨op, hw, h⟩ := Option.bind_eq_some_iff.mp h
    obtain ⟨hr, acks, hg, rfl⟩ := finishWrite_eq_some h
    exact .reply hw hr hg
  | replay self =>
    simp only [step, Option.ite_none_right_eq_some, Option.some.injEq] at h
    obtain ⟨hself, rfl⟩ := h
    exact .replay hself
  | forget i =>
    obtain ⟨c, hi, hp, rfl⟩ := pick_eq_some.mp h
    simp only [Bool.and_eq_true, decide_eq_true_eq] at hp
    exact .forget hi hp.1 hp.2
  | read self owners now =>
    simp only [step, Option.ite_none_right_eq_some, Option.some.injEq] at h
    obtain ⟨⟨hself, hn⟩, rfl⟩ := h
    exact .read hself hn
  | rget j p now =>
    obtain ⟨rd, hj, h⟩ := mem_of_onWaiting h
    simp only [Option.ite_none_right_eq_some, Option.some.injEq] at h
    obtain ⟨⟨ha, hp⟩, rfl⟩ := h
    exact .rget hj ha hp
  | arrive j k =>
    obtain ⟨rd, hj, h⟩ := mem_of_onWaiting h
    obtain ⟨x, hx, h⟩ := Option.bind_eq_some_iff.mp h
    obtain ⟨ha, rfl⟩ := receive_eq_some h
    exact .arrive hj hx ha
  | miss j p =>
    obtain ⟨rd, hj, h⟩ := mem_of_onWaiting h
    obtain ⟨ha, rfl⟩ := receive_eq_some h
    exact .miss hj ha
  | readReply j o =>
    obtain ⟨rd, hj, h⟩ := mem_of_onWaiting h
    obtain ⟨st, hr, rfl⟩ := Option.map_eq_some_iff.mp h
    exact .readReply hj hr
  | repair j env =>
    obtain ⟨rd, hj, h⟩ := Option.bind_eq_some_iff.mp h
    obtain ⟨coord, need, st, r, todo, rfl, rfl⟩ := nextRepair_eq_some h
    exact .repair hj
  | pull self p now =>
    simp only [step, Option.ite_none_right_eq_some, Option.map_eq_some_iff] at h
    obtain ⟨⟨hself, hp⟩, blob, hb, rfl⟩ := h
    exact .pull hself hp hb
  | fold i env =>
    obtain ⟨p, hi, -, rfl⟩ := pick_eq_some.mp h
    exact .fold hi
  | dropPull i =>
    obtain ⟨p, hi, -, rfl⟩ := pick_eq_some.mp h
    exact .dropPull hi
  | reap self k now t =>
    simp only [step, Option.some.injEq] at h
    exact h ▸ .reap
  | other self k value env =>
    simp only [step, Option.ite_none_right_eq_some, Option.some.injEq] at h
    obtain ⟨hk, rfl⟩ := h
    exact .other hk
  | lookup self k now =>
    simp only [step, Option.some.injEq] at h
    exact h ▸ .lookup

end Kyria.Cluster
