import Kyria.BucketCodec
import Kyria.Coordinator
import Kyria.Membership
import Kyria.Merkle
import Kyria.Routing

/-!
The command handlers of a node and their dispatch (`internal/server/handler.go`), with the
entry point of the coordinator.

`none` stands for a command that is not answered: a handler that panics, or a coordinated
command that still waits for a peer.
-/

namespace Kyria.Server

open Std (ExtTreeMap)
open Kyria.Lib.Cursor Kyria.Lib.MapOrder Kyria.Store Kyria.Version Kyria.Replica Kyria.Protocol
open Kyria.Coordinator Kyria.BucketCodec Kyria.Sha256 Kyria.Text Kyria.Routing

variable {σ : Type} (H : Hash)

structure Coordinator where
  self : Bytes
  router : Router
  n : ℕ
  r : ℕ
  w : ℕ

/-- In standalone mode the last three are missing. -/
structure Handler (σ : Type) where
  store : MapStore σ
  members : Option Membership.Members := none
  router : Option Router := none
  coordinator : Option Coordinator := none

/-- What a command meets outside of the node's state: what its store operations meet, the
results that come in from peers, the orders in which maps are visited, and the text the
telemetry reports. -/
structure Ambient where
  env : Env
  acks : List Bool := []
  answers : List PeerResult := []
  members : VisitOrder (Bytes × Membership.Entry) := default
  buckets : VisitOrder (Bytes × Bytes) := default
  stats : Bytes := []

instance : Inhabited Ambient := ⟨{ env := default }⟩

/-! ### The commands -/

def errorReply (err : StoreError) : Value := .error (ascii ("ERR " ++ err.text))

def get (m : MapStore σ) (env : Env) (key : Bytes) : Value × MapStore σ :=
  let r := m.get env.now key
  (.bulkString r.1, r.2)

/-- A write the policy did not admit is answered like any other. -/
def setReply (r : Except StoreError Bool × MapStore σ) : Value × MapStore σ :=
  match r.1 with
  | .error err => (errorReply err, r.2)
  | .ok _ => (.simpleString (ascii "OK"), r.2)

/-- The time-to-live of an option word and a number. -/
def ttl (option : Bytes) (n : ℤ) : Option ℤ :=
  if toUpper option = ascii "EX" then
    some (Time.mulDuration (Int64.ofInt n) Time.nanosPerSecond)
  else if toUpper option = ascii "PX" then
    some (Time.mulDuration (Int64.ofInt n) Time.nanosPerMilli)
  else none

def set (m : MapStore σ) (env : Env) (args : List Bytes) : Value × MapStore σ :=
  match args with
  | [key, value] => setReply (m.set env.entries key value)
  | [key, value, option, number] =>
    match atoi number with
    | none => (.error (ascii "ERR value is not an integer or out of range"), m)
    | some n =>
      match ttl option n with
      | none => (.error (ascii "ERR syntax error"), m)
      | some ttl => setReply (m.setWithTTL env.entries env.now key value ttl)
  | _ => (.error (ascii "ERR syntax error"), m)

def del (m : MapStore σ) (key : Bytes) : Value × MapStore σ :=
  let r := m.delete key
  (.integer (if r.1 then 1 else 0), r.2)

def nodes (members : Option Membership.Members) (o : VisitOrder (Bytes × Membership.Entry)) :
    Value :=
  match members with
  | none => .error (ascii "ERR clustering is disabled")
  | some m => .array ((m.aliveNodes o).map fun n => .bulkString (some (n.id ++ [32] ++ n.addr)))

/-- The tree over what the store holds. -/
def buildTree (leaves : ℤ) (m : MapStore σ) (env : Env) : Option Merkle.Tree := do
  let t ← Merkle.new leaves
  Merkle.fill H t (m.range env.entries env.now)

def rtree (m : MapStore σ) (env : Env) (leaves : Bytes) : Option Value :=
  match atoi leaves with
  | none => some (.error (ascii "ERR failed to parse tree leaf count"))
  | some leafCount => do
    let t ← buildTree H leafCount m env
    let b ← t.encode
    return .bulkString (some b)

/-- The entries in the buckets asked for. -/
def entriesIn (t : Merkle.Tree) (buckets : List ℤ) (range : List (Bytes × Bytes)) : Entries :=
  (range.filter fun e => t.bucket H e.1 ∈ buckets).foldl (fun m e => m.insert e.1 e.2) ∅

def rbucket (m : MapStore σ) (env : Env) (o : VisitOrder (Bytes × Bytes))
    (leaves bucketSet : Bytes) : Option Value :=
  match atoi leaves with
  | none => some (.error (ascii "ERR failed to parse tree leaf count"))
  | some leafCount =>
    match decodeBuckets bucketSet with
    | .error _ => some (.error (ascii "ERR malformed bucket set"))
    | .ok buckets => do
      let t ← Merkle.new leafCount
      let entries := entriesIn H t buckets (m.range env.entries env.now)
      return .bulkString (some (encodeEntries o entries))

/-! ### Coordinated commands -/

namespace Coordinator

/-- What `write` and `delete` reply, after their local apply. -/
def finish (c : Coordinator) (amb : Ambient) (key : Bytes)
    (r : Except StoreError (WriteKind × Version) × MapStore σ) : Option Value × MapStore σ :=
  match r.1 with
  | .error err => (some (errorReply err), r.2)
  | .ok (kind, _) =>
    let replicas := c.router.owners key c.n
    let need := min c.w replicas.length
    ((gather (peersExcept replicas c.self).length need amb.acks).map fun acks =>
      writeReply kind need acks, r.2)

def write (c : Coordinator) (m : MapStore σ) (amb : Ambient) (key value : Bytes) :
    Option Value × MapStore σ :=
  c.finish amb key (writeLocal m amb.env c.self key value)

def delete (c : Coordinator) (m : MapStore σ) (amb : Ambient) (key : Bytes) :
    Option Value × MapStore σ :=
  c.finish amb key (deleteLocal m amb.env c.self key amb.env.now)

def read (c : Coordinator) (m : MapStore σ) (amb : Ambient) (key : Bytes) :
    Option Value × MapStore σ :=
  let replicas := c.router.owners key c.n
  let need := min c.r replicas.length
  let r := m.get amb.env.now key
  let st := readInit c.self (siblingsOf (r.1.getD []))
  let rounds := if st.responses < need then (peersExcept replicas c.self).length else 0
  ((readLoop need rounds st amb.answers).map fun st => readReply need st, r.2)

def coordinate (c : Coordinator) (m : MapStore σ) (amb : Ambient) (cmd : Command) :
    Option Value × MapStore σ :=
  let key := cmd.args.getD 0 []
  if toUpper cmd.name = ascii "SET" then c.write m amb key (cmd.args.getD 1 [])
  else if toUpper cmd.name = ascii "DEL" then c.delete m amb key
  else if toUpper cmd.name = ascii "GET" then c.read m amb key
  else (some (.error (ascii "ERR command not coordinated")), m)

end Coordinator

/-! ### Dispatch -/

inductive Verb
  | ping | get | set | del | nodes | rget | rset | rtree | rbucket | stats
  deriving DecidableEq

structure CommandSpec where
  minArgs : ℕ
  maxArgs : ℕ
  clusteredOp : Bool
  run : Verb

def commandTable : List (Bytes × CommandSpec) :=
  [(ascii "PING", ⟨0, 0, false, .ping⟩), (ascii "GET", ⟨1, 1, true, .get⟩),
   (ascii "SET", ⟨2, 4, true, .set⟩), (ascii "DEL", ⟨1, 1, true, .del⟩),
   (ascii "NODES", ⟨0, 0, false, .nodes⟩), (ascii "RGET", ⟨1, 1, false, .rget⟩),
   (ascii "RSET", ⟨2, 2, false, .rset⟩), (ascii "RTREE", ⟨1, 1, false, .rtree⟩),
   (ascii "RBUCKET", ⟨2, 2, false, .rbucket⟩), (ascii "STATS", ⟨0, 0, false, .stats⟩)]

def commands (name : Bytes) : Option CommandSpec :=
  (commandTable.find? fun c => c.1 = name).map Prod.snd

def runVerb (h : Handler σ) (amb : Ambient) (args : List Bytes) :
    Verb → Option Value × MapStore σ
  | .ping => (some (.simpleString (ascii "PONG")), h.store)
  | .get | .rget =>
    let r := get h.store amb.env (args.getD 0 [])
    (some r.1, r.2)
  | .set =>
    let r := set h.store amb.env args
    (some r.1, r.2)
  | .del =>
    let r := del h.store (args.getD 0 [])
    (some r.1, r.2)
  | .nodes => (some (nodes h.members amb.members), h.store)
  | .rset =>
    let r := rset h.store amb.env (args.getD 0 []) (args.getD 1 [])
    (some r.1, r.2)
  | .rtree => (rtree H h.store amb.env (args.getD 0 []), h.store)
  | .rbucket =>
    (rbucket H h.store amb.env amb.buckets (args.getD 0 []) (args.getD 1 []), h.store)
  | .stats => (some (.bulkString (some amb.stats)), h.store)

/-- The owner a client is sent to, if the key is another node's. -/
def redirect (h : Handler σ) (spec : CommandSpec) (key : Bytes) : Option Bytes :=
  match h.router with
  | some r => if spec.clusteredOp && !r.isLocal key then r.owner key else none
  | none => none

/-- The coordinator, if the command goes through it. -/
def coordinatorFor (h : Handler σ) (spec : CommandSpec) : Option Coordinator :=
  if h.router.isSome && spec.clusteredOp then h.coordinator else none

def handle (h : Handler σ) (amb : Ambient) (cmd : Command) : Option Value × Handler σ :=
  match commands (toUpper cmd.name) with
  | none => (some (.error (ascii "ERR unknown command '" ++ cmd.name ++ ascii "'")), h)
  | some spec =>
    if cmd.args.length < spec.minArgs ∨ cmd.args.length > spec.maxArgs then
      (some (.error (ascii "ERR wrong number of arguments for '" ++ cmd.name ++ ascii "'")), h)
    else
      match redirect h spec (cmd.args.getD 0 []) with
      | some owner => (some (.error (ascii "MOVED " ++ owner)), h)
      | none =>
        let r := match coordinatorFor h spec with
          | some c => c.coordinate h.store amb cmd
          | none => runVerb H h amb cmd.args spec.run
        (r.1, { h with store := r.2 })

end Kyria.Server
