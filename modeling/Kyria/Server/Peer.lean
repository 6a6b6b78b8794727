import Kyria.AntiEntropy
import Kyria.Lib.Tally
import Kyria.Lib.Runs
import Kyria.Server.Connection

/-!
The client a node calls its peers with (`internal/server/peer.go`): a pool of warm connections, a
call that tries one of them first, and a second try on a fresh one.

The state has the connections with the bytes that went over them in both directions, the calls
with how far each has come, and the pool. A run is any interleaving of calls, of the loops the
peers run on their ends, and of whatever the network does.
-/

namespace Kyria.Server.Peer

open Std (ExtTreeMap)
open Kyria.Lib.Cursor Kyria.Lib.Runs Kyria.Lib.Tally Kyria.Protocol Kyria.Text Kyria.Sha256
open Kyria.Server.Connection Kyria.BucketCodec

/-! ### Reading a value at the end of a stream -/

lemma frames_bulk_rest {fs : List Frame} (hfs : ∀ f ∈ fs, f.Taken) {bs : List Bytes}
    (hbs : ∀ b ∈ bs, b.length < 2 ^ 63) (hlen : fs.length = bs.length) {rest : Bytes}
    (heq : fs.flatMap Frame.bytes ++ rest =
      bs.flatMap fun b => (Value.bulkString (some b)).encode) :
    (∀ b ∈ bs, b.length ≤ maxBulkSize) ∧ rest = [] := by
  induction fs generalizing bs with
  | nil =>
    have hbs' : bs = [] := List.length_eq_zero_iff.mp hlen.symm
    subst hbs'
    exact ⟨by simp, heq⟩
  | cons f fs ih =>
    obtain _ | ⟨b, bs⟩ := bs
    · cases hlen
    · rw [List.flatMap_cons, List.flatMap_cons, List.append_assoc] at heq
      obtain ⟨hmax, hrest⟩ := frame_bulk (hfs f List.mem_cons_self)
        (.inl (hbs b List.mem_cons_self)) heq
      obtain ⟨hall, hnil⟩ := ih (fun g hg => hfs g (List.mem_cons_of_mem _ hg))
        (fun b hb => hbs b (List.mem_cons_of_mem _ hb)) (Nat.succ.inj hlen) hrest
      exact ⟨List.forall_mem_cons.mpr ⟨hmax, hall⟩, hnil⟩

lemma sendable_of_frame {v : Value} (h : Plain v) (hsmall : v.encode.length < 2 ^ 63) {f : Frame}
    (hf : f.Taken) {rest : Bytes} (heq : f.bytes ++ rest = v.encode) :
    v.Sendable ∧ rest = [] := by
  cases h with
  | @simpleString t hlf =>
    cases hf with
    | @simpleString t' hline =>
      have hshape : t' ++ crlf ++ rest = t ++ crlf ++ [] := by
        simpa [Frame.bytes, Value.encode] using heq
      obtain ⟨rfl, hrest⟩ := line_unique hline.noFeed hlf hshape
      exact ⟨.simpleString hlf hline.fits, hrest⟩
    | _ => simp [Frame.bytes, Value.encode] at heq
  | @error t hlf =>
    have herr : 10 ∉ ascii "ERR " ++ t := by
      rw [List.mem_append, not_or]
      exact ⟨by decide, hlf⟩
    cases hf with
    | @error t' hline =>
      have hshape : t' ++ crlf ++ rest = ascii "ERR " ++ t ++ crlf ++ [] := by
        simpa [Frame.bytes, Value.encode] using heq
      obtain ⟨rfl, hrest⟩ := line_unique hline.noFeed herr hshape
      exact ⟨.error herr hline.fits, hrest⟩
    | _ => simp [Frame.bytes, Value.encode] at heq
  | integer i =>
    cases hf with
    | @integer t' z hline hz =>
      have hshape : t' ++ crlf ++ rest = itoa i.toInt ++ crlf ++ [] := by
        simpa [Frame.bytes, Value.encode] using heq
      exact ⟨.integer i, (hline.unique (literal_itoa _) hshape).2⟩
    | _ => simp [Frame.bytes, Value.encode] at heq
  | bulkString b =>
    cases b with
    | none =>
      have hminus : (Value.bulkString none).encode = 36 :: (ascii "-1" ++ crlf ++ []) := by decide
      rw [hminus] at heq
      cases hf with
      | @nullBulk t' z hline hz hneg =>
        have hshape : t' ++ crlf ++ rest = ascii "-1" ++ crlf ++ [] := by
          simpa [Frame.bytes] using heq
        exact ⟨.nullBulk, (line_unique hline.noFeed (by decide) hshape).2⟩
      | @bulk t' b w z hline hz hlen hmax hw =>
        have hshape : t' ++ crlf ++ (b ++ w ++ rest) = ascii "-1" ++ crlf ++ [] := by
          simpa [Frame.bytes] using heq
        obtain ⟨-, hnil⟩ := line_unique hline.noFeed (by decide) hshape
        have := congrArg List.length hnil
        simp only [List.length_append, List.length_nil] at this
        omega
      | _ => simp [Frame.bytes] at heq
    | some b =>
      have hb : b.length < 2 ^ 63 := by
        refine lt_of_le_of_lt ?_ hsmall
        simp only [Value.encode, List.length_append]
        omega
      obtain ⟨hmax, hrest⟩ := frame_bulk hf (x := rest) (y := []) (.inl hb)
        (by rw [heq, List.append_nil])
      exact ⟨.bulk hmax, hrest⟩
  | @array bs hbs =>
    have henc : (Value.array (bs.map fun b => .bulkString (some b))).encode =
        42 :: (itoa bs.length ++ crlf ++
          bs.flatMap fun b => (Value.bulkString (some b)).encode) := by
      simp [Value.encode, encodeElems_eq, List.flatMap_map]
    have hcount : bs.length < 2 ^ 63 := by
      refine lt_of_le_of_lt ?_ hsmall
      have : bs.length ≤ (bs.flatMap fun b => (Value.bulkString (some b)).encode).length := by
        simpa using sum_le_length_flatMap (g := fun _ => 1) (l := bs)
          (f := fun b => (Value.bulkString (some b)).encode) fun b _ => by simp [Value.encode]
      rw [henc, List.length_cons, List.length_append]
      omega
    rw [henc] at heq
    cases hf with
    | @nullArray t' z hline hz hneg =>
      have hshape : t' ++ crlf ++ rest = itoa bs.length ++ crlf ++
          bs.flatMap fun b => (Value.bulkString (some b)).encode := by
        simpa [Frame.bytes] using heq
      -- a count is not negative
      obtain ⟨rfl, -⟩ := hline.unique (literal_itoa _) hshape
      rw [literal_itoa] at hz
      cases hz
      rw [toInt_ofInt_count le_rfl hcount] at hneg
      omega
    | @array t' z elems hline hz hlen hmax helems =>
      have hshape : t' ++ crlf ++ (elems.flatMap Frame.bytes ++ rest) = itoa bs.length ++ crlf ++
          bs.flatMap fun b => (Value.bulkString (some b)).encode := by
        simpa [Frame.bytes, bytesOf_eq] using heq
      obtain ⟨rfl, helem⟩ := hline.unique (literal_itoa _) hshape
      rw [literal_itoa] at hz
      cases hz
      rw [toInt_ofInt_count le_rfl hcount] at hlen
      have hsame : elems.length = bs.length := by omega
      obtain ⟨hall, hrest⟩ := frames_bulk_rest helems hbs hsame helem
      refine ⟨.array (by rw [List.length_map]; omega) fun v hv => ?_, hrest⟩
      obtain ⟨b, hb, rfl⟩ := List.mem_map.mp hv
      exact .bulk (hall b hb)
    | _ => simp [Frame.bytes] at heq

/-- **What is read off the end of a stream is what was written there.** -/
lemma decode_at_end {v x : Value} (h : Plain v) (hsmall : v.encode.length < 2 ^ 63) {before : Bytes}
    {off : ℕ} (hdec : Protocol.decode (before ++ v.encode) before.length = .ok (x, off)) :
    v.Sendable ∧ x = v ∧ off = (before ++ v.encode).length := by
  obtain ⟨e, ⟨f, hf, -, rfl⟩, hdrop, -⟩ := consumes_decodeWith_frame _ _ _ x off hdec
  rw [List.drop_left] at hdrop
  obtain ⟨hsend, -⟩ := sendable_of_frame h hsmall hf hdrop.symm
  have hexact := (exact_decode hsend).recovers before []
  rw [List.append_nil, hdec, Except.ok.injEq, Prod.mk.injEq] at hexact
  exact ⟨hsend, hexact⟩

/-! ### Connections -/

/-- What a node asks of a peer. -/
inductive Request
  | get (key : Bytes)
  | replicate (key blob : Bytes)
  | tree (leaves : ℤ)
  | bucketEntries (leaves : ℤ) (buckets : List ℤ)

def Request.command : Request → Command
  | .get key => { name := ascii "RGET", args := [key] }
  | .replicate key blob => { name := ascii "RSET", args := [key, blob] }
  | .tree leaves => { name := ascii "RTREE", args := [itoa leaves] }
  | .bucketEntries leaves buckets =>
    { name := ascii "RBUCKET", args := [itoa leaves, encodeBuckets buckets] }

/-- The bytes `roundtrip` writes for a request. -/
def Request.encode (r : Request) : Bytes := (Connection.request r.command).encode

/-- Who has this side of a connection. -/
inductive Holder
  | pool
  | call (k : ℕ)
  /-- It was closed. -/
  | nobody
  deriving DecidableEq

/-- A request that was begun on a connection: by which call, and whether that had the connection
from the pool. -/
structure Attempt where
  call : ℕ
  reused : Bool
  request : Request

/-- A `pooledConn` with the peer's end of it. -/
structure Link where
  addr : Bytes
  requests : List Attempt := []
  /-- How many bytes of them were written. -/
  written : ℕ := 0
  /-- The cursor of the peer's loop. -/
  off : ℕ := 0
  /-- The commands the loop has handed to the peer's handler. -/
  handled : List Command := []
  replies : List Value := []
  /-- The peer's loop has returned. -/
  ended : Bool := false
  /-- The cursor of the persistent reader. -/
  read : ℕ := 0
  holder : Holder

/-- The bytes of all requests. -/
def Link.stream (l : Link) : Bytes := l.requests.flatMap fun r => r.request.encode

/-- The bytes of all replies. -/
def Link.output (l : Link) : Bytes := l.replies.flatMap Value.encode

section Serve

variable {σ : Type} (H : Hash) (U : Printable)

/-- The peer writes a reply. Byte strings have fewer than `2 ^ 63` bytes. -/
def Link.reply (l : Link) (v : Value) (off : ℕ) (ended : Bool) : Option Link :=
  if v.encode.length < 2 ^ 63 then
    some { l with replies := l.replies ++ [v], off := off, ended := ended }
  else none

/-- A turn of the peer's loop, when `n` bytes have come in; the handler is in some state. -/
def Link.serve (l : Link) (n : ℕ) (h : Handler σ) (amb : Ambient) : Option Link :=
  if l.ended then none
  else match incoming U ((l.stream.take l.written).take n) l.off with
    | .wait => none
    | .drop => some { l with ended := true }
    | .refuse v => l.reply v l.off true
    | .again v off => l.reply v off false
    | .command cmd off =>
      let l := { l with handled := l.handled ++ [cmd] }
      match (handle H h amb cmd).1 with
      | none => some { l with ended := true }
      | some v => l.reply v off false

/-- Begin a request: all of its bytes are written, or the write fails after `n` of them. -/
def Link.send (l : Link) (k : ℕ) (reused : Bool) (r : Request) (n : ℕ) : Link :=
  { l with requests := l.requests ++ [⟨k, reused, r⟩], written := l.stream.length + n }

end Serve

/-! ### Calls -/

/-- How far a call of `Peer.do` has come; a connection is fresh, or reused. -/
inductive Phase
  | started
  | dialing
  | sending (c : ℕ) (reused : Bool)
  | awaiting (c : ℕ) (reused : Bool)
  /-- The round trip has failed, `conn.Close` is next. -/
  | broken (c : ℕ) (reused : Bool)
  /-- The round trip has succeeded, `put` is next. -/
  | replied (c : ℕ) (reply : Value)
  | returned (reply : Value)
  | failed
  deriving DecidableEq

structure Call where
  addr : Bytes
  request : Request
  phase : Phase

/-- The pool, all connections ever dialled, and all calls ever made. -/
structure State where
  idle : ExtTreeMap Bytes (List ℕ)
  links : List Link
  calls : List Call

/-- `NewPeer`. -/
def State.initial : State := { idle := ∅, links := [], calls := [] }

/-- The warm connections to a peer. -/
def State.warm (s : State) (addr : Bytes) : List ℕ := (s.idle[addr]?).getD []

def maxIdlePerPeer : ℕ := 8

def State.setCall (s : State) (k : ℕ) (d : Call) (p : Phase) : State :=
  { s with calls := s.calls.set k { d with phase := p } }

def State.setLink (s : State) (c : ℕ) (l : Link) : State := { s with links := s.links.set c l }

def State.setIdle (s : State) (addr : Bytes) (cs : List ℕ) : State :=
  { s with idle := s.idle.insert addr cs }

section Fields

variable (s : State) (k c : ℕ) (d : Call) (p : Phase) (l : Link) (addr : Bytes) (cs : List ℕ)

@[simp] lemma State.links_setCall : (s.setCall k d p).links = s.links := rfl
@[simp] lemma State.warm_setCall : (s.setCall k d p).warm = s.warm := rfl
@[simp] lemma State.calls_setCall :
    (s.setCall k d p).calls = s.calls.set k { d with phase := p } := rfl
@[simp] lemma State.links_setLink : (s.setLink c l).links = s.links.set c l := rfl
@[simp] lemma State.warm_setLink : (s.setLink c l).warm = s.warm := rfl
@[simp] lemma State.calls_setLink : (s.setLink c l).calls = s.calls := rfl
@[simp] lemma State.links_setIdle : (s.setIdle addr cs).links = s.links := rfl
@[simp] lemma State.calls_setIdle : (s.setIdle addr cs).calls = s.calls := rfl

end Fields

/-- A step of a call. -/
inductive CallStep
  | getIdle
  | dial (ok : Bool)
  | send
  /-- A write that fails after `n` bytes. -/
  | sendFails (n : ℕ)
  /-- `Decode`, when `n` bytes of the replies have come in. -/
  | receive (n : ℕ)
  /-- The deadline passes, or the connection is gone. -/
  | giveUp
  | close
  | put

/-- A step of call `k`, which stands at `d`. -/
def callStep (s : State) (k : ℕ) (d : Call) : CallStep → Option State
  | .getIdle =>
    match d.phase with
    | .started =>
      match (s.warm d.addr).getLast? with
      | some c => s.links[c]?.map fun l =>
          ((s.setIdle d.addr (s.warm d.addr).dropLast).setLink c
            { l with holder := .call k }).setCall k d (.sending c true)
      | none => some (s.setCall k d .dialing)
    | _ => none
  | .dial ok =>
    match d.phase with
    | .dialing =>
      if ok then some { s.setCall k d (.sending s.links.length false) with
                        links := s.links ++ [{ addr := d.addr, holder := .call k }] }
      else some (s.setCall k d .failed)
    | _ => none
  | .send =>
    match d.phase with
    | .sending c reused => s.links[c]?.map fun l =>
        (s.setLink c (l.send k reused d.request d.request.encode.length)).setCall k d
          (.awaiting c reused)
    | _ => none
  | .sendFails n =>
    match d.phase with
    | .sending c reused => s.links[c]?.map fun l =>
        (s.setLink c (l.send k reused d.request n)).setCall k d (.broken c reused)
    | _ => none
  | .receive n =>
    match d.phase with
    | .awaiting c reused => s.links[c]?.bind fun l =>
        match Protocol.decode (l.output.take n) l.read with
        | .ok (v, off) => some ((s.setLink c { l with read := off }).setCall k d (.replied c v))
        | .error .eof => none
        | .error _ => some ((s.setLink c l).setCall k d (.broken c reused))
    | _ => none
  | .giveUp =>
    match d.phase with
    | .sending c reused | .awaiting c reused => s.links[c]?.map fun l =>
        (s.setLink c l).setCall k d (.broken c reused)
    | _ => none
  | .close =>
    match d.phase with
    | .broken c reused => s.links[c]?.map fun l =>
        (s.setLink c { l with holder := .nobody }).setCall k d
          (if reused then .dialing else .failed)
    | _ => none
  | .put =>
    match d.phase with
    | .replied c v => s.links[c]?.map fun l =>
        if (s.warm d.addr).length ≥ maxIdlePerPeer then
          (s.setLink c { l with holder := .nobody }).setCall k d (.returned v)
        else
          ((s.setIdle d.addr (s.warm d.addr ++ [c])).setLink c { l with holder := .pool }).setCall k
            d (.returned v)
    | _ => none

/-- `Peer.Close`. -/
def State.close (s : State) : State :=
  let pooled := s.idle.toList.flatMap Prod.snd
  { s with
    idle := ∅
    links := s.links.mapIdx fun c l => if c ∈ pooled then { l with holder := .nobody } else l }

inductive Action (σ : Type)
  /-- Someone calls a peer. -/
  | begin (addr : Bytes) (r : Request)
  | call (k : ℕ) (a : CallStep)
  | close
  /-- The peer at the other end of connection `c` takes a turn. -/
  | serve (c n : ℕ) (h : Handler σ) (amb : Ambient)
  /-- The peer closes its end. -/
  | hangUp (c : ℕ)

def step {σ : Type} (H : Hash) (U : Printable) (s : State) : Action σ → Option State
  | .begin addr r =>
    if r.encode.length < 2 ^ 63 then
      some { s with calls := s.calls ++ [{ addr := addr, request := r, phase := .started }] }
    else none
  | .call k a => s.calls[k]?.bind fun d => callStep s k d a
  | .close => some s.close
  | .serve c n h amb => s.links[c]?.bind fun l => (l.serve H U n h amb).map (s.setLink c)
  | .hangUp c => s.links[c]?.map fun l => s.setLink c { l with ended := true }

/-! ### What a peer replies -/

section Replies

variable {σ : Type} (H : Hash) (U : Printable)

/-- The reply of a peer's handler, in some state, to the request; or the refusal of a request that
is over the limits of the decoder. -/
def Answers (σ : Type) (r : Request) (v : Value) : Prop :=
  Sendable r.command ∧ (∃ (h : Handler σ) (amb : Ambient), (handle H h amb r.command).1 = some v) ∨
    ¬ Sendable r.command ∧ ∃ e, v = .error (ascii "ERR " ++ protocolText U e)

lemma not_mem_protocolText (e : ProtocolError) : 10 ∉ protocolText U e := by
  cases e with
  | unknownType c => simpa [protocolText] using ⟨by decide, lf_notMem_quoteByte U c⟩
  | lineMissingTerminator => exact (by decide : 10 ∉ ascii "protocol: line missing CRLF terminator")
  | emptyInteger => exact (by decide : 10 ∉ ascii "protocol: empty integer")
  | invalidInteger b => simpa [protocolText] using ⟨by decide, lf_notMem_quoteBytes U b⟩
  | bulkTooLarge n => simpa [protocolText] using ⟨by decide, (itoa_line n).1, by decide⟩
  | arrayTooLarge n => simpa [protocolText] using ⟨by decide, (itoa_line n).1, by decide⟩

lemma plain_command {h : Handler σ} {amb : Ambient} (r : Request) {v : Value}
    (hv : (handle H h amb r.command).1 = some v) : Plain v := by
  cases r with
  | get key =>
    rw [Request.command, handle_of_not_clustered ⟨ascii "RGET", [key]⟩ ⟨1, 1, false, .rget⟩ rfl rfl
      (by simp)] at hv
    cases hv
    exact .bulkString _
  | replicate key blob =>
    rw [Request.command, handle_of_not_clustered ⟨ascii "RSET", [key, blob]⟩ ⟨2, 2, false, .rset⟩
      rfl rfl (by simp)] at hv
    cases hv
    exact plain_rset _ _ _ _
  | tree leaves =>
    rw [Request.command, handle_rtree] at hv
    exact plain_rtree H hv
  | bucketEntries leaves buckets =>
    rw [Request.command, handle_rbucket] at hv
    exact plain_rbucket H hv

variable {H U} {r : Request} {v : Value}

lemma Answers.plain (h : Answers H U σ r v) : Plain v := by
  rcases h with ⟨-, h, amb, hv⟩ | ⟨-, e, rfl⟩
  · exact plain_command H r hv
  · exact .error (not_mem_protocolText U e)

lemma sendable_of_request {cmd : Command} (h : (Connection.request cmd).Sendable) :
    Sendable cmd := by
  cases h with
  | array hcount helems =>
    refine ⟨by simpa using hcount, fun b hb => ?_⟩
    have hb' := helems _ (List.mem_map_of_mem hb)
    cases hb' with
    | bulk hlen => exact hlen

lemma plain_request (h : r.encode.length < 2 ^ 63) : Plain (Connection.request r.command) := by
  refine .array fun b hb => ?_
  have hmem : Value.bulkString (some b) ∈ (r.command.name :: r.command.args).map
      fun b => Value.bulkString (some b) := List.mem_map_of_mem hb
  have hsum := List.single_le_sum (by simp) _
    (List.mem_map_of_mem (f := fun v => v.encode.length) hmem)
  have henc : ∀ elems : List Value, (elems.map fun v => v.encode.length).sum ≤
      (Value.array elems).encode.length := by
    intro elems
    rw [Value.encode, encodeElems_eq, List.length_append, List.length_flatMap]
    omega
  have hb' : b.length ≤ (Value.bulkString (some b)).encode.length := by
    simp only [Value.encode, List.length_append]
    omega
  exact lt_of_le_of_lt (hb'.trans (hsum.trans (henc _))) h

end Replies

/-! ### A connection with one request at a time -/

/-- What was asked and replied on a connection so far. -/
structure Link.Ok (σ : Type) (H : Hash) (U : Printable) (l : Link) : Prop where
  /-- At most one request is without a reply. -/
  count : l.replies.length ≤ l.requests.length ∧ l.requests.length ≤ l.replies.length + 1
  /-- The peer's loop is behind the requests it has replied to. -/
  cursor : l.ended = false →
    l.off = ((l.requests.take l.replies.length).flatMap fun r => r.request.encode).length
  /-- What the peer has handled are the requests, in their order. -/
  handled : l.handled <+: l.requests.map fun r => r.request.command
  /-- None of them is without a reply, as long as the loop runs. -/
  replied : l.ended = false → l.handled.length = l.replies.length
  small_requests : ∀ r ∈ l.requests, r.request.encode.length < 2 ^ 63
  small_replies : ∀ v ∈ l.replies, v.encode.length < 2 ^ 63
  /-- Each reply answers the request it belongs to. -/
  answers : ∀ (j : ℕ) (v : Value), l.replies[j]? = some v →
    ∃ r, l.requests[j]? = some r ∧ Answers H U σ r.request v

/-- All replies have come and were read. -/
def Link.Ready (l : Link) : Prop :=
  l.replies.length = l.requests.length ∧ l.read = l.output.length

/-- The last request is that of call `k`, and all replies but its own were read. -/
def Link.Awaits (l : Link) (k : ℕ) (r : Request) : Prop :=
  ∃ rs reused, l.requests = rs ++ [⟨k, reused, r⟩] ∧ rs.length ≤ l.replies.length ∧
    l.read = ((l.replies.take rs.length).flatMap Value.encode).length

/-- The request of call `k` was replied to with `v` on this connection. -/
def Link.Got (l : Link) (k : ℕ) (r : Request) (v : Value) : Prop :=
  ∃ (j : ℕ) (reused : Bool), l.requests[j]? = some ⟨k, reused, r⟩ ∧ l.replies[j]? = some v

/-- What never changes on a connection, and what only grows. -/
structure Link.Later (l l' : Link) : Prop where
  addr : l'.addr = l.addr
  requests : l.requests <+: l'.requests
  replies : l.replies <+: l'.replies

section Link

variable {σ : Type} {H : Hash} {U : Printable} {l l' : Link} {k : ℕ} {r : Request} {v : Value}

lemma Link.Later.refl (l : Link) : l.Later l := ⟨rfl, List.prefix_rfl, List.prefix_rfl⟩

lemma Link.later_pass (l : Link) (x : Holder) : l.Later { l with holder := x } :=
  ⟨rfl, List.prefix_rfl, List.prefix_rfl⟩

lemma getElem?_of_prefix {α : Type} {xs ys : List α} (h : xs <+: ys) {j : ℕ} {x : α}
    (hx : xs[j]? = some x) : ys[j]? = some x := by
  obtain ⟨zs, rfl⟩ := h
  rw [List.getElem?_append_left (List.getElem?_eq_some_iff.mp hx).1, hx]

lemma Link.Got.later (h : l.Got k r v) (hl : l.Later l') : l'.Got k r v := by
  obtain ⟨j, reused, hreq, hrep⟩ := h
  exact ⟨j, reused, getElem?_of_prefix hl.requests hreq, getElem?_of_prefix hl.replies hrep⟩

lemma Link.ok_fresh (addr : Bytes) (holder : Holder) :
    Link.Ok σ H U { addr := addr, holder := holder } where
  count := by simp
  cursor := by simp
  handled := by simp
  replied := by simp
  small_requests := by simp
  small_replies := by simp
  answers := by simp

lemma Link.ready_fresh (addr : Bytes) (holder : Holder) :
    Link.Ready { addr := addr, holder := holder } := ⟨rfl, rfl⟩

lemma Link.Ok.pass (h : l.Ok σ H U) {holder : Holder} : Link.Ok σ H U { l with holder := holder } :=
  { h with }

lemma Link.Ok.stream_eq (h : l.Ok σ H U) (hlen : l.requests.length = l.replies.length + 1)
    (hend : l.ended = false) :
    ∃ before r, l.requests[l.replies.length]? = some r ∧
      l.stream = before ++ r.request.encode ∧ l.off = before.length := by
  have hlt : l.replies.length < l.requests.length := by omega
  refine ⟨(l.requests.take l.replies.length).flatMap fun r => r.request.encode,
    l.requests[l.replies.length], List.getElem?_eq_getElem hlt, ?_, h.cursor hend⟩
  have hsplit : l.requests =
      l.requests.take l.replies.length ++ [l.requests[l.replies.length]] := by
    rw [List.take_append_getElem hlt, List.take_of_length_le (by omega)]
  calc l.stream = (l.requests.take l.replies.length ++ [l.requests[l.replies.length]]).flatMap
        fun r => r.request.encode := by rw [← hsplit, Link.stream]
    _ = _ := by rw [List.flatMap_append, List.flatMap_singleton]

lemma Link.decode_stream (l : Link) (n : ℕ)
    (hwait : Protocol.decode ((l.stream.take l.written).take n) l.off ≠ .error .eof) :
    Protocol.decode l.stream l.off = Protocol.decode ((l.stream.take l.written).take n) l.off := by
  obtain ⟨rest, hrest⟩ : (l.stream.take l.written).take n <+: l.stream :=
    (List.take_prefix _ _).trans (List.take_prefix _ _)
  have h := (streams_decode ((l.stream.take l.written).take n) rest l.off).resolve_left hwait
  rwa [hrest] at h

lemma Link.Ok.reply (h : l.Ok σ H U) {r : Attempt}
    (hreq : l.requests[l.replies.length]? = some r) (hv : Answers H U σ r.request v) {off : ℕ}
    {ended : Bool} (hoff : ended = false → off = l.stream.length) {handled : List Command}
    (hhandled : handled <+: l.requests.map fun r => r.request.command)
    (hlen : ended = false → handled.length = l.replies.length + 1)
    (hl' : Link.reply { l with handled := handled } v off ended = some l') :
    l'.Ok σ H U ∧ l'.replies = l.replies ++ [v] := by
  obtain ⟨hsmall, hl'⟩ := Option.ite_none_right_eq_some.mp hl'
  cases hl'
  have hlt : l.replies.length < l.requests.length := (List.getElem?_eq_some_iff.mp hreq).1
  have hcount := h.count
  refine ⟨⟨?_, fun hend => ?_, hhandled, by simpa using hlen, h.small_requests, ?_, ?_⟩, rfl⟩
  · simp only [List.length_append, List.length_singleton]
    omega
  · rw [hoff hend, List.take_of_length_le (by simp; omega), Link.stream]
  · intro w hw
    rcases List.mem_append.mp hw with hw | hw
    · exact h.small_replies w hw
    · rwa [List.mem_singleton.mp hw]
  · intro j w hw
    dsimp only at hw
    rw [List.getElem?_append] at hw
    split at hw
    · exact h.answers j w hw
    · rename_i hj
      obtain ⟨hlt', rfl⟩ := List.getElem?_eq_some_iff.mp hw
      simp only [List.length_singleton] at hlt'
      have hjl : j = l.replies.length := by omega
      subst hjl
      exact ⟨r, hreq, by simpa using hv⟩

lemma Link.Ok.handled_append (h : l.Ok σ H U) (hend : l.ended = false) {r : Attempt}
    (hreq : l.requests[l.replies.length]? = some r) :
    l.handled ++ [r.request.command] <+: l.requests.map fun r => r.request.command := by
  have htaken := List.prefix_iff_eq_take.mp h.handled
  rw [h.replied hend] at htaken
  rw [htaken, List.prefix_iff_eq_take]
  have hget : (l.requests.map fun r => r.request.command)[l.replies.length]? =
      some r.request.command := by rw [List.getElem?_map, hreq, Option.map_some]
  obtain ⟨hlt, hget⟩ := List.getElem?_eq_some_iff.mp hget
  rw [← hget, List.take_append_getElem hlt, List.length_take_of_le (by omega)]

/-- **A turn of the peer's loop** replies to the one request that has no reply yet, if at all. -/
lemma Link.Ok.serve (h : l.Ok σ H U) {n : ℕ} {p : Handler σ} {amb : Ambient}
    (hl' : l.serve H U n p amb = some l') :
    l'.Ok σ H U ∧ (l'.replies = l.replies ∨ ∃ v, l'.replies = l.replies ++ [v]) := by
  unfold Link.serve at hl'
  split at hl'
  · cases hl'
  rename_i hend
  rw [Bool.not_eq_true] at hend
  have hended : ∀ handled : List Command, handled <+: (l.requests.map fun r => r.request.command) →
      Link.Ok σ H U { l with handled := handled, ended := true } :=
    fun handled hhandled => { h with cursor := by simp, handled := hhandled, replied := by simp }
  unfold incoming at hl'
  by_cases hwait : Protocol.decode ((l.stream.take l.written).take n) l.off = .error .eof
  · simp [hwait] at hl'
  have hstream := l.decode_stream n hwait
  rw [← hstream] at hl' hwait
  -- otherwise the loop would wait at the end of the stream
  have hlen : l.requests.length = l.replies.length + 1 := by
    by_contra hne
    have hcount := h.count
    have hoff : l.off = l.stream.length := by
      rw [h.cursor hend, List.take_of_length_le (by omega), Link.stream]
    exact hwait (decodeWith_of_end hoff.ge _)
  obtain ⟨before, r, hreq, hsplit, hbefore⟩ := h.stream_eq hlen hend
  have hsmall := h.small_requests r (List.mem_of_getElem? hreq)
  rcases hdec : Protocol.decode l.stream l.off with (_ | _ | e) | ⟨x, off⟩
  · exact absurd hdec hwait
  · simp only [hdec, Option.some.injEq] at hl'
    subst hl'
    exact ⟨hended l.handled h.handled, .inl rfl⟩
  · simp only [hdec] at hl'
    have hnot : ¬ Sendable r.request.command := by
      intro hsend
      have hok := (exact_decode (sendable_request hsend)).recovers before []
      rw [List.append_nil] at hok
      rw [hsplit, hbefore] at hdec
      cases hok.symm.trans hdec
    obtain ⟨hok, hreplies⟩ := h.reply hreq (.inr ⟨hnot, e, rfl⟩) (by simp) h.handled (by simp) hl'
    exact ⟨hok, .inr ⟨_, hreplies⟩⟩
  · rw [hsplit, hbefore] at hdec
    obtain ⟨hsend, rfl, rfl⟩ := decode_at_end (plain_request hsmall) hsmall hdec
    rw [← hsplit, ← hbefore] at hdec
    simp only [hdec, command_request] at hl'
    have hhandled := h.handled_append hend hreq
    split at hl'
    · cases hl'
      exact ⟨hended _ hhandled, .inl rfl⟩
    · rename_i v hv
      obtain ⟨hok, hreplies⟩ := h.reply hreq (.inl ⟨sendable_of_request hsend, p, amb, hv⟩)
        (fun _ => by rw [hsplit]; rfl) hhandled (fun _ => by simp [h.replied hend]) hl'
      exact ⟨hok, .inr ⟨v, hreplies⟩⟩

lemma Link.reply_frame {off : ℕ} {ended : Bool} (h : l.reply v off ended = some l') :
    l'.addr = l.addr ∧ l'.requests = l.requests ∧ l'.read = l.read ∧ l'.holder = l.holder := by
  obtain ⟨-, h⟩ := Option.ite_none_right_eq_some.mp h
  cases h
  exact ⟨rfl, rfl, rfl, rfl⟩

lemma Link.serve_frame {n : ℕ} {p : Handler σ} {amb : Ambient}
    (h : l.serve H U n p amb = some l') :
    l'.addr = l.addr ∧ l'.requests = l.requests ∧ l'.read = l.read ∧ l'.holder = l.holder := by
  unfold Link.serve at h
  split at h
  · cases h
  · split at h
    · cases h
    · cases h
      exact ⟨rfl, rfl, rfl, rfl⟩
    · exact reply_frame h
    · exact reply_frame h
    · dsimp only at h
      split at h
      · cases h
        exact ⟨rfl, rfl, rfl, rfl⟩
      · have hframe := reply_frame h
        exact hframe

lemma Link.Ok.send (h : l.Ok σ H U) (hready : l.Ready) (hsmall : r.encode.length < 2 ^ 63)
    (reused : Bool) (n : ℕ) : (l.send k reused r n).Ok σ H U := by
  have hlen := hready.1
  refine ⟨?_, fun hend => ?_, ?_, h.replied, ?_, h.small_replies, fun j v hv => ?_⟩
  · simp only [Link.send, List.length_append, List.length_singleton]
    omega
  · simp only [Link.send]
    rw [h.cursor hend, List.take_append_of_le_length hlen.le]
  · simp only [Link.send, List.map_append]
    exact h.handled.trans (List.prefix_append _ _)
  · simp only [Link.send, List.mem_append, List.mem_singleton]
    rintro r' (hr' | rfl)
    · exact h.small_requests r' hr'
    · exact hsmall
  · obtain ⟨r', hr', hans⟩ := h.answers j v hv
    exact ⟨r', getElem?_of_prefix (List.prefix_append _ _) hr', hans⟩

lemma Link.later_send (l : Link) (k : ℕ) (reused : Bool) (r : Request) (n : ℕ) :
    l.Later (l.send k reused r n) :=
  ⟨rfl, List.prefix_append _ _, List.prefix_rfl⟩

lemma Link.Ready.send (h : l.Ready) (reused : Bool) (n : ℕ) :
    (l.send k reused r n).Awaits k r := by
  refine ⟨l.requests, reused, rfl, h.1.ge, ?_⟩
  have hall : l.replies.take l.requests.length = l.replies :=
    List.take_of_length_le h.1.le
  change l.read = ((l.replies.take l.requests.length).flatMap Value.encode).length
  rw [hall, h.2, Link.output]

/-- **What a call reads is the reply to its own request**: the replies before were read, and behind
this one there is none. -/
lemma Link.Awaits.receive (h : l.Awaits k r) (hok : l.Ok σ H U) {n off : ℕ}
    (hdec : Protocol.decode (l.output.take n) l.read = .ok (v, off)) :
    v.Sendable ∧ Link.Ready { l with read := off } ∧ l.Got k r v := by
  obtain ⟨rs, reused, hreq, hle, hread⟩ := h
  have hcount := hok.count
  obtain ⟨more, hmore⟩ : l.output.take n <+: l.output := List.take_prefix _ _
  have hall : Protocol.decode l.output l.read = .ok (v, off) := by
    rw [← hmore]
    exact streams_decode.ok hdec more
  rw [hreq, List.length_append, List.length_singleton] at hcount
  by_cases hnone : l.replies.length = rs.length
  · -- no reply has come: there is nothing to read
    have hend : l.read = l.output.length := by
      rw [hread, List.take_of_length_le hnone.le, Link.output]
    have hwait : Protocol.decode l.output l.read = .error .eof := decodeWith_of_end hend.ge _
    cases hwait.symm.trans hall
  · have hlt : rs.length < l.replies.length := by omega
    have hsplit : l.replies = l.replies.take rs.length ++ [l.replies[rs.length]] := by
      rw [List.take_append_getElem hlt, List.take_of_length_le (by omega)]
    have hout : l.output =
        (l.replies.take rs.length).flatMap Value.encode ++ (l.replies[rs.length]).encode := by
      calc
        l.output = (l.replies.take rs.length ++ [l.replies[rs.length]]).flatMap Value.encode := by
          rw [← hsplit, Link.output]
        _ = _ := by rw [List.flatMap_append, List.flatMap_singleton]
    have hget : l.replies[rs.length]? = some l.replies[rs.length] := List.getElem?_eq_getElem hlt
    obtain ⟨_, -, hans⟩ := hok.answers rs.length _ hget
    have hsmall := hok.small_replies _ (List.getElem_mem hlt)
    have hdec' := hall
    rw [hout, hread] at hdec'
    obtain ⟨hsend, hv, hoff⟩ := decode_at_end hans.plain hsmall hdec'
    refine ⟨hv ▸ hsend, ⟨?_, ?_⟩, rs.length, reused, ?_, hv ▸ hget⟩
    · simp only [hreq, List.length_append, List.length_singleton]
      omega
    · rw [hoff, ← hout]
      rfl
    · simp [hreq]

end Link

end Kyria.Server.Peer
