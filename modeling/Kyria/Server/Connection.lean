import Kyria.Protocol.Quote
import Kyria.Protocol.Stream
import Kyria.Replies

/-!
The loop of a connection (`Server.handleConn`, `Server.writeReply`): read a value, make a command
of it, hand it to the handler, write the reply.

The bytes a client sends are one stream, of which the loop sees what has come in. The loop is
run on that as far as it goes, and taken up again when there is more.
-/

namespace Kyria.Server.Connection

open Kyria.Lib.Cursor Kyria.Protocol Kyria.Text Kyria.Sha256

/-- The type byte of a value. -/
def typeTag : Value → UInt8
  | .simpleString _ => 43
  | .error _ => 45
  | .integer _ => 58
  | .bulkString _ => 36
  | .array _ | .nullArray => 42

section Texts

variable (U : Printable)

/-- The text of a protocol error, `ProtocolError.Error`. -/
def protocolText : ProtocolError → Bytes
  | .unknownType c => ascii "protocol: unknown type byte " ++ quoteByte U c
  | .lineMissingTerminator => ascii "protocol: line missing CRLF terminator"
  | .emptyInteger => ascii "protocol: empty integer"
  | .invalidInteger b => ascii "protocol: invalid integer " ++ quoteBytes U b
  | .bulkTooLarge n => ascii "protocol: bulk too large: " ++ itoa n.toInt ++ ascii " bytes"
  | .arrayTooLarge n => ascii "protocol: array too large: " ++ itoa n.toInt ++ ascii " elements"

/-- The text of an error of `Value.Command`. -/
def commandText : CommandError → Bytes
  | .notANonEmptyArray => ascii "protocol: command must be a non-empty array"
  | .nameNotABulkString v =>
    ascii "protocol: command name must be a bulk string, got type " ++ quoteByte U (typeTag v)
  | .argumentNotABulkString v =>
    ascii "protocol: command argument must be a bulk string, got type " ++ quoteByte U (typeTag v)

/-- What the loop makes of the stream at the cursor. -/
inductive Incoming
  /-- The value is not complete. -/
  | wait
  /-- A line does not fit into the buffer: the connection is dropped. -/
  | drop
  /-- The input is not RESP: the last reply. -/
  | refuse (reply : Value)
  /-- A value that is no command is answered, and the loop goes on. -/
  | again (reply : Value) (off : ℕ)
  | command (cmd : Command) (off : ℕ)

def incoming (data : Bytes) (off : ℕ) : Incoming :=
  match Protocol.decode data off with
  | .error .eof => .wait
  | .error .bufferFull => .drop
  | .error (.protocol e) => .refuse (.error (ascii "ERR " ++ protocolText U e))
  | .ok (v, off') =>
    match v.command with
    | .error e => .again (.error (ascii "ERR " ++ commandText U e)) off'
    | .ok cmd => .command cmd off'

end Texts

/-- What the loop calls: the handler, on the state other connections leave it in, and the writes to
the connection, of which one may fail after some bytes. -/
structure Calls (S : Type) where
  printable : Printable
  handle : ℕ → S → Command → Option Value × S
  cut : ℕ → Option ℕ

/-- How far a connection has come. -/
structure Progress (S : Type) where
  state : S
  /-- The cursor into the stream. -/
  off : ℕ := 0
  /-- How many replies were written. -/
  turn : ℕ := 0
  /-- The commands that were handed to the handler. -/
  commands : List Command := []
  output : Bytes := []

/-- Why the loop has returned; at the end of what has come in it waits. -/
inductive Exit
  | eof
  | bufferFull
  | malformed
  | writeFailed
  | unanswered
  deriving DecidableEq

/-- A command as a client sends it. -/
def request (cmd : Command) : Value :=
  .array ((cmd.name :: cmd.args).map fun b => .bulkString (some b))

/-- A command within the limits of the decoder. -/
structure Sendable (cmd : Command) : Prop where
  count : cmd.args.length + 1 ≤ maxArrayCount
  sizes : ∀ b ∈ cmd.name :: cmd.args, b.length ≤ maxBulkSize

lemma sendable_request {cmd : Command} (h : Sendable cmd) : (request cmd).Sendable := by
  refine .array ?_ fun v hv => ?_
  · rw [List.length_map, List.length_cons]
    exact h.count
  · obtain ⟨b, hb, rfl⟩ := List.mem_map.mp hv
    exact .bulk (h.sizes b hb)

lemma commandArgs_map (args : List Bytes) :
    commandArgs (args.map fun b => .bulkString (some b)) = .ok args := by
  induction args with
  | nil => rfl
  | cons b args ih => simp [commandArgs, Value.bulk, ih, Except.map]

lemma command_request (cmd : Command) : (request cmd).command = .ok cmd := by
  simp [request, Value.command, Value.bulk, commandArgs_map, Except.map]

section Loop

variable {S : Type} (C : Calls S)

/-- `writeReply`, and how the loop goes on after it. -/
def writeReply (p : Progress S) (reply : Value) (next : Option Exit) :
    Progress S × Option Exit :=
  match C.cut p.turn with
  | none => ({ p with turn := p.turn + 1, output := p.output ++ reply.encode }, next)
  | some k =>
    ({ p with turn := p.turn + 1, output := p.output ++ reply.encode.take k }, some .writeFailed)

/-- One turn of the loop of `handleConn`. -/
def turn (data : Bytes) (p : Progress S) : Progress S × Option Exit :=
  match incoming C.printable data p.off with
  | .wait => (p, some .eof)
  | .drop => (p, some .bufferFull)
  | .refuse reply => writeReply C p reply (some .malformed)
  | .again reply off => writeReply C { p with off } reply none
  | .command cmd off =>
    let r := C.handle p.turn p.state cmd
    let q := { p with state := r.2, off, commands := p.commands ++ [cmd] }
    match r.1 with
    | none => (q, some .unanswered)
    | some reply => writeReply C q reply none

def loop (data : Bytes) : ℕ → Progress S → Progress S × Exit
  | 0, p => (p, .eof)
  | fuel + 1, p =>
    match turn C data p with
    | (q, none) => loop data fuel q
    | (q, some e) => (q, e)

/-- `handleConn` on what has come in of a stream: every turn that goes on has read some of it. -/
def handleConn (data : Bytes) (p : Progress S) : Progress S × Exit :=
  loop C data (data.length - p.off + 1) p

/-- The stream comes in by chunks: each time the loop goes on where it waits. -/
def feed : Bytes → List Bytes → Progress S → Progress S × Exit
  | _, [], p => (p, .eof)
  | data, chunk :: chunks, p =>
    match handleConn C (data ++ chunk) p with
    | (q, .eof) => feed (data ++ chunk) chunks q
    | (q, e) => (q, e)

/-! ### One turn -/

variable {C} {data more : Bytes} {p q : Progress S}

lemma decode_progress {off off' : ℕ} {v : Value} (h : Protocol.decode data off = .ok (v, off')) :
    off < off' ∧ off' ≤ data.length := by
  obtain ⟨e, hread, hdrop, rfl⟩ := consumes_decodeBody (consumes_decodeWith _) data off v off' h
  have hpos : 0 < e.length := by
    cases hread <;> simp
  have hlen := congrArg List.length hdrop
  simp only [List.length_drop, List.length_append] at hlen
  omega

lemma writeReply_off (p : Progress S) (reply : Value) (next : Option Exit) :
    (writeReply C p reply next).1.off = p.off := by
  unfold writeReply
  split <;> rfl

lemma turn_progress (h : turn C data p = (q, none)) : p.off < q.off ∧ q.off ≤ data.length := by
  unfold turn incoming at h
  rcases hdec : Protocol.decode data p.off with (_ | _ | e) | ⟨v, off⟩
  · simp [hdec] at h
  · simp [hdec] at h
  · simp only [hdec, writeReply] at h
    split at h <;> cases h
  · have hoff := decode_progress hdec
    rcases hcmd : v.command with e | cmd
    · simp only [hdec, hcmd] at h
      have hq := congrArg (·.1.off) h
      rw [writeReply_off] at hq
      exact hq ▸ hoff
    · simp only [hdec, hcmd] at h
      split at h
      · cases h
      · have hq := congrArg (·.1.off) h
        rw [writeReply_off] at hq
        exact hq ▸ hoff

lemma writeReply_ne_eof {reply : Value} {next : Option Exit} (hnext : next ≠ some .eof) :
    (writeReply C p reply next).2 ≠ some .eof := by
  unfold writeReply
  split
  · exact hnext
  · simp

lemma eq_of_turn_eof (h : turn C data p = (q, some .eof)) : q = p := by
  unfold turn at h
  split at h
  · cases h
    rfl
  · cases h
  · exact absurd (congrArg Prod.snd h) (writeReply_ne_eof (by simp))
  · exact absurd (congrArg Prod.snd h) (writeReply_ne_eof (by simp))
  · dsimp only at h
    split at h
    · cases h
    · exact absurd (congrArg Prod.snd h) (writeReply_ne_eof (by simp))

lemma turn_streams (data more : Bytes) (p : Progress S) :
    turn C data p = (p, some .eof) ∨ turn C (data ++ more) p = turn C data p := by
  unfold turn incoming
  rcases streams_decode data more p.off with hwait | hsame
  · left
    simp only [hwait]
  · right
    rw [hsame]

/-! ### The loop -/

lemma loop_congr {n m : ℕ} (hn : data.length - p.off < n) (hm : data.length - p.off < m) :
    loop C data n p = loop C data m p := by
  induction n generalizing m p with
  | zero => omega
  | succ n ih =>
    obtain ⟨m, rfl⟩ := Nat.exists_eq_succ_of_ne_zero (by omega : m ≠ 0)
    rw [loop, loop]
    rcases hturn : turn C data p with ⟨q, _ | e⟩
    · have := turn_progress hturn
      exact ih (by omega) (by omega)
    · rfl

/-- **The loop takes a turn and goes on.** -/
lemma handleConn_eq (data : Bytes) (p : Progress S) :
    handleConn C data p = match turn C data p with
      | (q, none) => handleConn C data q
      | (q, some e) => (q, e) := by
  unfold handleConn
  rw [loop]
  rcases hturn : turn C data p with ⟨q, _ | e⟩
  · have := turn_progress hturn
    exact loop_congr (by omega) (by omega)
  · rfl

lemma handleConn_stop {e : Exit} (h : turn C data p = (q, some e)) :
    handleConn C data p = (q, e) := by
  rw [handleConn_eq, h]

lemma handleConn_go (h : turn C data p = (q, none)) :
    handleConn C data p = handleConn C data q := by
  rw [handleConn_eq, h]

lemma handleConn_induction {motive : Progress S → Prop} (data : Bytes)
    (hstop : ∀ p q e, turn C data p = (q, some e) → motive p)
    (hgo : ∀ p q, turn C data p = (q, none) → motive q → motive p) (p : Progress S) : motive p := by
  induction hn : data.length - p.off using Nat.strong_induction_on generalizing p with
  | _ n ih =>
    rcases hturn : turn C data p with ⟨q, _ | e⟩
    · have := turn_progress hturn
      exact hgo p q hturn (ih (data.length - q.off) (by omega) q rfl)
    · exact hstop p q e hturn

/-- **When more comes in**, the loop goes on where it waits; where it has returned nothing
changes. -/
lemma handleConn_append (data more : Bytes) (p : Progress S) :
    handleConn C (data ++ more) p = match handleConn C data p with
      | (q, .eof) => handleConn C (data ++ more) q
      | (q, e) => (q, e) := by
  induction p using handleConn_induction (C := C) data with
  | hstop p q e hturn =>
    rw [handleConn_stop hturn]
    rcases turn_streams (C := C) data more p with hwait | hsame
    · rw [hturn] at hwait
      cases hwait
      rfl
    · rw [hturn] at hsame
      cases e with
      | eof => rw [eq_of_turn_eof hturn]
      | _ => exact handleConn_stop hsame
  | hgo p q hturn ih =>
    rcases turn_streams (C := C) data more p with hwait | hsame
    · rw [hturn] at hwait
      cases hwait
    · rw [handleConn_go hturn, handleConn_go (hsame.trans hturn)]
      exact ih

lemma handleConn_again (data : Bytes) (p : Progress S) (h : handleConn C data p = (q, .eof)) :
    handleConn C data q = (q, .eof) := by
  have happend := handleConn_append (C := C) data [] p
  rw [List.append_nil, h] at happend
  exact happend.symm

lemma feed_eq (data : Bytes) (chunks : List Bytes) (p : Progress S)
    (h : handleConn C data p = (p, .eof)) :
    feed C data chunks p = handleConn C (data ++ chunks.flatten) p := by
  induction chunks generalizing data p with
  | nil => rw [feed, List.flatten_nil, List.append_nil, h]
  | cons chunk chunks ih =>
    have happend := handleConn_append (C := C) (data ++ chunk) chunks.flatten p
    rw [feed, List.flatten_cons, ← List.append_assoc, happend]
    rcases hconn : handleConn C (data ++ chunk) p with ⟨q, e⟩
    cases e with
    | eof => exact ih (data ++ chunk) q (handleConn_again _ p hconn)
    | _ => rfl

/-! ### Commands in a row -/

variable (C) in
/-- The replies to commands that are handled one after the other. -/
def answers : ℕ → S → List Command → Option (List Value × S)
  | _, s, [] => some ([], s)
  | i, s, cmd :: cmds =>
    match C.handle i s cmd with
    | (none, _) => none
    | (some reply, s') => (answers (i + 1) s' cmds).map fun r => (reply :: r.1, r.2)

lemma turn_request {cmd : Command} (hcmd : Sendable cmd) {before rest : Bytes} {reply : Value}
    {s' : S} (hdata : data = before ++ (request cmd).encode ++ rest) (hoff : p.off = before.length)
    (hreply : C.handle p.turn p.state cmd = (some reply, s')) (hcut : C.cut p.turn = none) :
    turn C data p = ({ state := s', off := (before ++ (request cmd).encode).length,
                       turn := p.turn + 1, commands := p.commands ++ [cmd],
                       output := p.output ++ reply.encode }, none) := by
  have hdec := (exact_decode (sendable_request hcmd)).recovers before rest
  rw [← hdata, ← hoff] at hdec
  simp only [turn, incoming, hdec, command_request, hreply, writeReply, hcut]

lemma handleConn_requests {cmds : List Command} (hcmds : ∀ cmd ∈ cmds, Sendable cmd)
    {before rest : Bytes} {replies : List Value} {s' : S}
    (hdata : data = before ++ cmds.flatMap (fun cmd => (request cmd).encode) ++ rest)
    (hoff : p.off = before.length)
    (hanswers : answers C p.turn p.state cmds = some (replies, s'))
    (hcut : ∀ i, C.cut i = none) :
    handleConn C data p = handleConn C data
      { state := s'
        off := (before ++ cmds.flatMap fun cmd => (request cmd).encode).length
        turn := p.turn + cmds.length
        commands := p.commands ++ cmds
        output := p.output ++ replies.flatMap Value.encode } := by
  induction cmds generalizing p before replies with
  | nil =>
    simp only [answers, Option.some.injEq, Prod.mk.injEq] at hanswers
    obtain ⟨rfl, rfl⟩ := hanswers
    simp [← hoff]
  | cons cmd cmds ih =>
    rw [answers] at hanswers
    split at hanswers
    · cases hanswers
    · rename_i reply s₁ hreply
      obtain ⟨⟨vs, s₂⟩, hrest, hvs⟩ := Option.map_eq_some_iff.mp hanswers
      cases hvs
      rw [List.flatMap_cons] at hdata
      have hfirst : data = before ++ (request cmd).encode ++
          (cmds.flatMap (fun cmd => (request cmd).encode) ++ rest) := by simpa using hdata
      have hothers : data = before ++ (request cmd).encode ++
          cmds.flatMap (fun cmd => (request cmd).encode) ++ rest := by simpa using hdata
      have hturn := turn_request (hcmds cmd List.mem_cons_self) hfirst hoff hreply (hcut _)
      rw [handleConn_go hturn,
        ih (fun c hc => hcmds c (List.mem_cons_of_mem _ hc)) hothers rfl hrest]
      have hturns : p.turn + 1 + cmds.length = p.turn + (cmds.length + 1) := by omega
      simp [hturns]

/-! ### What a connection leaves behind only grows -/

/-- `q` has come further than `p`: nothing that was done is taken back. -/
structure Grows (p q : Progress S) : Prop where
  commands : p.commands <+: q.commands
  output : p.output <+: q.output

lemma Grows.refl (p : Progress S) : Grows p p := ⟨List.prefix_rfl, List.prefix_rfl⟩

lemma Grows.trans {p q r : Progress S} (h : Grows p q) (h' : Grows q r) : Grows p r :=
  ⟨h.commands.trans h'.commands, h.output.trans h'.output⟩

lemma grows_writeReply (p : Progress S) (reply : Value) (next : Option Exit) :
    Grows p (writeReply C p reply next).1 := by
  unfold writeReply
  split <;> exact ⟨List.prefix_rfl, List.prefix_append _ _⟩

lemma grows_turn (data : Bytes) (p : Progress S) : Grows p (turn C data p).1 := by
  unfold turn
  split
  · exact .refl p
  · exact .refl p
  · exact grows_writeReply p _ _
  · have hoff : ∀ off : ℕ, Grows p { p with off := off } :=
      fun _ => ⟨List.prefix_rfl, List.prefix_rfl⟩
    exact (hoff _).trans (grows_writeReply _ _ _)
  · have hcmd : ∀ (s : S) (off : ℕ) (cmd : Command), Grows p
        { p with state := s, off := off, commands := p.commands ++ [cmd] } :=
      fun _ _ _ => ⟨List.prefix_append _ _, List.prefix_rfl⟩
    dsimp only
    split
    · exact hcmd _ _ _
    · exact (hcmd _ _ _).trans (grows_writeReply _ _ _)

lemma grows_handleConn (data : Bytes) (p : Progress S) : Grows p (handleConn C data p).1 := by
  induction p using handleConn_induction (C := C) data with
  | hstop p q e hturn =>
    rw [handleConn_stop hturn]
    have := grows_turn (C := C) data p
    rwa [hturn] at this
  | hgo p q hturn ih =>
    rw [handleConn_go hturn]
    have := grows_turn (C := C) data p
    rw [hturn] at this
    exact this.trans ih

lemma grows_append (data more : Bytes) (p : Progress S) :
    Grows (handleConn C data p).1 (handleConn C (data ++ more) p).1 := by
  rw [handleConn_append]
  rcases handleConn C data p with ⟨q, e⟩
  cases e with
  | eof => exact grows_handleConn _ q
  | _ => exact .refl q

lemma handleConn_nil {p : Progress S} (hoff : p.off = 0) : handleConn C [] p = (p, .eof) := by
  refine handleConn_stop ?_
  have hdec : Protocol.decode [] p.off = .error .eof := by
    rw [hoff]
    rfl
  simp only [turn, incoming, hdec]

end Loop

/-! ### The connections of a node -/

section Node

variable {σ : Type} (H : Hash) (U : Printable) (amb : ℕ → Ambient)
  (others : ℕ → Handler σ → Handler σ) (cut : ℕ → Option ℕ)

/-- What the loop of a connection calls on a node: before each of its commands other connections
have made of the state what `others` says. -/
def nodeCalls : Calls (Handler σ) where
  printable := U
  handle i h cmd := handle H (others i h) (amb i) cmd
  cut := cut

/-- **The cuts of a stream do not matter.** However the bytes of a client come in, well formed or
not, the commands that are handed to the handler, the replies and the end of the connection are
those of the whole stream; and what was done on a part of it is the beginning of what is done on
all of it, so that no command is handled before it is complete. -/
theorem stream_cuts_do_not_matter (h : Handler σ) (chunks : List Bytes) :
    feed (nodeCalls H U amb others cut) [] chunks { state := h } =
      handleConn (nodeCalls H U amb others cut) chunks.flatten { state := h } ∧
    ∀ data more, Grows (handleConn (nodeCalls H U amb others cut) data { state := h }).1
      (handleConn (nodeCalls H U amb others cut) (data ++ more) { state := h }).1 := by
  constructor
  · exact feed_eq [] chunks _ (handleConn_nil rfl)
  · exact fun data more => grows_append data more _

/-- **Commands in a row are answered in order.** Commands that are sent one behind the other, cut
into whatever chunks, are handed to the handler once each and in that order, and their replies
come back in that order; a client that can take each of them for one value reads them so. If what
follows is not RESP, they are answered all the same, and nothing behind them is handled. -/
theorem commands_answered_in_order (h h' : Handler σ) (cmds : List Command)
    (hcmds : ∀ cmd ∈ cmds, Sendable cmd) (hcut : ∀ i, cut i = none) (replies : List Value)
    (hanswers : answers (nodeCalls H U amb others cut) 0 h cmds = some (replies, h'))
    (chunks : List Bytes) (rest : Bytes)
    (hchunks : chunks.flatten = cmds.flatMap (fun cmd => (request cmd).encode) ++ rest) :
    let stream := cmds.flatMap fun cmd => (request cmd).encode
    let answered : Progress (Handler σ) :=
      { state := h', off := stream.length, turn := cmds.length, commands := cmds
        output := replies.flatMap Value.encode }
    ((∀ v ∈ replies, v.Sendable) → decodeMany replies.length answered.output 0 =
      .ok (replies, answered.output.length)) ∧
    (rest = [] →
      feed (nodeCalls H U amb others cut) [] chunks { state := h } = (answered, .eof)) ∧
    ∀ e, Protocol.decode (stream ++ rest) stream.length = .error (.protocol e) →
      feed (nodeCalls H U amb others cut) [] chunks { state := h } =
        ({ answered with
           turn := cmds.length + 1
           output := answered.output ++ (Value.error (ascii "ERR " ++ protocolText U e)).encode },
          .malformed) := by
  intro stream answered
  have hfeed : feed (nodeCalls H U amb others cut) [] chunks { state := h } =
      handleConn (nodeCalls H U amb others cut) (stream ++ rest) answered := by
    rw [feed_eq [] chunks _ (handleConn_nil rfl), List.nil_append, hchunks]
    have hdata : stream ++ rest =
        [] ++ cmds.flatMap (fun cmd => (request cmd).encode) ++ rest := rfl
    have hrun := handleConn_requests (C := nodeCalls H U amb others cut) (p := { state := h }) hcmds
      hdata rfl hanswers hcut
    simpa [answered, stream] using hrun
  refine ⟨fun hreplies => ?_, ?_, fun e he => ?_⟩
  · have hmany := (exact_decodeMany hreplies).recovers [] []
    rwa [List.nil_append, List.append_nil] at hmany
  · rintro rfl
    rw [hfeed, List.append_nil]
    refine handleConn_stop ?_
    have hdec : Protocol.decode stream stream.length = .error .eof :=
      decodeWith_of_end le_rfl _
    simp only [turn, incoming, answered, hdec]
  · rw [hfeed]
    refine handleConn_stop ?_
    simp only [turn, incoming, answered, nodeCalls, he, writeReply, hcut]

/-- No table at all: runes from U+0100 on are escaped. -/
def latin1 : Printable := fun _ => false

/-- Two commands and a line that is not RESP, cut in the middle of the second command. -/
theorem commands_answered_in_order_ping :
    (feed (nodeCalls sha256 latin1 (fun _ => default) (fun _ h => h) fun _ => none) []
      [ascii "*1\r\n$4\r\nPING\r\n*1\r\n$4\r\nPI", ascii "NG\r\n!\r\n*1\r\n$4\r\nPING\r\n"]
      { state := lone }).1.output =
        ascii "+PONG\r\n+PONG\r\n-ERR protocol: unknown type byte '!'\r\n" := by
  have hping : Sendable ⟨ascii "PING", []⟩ := ⟨by decide, by decide +kernel⟩
  have h := commands_answered_in_order sha256 latin1 (fun _ => default) (fun _ h => h)
    (fun _ => none) lone lone [⟨ascii "PING", []⟩, ⟨ascii "PING", []⟩]
    (by simpa using hping) (fun _ => rfl)
    [.simpleString (ascii "PONG"), .simpleString (ascii "PONG")] rfl
    [ascii "*1\r\n$4\r\nPING\r\n*1\r\n$4\r\nPI", ascii "NG\r\n!\r\n*1\r\n$4\r\nPING\r\n"]
    (ascii "!\r\n*1\r\n$4\r\nPING\r\n") (by decide +kernel)
  rw [h.2.2 (.unknownType 33) rfl]
  decide +kernel

end Node

end Kyria.Server.Connection
