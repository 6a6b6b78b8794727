import Kyria.Handler
import Kyria.Protocol.Grammar

/-!
The replies on a connection (`Server.handleConn`, `Server.writeReply`).

A reply is one value for the client as long as its lines have no line break in them and its sizes
are within the decoder's limits. Commands that are served see to the first themselves; the two
replies that quote a name do not.
-/

namespace Kyria.Server

open Kyria.Lib.Cursor Kyria.Lib.MapOrder Kyria.Text Kyria.Protocol Kyria.Routing Kyria.Sha256
open Kyria.Store Kyria.Version Kyria.Replica Kyria.Coordinator

variable {σ : Type} (H : Hash)

/-! ### What commands reply -/

/-- A reply of a command that is served here: no line of it has a line break, and no redirection
is among them. -/
inductive Plain : Value → Prop
  | simpleString {t : Bytes} : 10 ∉ t → Plain (.simpleString t)
  | error {t : Bytes} : 10 ∉ t → Plain (.error (ascii "ERR " ++ t))
  | integer (i : Int64) : Plain (.integer i)
  | bulkString (b : Option Bytes) : Plain (.bulkString b)
  | array {bs : List Bytes} : (∀ b ∈ bs, b.length < 2 ^ 63) →
      Plain (.array (bs.map fun b => .bulkString (some b)))

lemma Plain.err (text : String) (h : 10 ∉ ascii text) :
    Plain (.error (ascii ("ERR " ++ text))) := by
  rw [ascii_append]
  exact .error h

lemma Plain.not_moved {v : Value} (h : Plain v) (owner : Bytes) :
    v ≠ .error (ascii "MOVED " ++ owner) := by
  rintro rfl
  generalize ht : ascii "MOVED " ++ owner = t at h
  cases h with
  | error _ =>
    have herr : (ascii "ERR ").head? = some 69 := by decide
    have hmoved : (ascii "MOVED ").head? = some 77 := by decide
    have hhead := congrArg List.head? ht
    rw [List.head?_append, List.head?_append, herr, hmoved] at hhead
    simp at hhead

lemma plain_errorReply (err : StoreError) : Plain (errorReply err) :=
  .err err.text (by cases err <;> decide +kernel)

lemma not_mem_ascii_toString (n : ℕ) : 10 ∉ ascii (toString n) := by
  intro hmem
  obtain ⟨c, hc, hfeed⟩ := List.mem_map.mp hmem
  have hdigit : c.isDigit = true := by
    have hrepr : (toString n).toList = Nat.toDigits 10 n := by simp [toString, Nat.repr]
    exact Nat.isDigit_of_mem_toDigits (by decide) (by decide) (hrepr ▸ hc)
  have hrange : 48 ≤ c.toNat ∧ c.toNat ≤ 57 := by
    simpa [Char.isDigit, UInt32.le_iff_toNat_le] using hdigit
  have hval := congrArg UInt8.toNat hfeed
  rw [UInt8.toNat_ofNat'] at hval
  have hten : (10 : UInt8).toNat = 10 := rfl
  omega

lemma plain_quorumError {op : String} (hop : 10 ∉ ascii op) (got need : ℕ) :
    Plain (quorumError op got need) := by
  have hgot := not_mem_ascii_toString got
  have hneed := not_mem_ascii_toString need
  have hmet : 10 ∉ ascii " quorum not met: " := by decide
  have hof : 10 ∉ ascii " of " := by decide
  have hreplicas : 10 ∉ ascii " replicas" := by decide
  simp only [quorumError, String.append_assoc]
  refine .err _ ?_
  simp only [ascii_append, List.mem_append, not_or]
  exact ⟨hop, hmet, hgot, hof, hneed, hreplicas⟩

lemma plain_writeReply (kind : WriteKind) (need acks : ℕ) : Plain (writeReply kind need acks) := by
  unfold writeReply
  split_ifs
  · cases kind with
    | write => exact .simpleString (by decide)
    | delete opState => exact .integer opState
  · have hop : 10 ∉ ascii kind.op := by
      cases kind with
      | write => exact (by decide : 10 ∉ ascii "write")
      | delete => exact (by decide : 10 ∉ ascii "delete")
    exact plain_quorumError hop _ _

lemma plain_readReply (need : ℕ) (st : ReadState) : Plain (readReply need st) := by
  unfold readReply
  split_ifs
  · exact plain_quorumError (by decide) _ _
  · unfold mergedReply
    split
    · exact .bulkString _
    · exact .bulkString _

lemma Coordinator.plain_finish {c : Coordinator} {amb : Ambient} {key : Bytes}
    {r : Except StoreError (WriteKind × Version) × MapStore σ} {v : Value}
    (h : (c.finish amb key r).1 = some v) : Plain v := by
  unfold Coordinator.finish at h
  split at h
  · cases h
    exact plain_errorReply _
  · obtain ⟨acks, -, rfl⟩ := Option.map_eq_some_iff.mp h
    exact plain_writeReply _ _ acks

lemma Coordinator.plain_coordinate {c : Coordinator} {m : MapStore σ} {amb : Ambient}
    {cmd : Command} {v : Value} (h : (c.coordinate m amb cmd).1 = some v) : Plain v := by
  unfold Coordinator.coordinate at h
  dsimp only at h
  split_ifs at h
  · exact plain_finish h
  · exact plain_finish h
  · obtain ⟨st, -, rfl⟩ := Option.map_eq_some_iff.mp h
    exact plain_readReply _ st
  · cases h
    exact .err "command not coordinated" (by decide)

lemma plain_set (m : MapStore σ) (env : Env) (args : List Bytes) : Plain (set m env args).1 := by
  have hreply : ∀ r : Except StoreError Bool × MapStore σ, Plain (setReply r).1 := by
    intro r
    unfold setReply
    split
    · exact plain_errorReply _
    · exact .simpleString (by decide)
  unfold set
  split
  · exact hreply _
  · split
    · exact .err "value is not an integer or out of range" (by decide)
    · split
      · exact .err "syntax error" (by decide)
      · exact hreply _
  · exact .err "syntax error" (by decide)

lemma plain_rset (m : MapStore σ) (env : Env) (key blob : Bytes) :
    Plain (rset m env key blob).1 := by
  unfold rset
  split
  · split
    · exact .simpleString (by decide)
    · exact plain_errorReply _
  · exact .err "malformed version" (by decide)

/-- The names and addresses that `NODES` lists; strings have fewer than `2 ^ 63` bytes. -/
def NodesFit (h : Handler σ) (amb : Ambient) : Prop :=
  ∀ m ∈ h.members, ∀ n ∈ m.aliveNodes amb.members, (n.id ++ [32] ++ n.addr).length < 2 ^ 63

lemma plain_nodes {h : Handler σ} {amb : Ambient} (hnodes : NodesFit h amb) :
    Plain (nodes h.members amb.members) := by
  cases hm : h.members with
  | none => exact .err "clustering is disabled" (by decide)
  | some m =>
    have harray : nodes (some m) amb.members = .array (((m.aliveNodes amb.members).map fun n =>
        n.id ++ [32] ++ n.addr).map fun b => .bulkString (some b)) := by
      rw [nodes, List.map_map]
      rfl
    rw [harray]
    refine .array fun b hb => ?_
    obtain ⟨n, hn, rfl⟩ := List.mem_map.mp hb
    exact hnodes m hm n hn

lemma plain_rtree {m : MapStore σ} {env : Env} {leaves : Bytes} {v : Value}
    (h : rtree H m env leaves = some v) : Plain v := by
  unfold rtree at h
  split at h
  · cases h
    exact .err "failed to parse tree leaf count" (by decide)
  · simp only [Option.bind_eq_bind, Option.bind_eq_some_iff] at h
    obtain ⟨t, -, b, -, hb⟩ := h
    cases hb
    exact .bulkString _

lemma plain_rbucket {m : MapStore σ} {env : Env} {o : VisitOrder (Bytes × Bytes)}
    {leaves bucketSet : Bytes} {v : Value} (h : rbucket H m env o leaves bucketSet = some v) :
    Plain v := by
  unfold rbucket at h
  split at h
  · cases h
    exact .err "failed to parse tree leaf count" (by decide)
  · split at h
    · cases h
      exact .err "malformed bucket set" (by decide)
    · simp only [Option.bind_eq_bind, Option.bind_eq_some_iff] at h
      obtain ⟨t, -, hb⟩ := h
      cases hb
      exact .bulkString _

/-- **Every command that is served** replies without a line break. -/
lemma plain_runVerb {h : Handler σ} {amb : Ambient} (hnodes : NodesFit h amb) (args : List Bytes)
    (verb : Verb) {v : Value} (hv : (runVerb H h amb args verb).1 = some v) : Plain v := by
  cases verb with
  | ping =>
    cases hv
    exact .simpleString (by decide)
  | get | rget | stats =>
    cases hv
    exact .bulkString _
  | set =>
    cases hv
    exact plain_set _ _ _
  | del =>
    cases hv
    exact .integer _
  | rset =>
    cases hv
    exact plain_rset _ _ _ _
  | nodes =>
    cases hv
    exact plain_nodes hnodes
  | rtree => exact plain_rtree H hv
  | rbucket => exact plain_rbucket H hv

/-! ### Bytes that are one value -/

/-- The bytes are one value, with nothing left over. -/
def OneValue (b : Bytes) : Prop := ∃ v, Protocol.decode b 0 = .ok (v, b.length)

/-- The sizes in a reply are within the limits of the decoder. -/
def Fits : Value → Prop
  | .simpleString t | .error t => t.length ≤ 4094
  | .bulkString b => (b.getD []).length ≤ maxBulkSize
  | .array elems => elems.length ≤ maxArrayCount ∧
      ∀ v ∈ elems, (v.bulk.getD []).length ≤ maxBulkSize
  | .integer _ | .nullArray => True

lemma oneValue_of_sendable {v : Value} (h : v.Sendable) : OneValue v.encode := by
  have hwhole := (exact_decode h).recovers [] []
  exact ⟨v, by simpa using hwhole⟩

lemma frame_of_oneValue {b : Bytes} (h : OneValue b) : ∃ f : Frame, f.Taken ∧ f.bytes = b := by
  obtain ⟨v, hv⟩ := h
  obtain ⟨_, ⟨f, hf, -, rfl⟩, hdata, -⟩ := consumes_decodeWith_frame _ b 0 v b.length hv
  rw [List.drop_length, List.append_nil] at hdata
  exact ⟨f, hf, hdata.symm⟩

lemma oneValue_error_iff {t : Bytes} :
    OneValue (Value.error t).encode ↔ t.length ≤ 4094 ∧ 10 ∉ t := by
  constructor
  · intro h
    obtain ⟨f, hf, hbytes⟩ := frame_of_oneValue h
    cases hf with
    | @error t' hline =>
      have heq : t' ++ crlf = t ++ crlf := by simpa [Frame.bytes, Value.encode] using hbytes
      obtain rfl := List.append_cancel_right heq
      exact ⟨hline.fits, hline.noFeed⟩
    | _ => simp [Frame.bytes, Value.encode] at hbytes
  · rintro ⟨hlen, hlf⟩
    exact oneValue_of_sendable (.error hlf hlen)

lemma oneValue_simpleString_iff {t : Bytes} (hlf : 10 ∉ t) :
    OneValue (Value.simpleString t).encode ↔ t.length ≤ 4094 := by
  constructor
  · intro h
    obtain ⟨f, hf, hbytes⟩ := frame_of_oneValue h
    cases hf with
    | @simpleString t' hline =>
      have heq : t' ++ crlf = t ++ crlf := by simpa [Frame.bytes, Value.encode] using hbytes
      obtain rfl := List.append_cancel_right heq
      exact hline.fits
    | _ => simp [Frame.bytes, Value.encode] at hbytes
  · exact fun hlen => oneValue_of_sendable (.simpleString hlf hlen)

lemma frame_bulk {f : Frame} (hf : f.Taken) {b x y : Bytes} (hb : b.length < 2 ^ 63 ∨ x = y)
    (heq : f.bytes ++ x = (Value.bulkString (some b)).encode ++ y) :
    b.length ≤ maxBulkSize ∧ x = y := by
  cases hf with
  | @nullBulk t z hline hz hneg =>
    have hshape : t ++ crlf ++ x = itoa b.length ++ crlf ++ (b ++ crlf ++ y) := by
      simpa [Frame.bytes, Value.encode] using heq
    obtain ⟨rfl, hrest⟩ := hline.unique (literal_itoa _) hshape
    rcases hb with hb | rfl
    · -- a length is not negative
      rw [literal_itoa] at hz
      cases hz
      rw [toInt_ofInt_count le_rfl hb] at hneg
      omega
    · have hlen := congrArg List.length hrest
      simp [crlf] at hlen
      omega
  | @bulk t payload w z hline hz hlen hmax hw =>
    have hshape : t ++ crlf ++ (payload ++ w ++ x) = itoa b.length ++ crlf ++ (b ++ crlf ++ y) := by
      simpa [Frame.bytes, Value.encode] using heq
    obtain ⟨rfl, hrest⟩ := hline.unique (literal_itoa _) hshape
    have hsame : payload.length = b.length := by
      rcases hb with hb | rfl
      · rw [literal_itoa] at hz
        cases hz
        rw [toInt_ofInt_count le_rfl hb] at hlen
        omega
      · have := congrArg List.length (List.append_cancel_right hrest)
        rw [List.length_append, List.length_append, hw] at this
        simp only [crlf, List.length_cons, List.length_nil] at this
        omega
    rw [List.append_assoc, List.append_assoc] at hrest
    obtain ⟨rfl, htail⟩ := List.append_inj hrest hsame
    exact ⟨hmax, (List.append_inj htail hw).2⟩
  | _ => simp [Frame.bytes, Value.encode] at heq

lemma frames_bulk {fs : List Frame} (hfs : ∀ f ∈ fs, f.Taken) {bs : List Bytes}
    (hbs : ∀ b ∈ bs, b.length < 2 ^ 63)
    (heq : fs.flatMap Frame.bytes = bs.flatMap fun b => (Value.bulkString (some b)).encode) :
    fs.length = bs.length ∧ ∀ b ∈ bs, b.length ≤ maxBulkSize := by
  induction fs generalizing bs with
  | nil =>
    cases bs with
    | nil => exact ⟨rfl, by simp⟩
    | cons b bs => simp [Value.encode] at heq
  | cons f fs ih =>
    cases bs with
    | nil =>
      have hf := hfs f List.mem_cons_self
      cases hf <;> simp [Frame.bytes] at heq
    | cons b bs =>
      rw [List.flatMap_cons, List.flatMap_cons] at heq
      obtain ⟨hmax, hrest⟩ := frame_bulk (hfs f List.mem_cons_self)
        (.inl (hbs b List.mem_cons_self)) heq
      obtain ⟨hlen, hall⟩ := ih (fun g hg => hfs g (List.mem_cons_of_mem _ hg))
        (fun b hb => hbs b (List.mem_cons_of_mem _ hb)) hrest
      refine ⟨by rw [List.length_cons, List.length_cons, hlen], fun b' hb' => ?_⟩
      rcases List.mem_cons.mp hb' with rfl | hb'
      · exact hmax
      · exact hall b' hb'

lemma oneValue_bulk_iff {b : Bytes} :
    OneValue (Value.bulkString (some b)).encode ↔ b.length ≤ maxBulkSize := by
  constructor
  · intro h
    obtain ⟨f, hf, hbytes⟩ := frame_of_oneValue h
    exact (frame_bulk hf (x := []) (y := []) (.inr rfl) (by rw [hbytes])).1
  · exact fun hlen => oneValue_of_sendable (.bulk hlen)

lemma frame_array {f : Frame} (hf : f.Taken) {bs : List Bytes} (hbs : ∀ b ∈ bs, b.length < 2 ^ 63)
    (hbytes : f.bytes = (Value.array (bs.map fun b => .bulkString (some b))).encode) :
    bs.length ≤ maxArrayCount ∧ ∀ b ∈ bs, b.length ≤ maxBulkSize := by
  cases hf with
  | @nullArray t z hline hz hneg =>
    have hshape : t ++ crlf ++ [] = itoa bs.length ++ crlf ++
        bs.flatMap fun b => (Value.bulkString (some b)).encode := by
      simpa [Frame.bytes, Value.encode, encodeElems_eq, List.flatMap_map] using hbytes
    obtain ⟨rfl, hnil⟩ := hline.unique (literal_itoa _) hshape
    -- only an empty array ends behind its line, and its length is not negative
    cases bs with
    | nil =>
      rw [literal_itoa] at hz
      cases hz
      exact absurd hneg (by decide)
    | cons b bs => simp [Value.encode] at hnil
  | @array t z elems hline hz hlen hmax helems =>
    have hshape : t ++ crlf ++ elems.flatMap Frame.bytes = itoa bs.length ++ crlf ++
        bs.flatMap fun b => (Value.bulkString (some b)).encode := by
      simpa [Frame.bytes, bytesOf_eq, Value.encode, encodeElems_eq, List.flatMap_map]
        using hbytes
    obtain ⟨rfl, helem⟩ := hline.unique (literal_itoa _) hshape
    obtain ⟨hcount, hall⟩ := frames_bulk helems hbs helem
    exact ⟨by omega, hall⟩
  | _ => simp [Frame.bytes, Value.encode] at hbytes

/-- **A reply without line breaks** is one value exactly if its sizes fit. -/
lemma oneValue_plain_iff {v : Value} (h : Plain v) : OneValue v.encode ↔ Fits v := by
  cases h with
  | simpleString hlf => exact oneValue_simpleString_iff hlf
  | @error t hlf =>
    have herr : 10 ∉ ascii "ERR " ++ t := by
      rw [List.mem_append, not_or]
      exact ⟨by decide, hlf⟩
    rw [oneValue_error_iff]
    exact ⟨And.left, fun hlen => ⟨hlen, herr⟩⟩
  | integer i => exact ⟨fun _ => trivial, fun _ => oneValue_of_sendable (.integer i)⟩
  | bulkString b =>
    cases b with
    | none => exact ⟨fun _ => Nat.zero_le _, fun _ => oneValue_of_sendable .nullBulk⟩
    | some b => exact oneValue_bulk_iff
  | @array bs hbs =>
    constructor
    · intro h
      obtain ⟨f, hf, hbytes⟩ := frame_of_oneValue h
      obtain ⟨hcount, hall⟩ := frame_array hf hbs hbytes
      refine ⟨by rwa [List.length_map], fun v hv => ?_⟩
      obtain ⟨b, hb, rfl⟩ := List.mem_map.mp hv
      exact hall b hb
    · rintro ⟨hcount, hall⟩
      refine oneValue_of_sendable (.array hcount fun v hv => ?_)
      obtain ⟨b, hb, rfl⟩ := List.mem_map.mp hv
      exact .bulk (hall _ hv)

/-! ### The reply to a command -/

lemma mem_toUpper_of_mem {name : Bytes} (h : 10 ∈ name) : 10 ∈ toUpper name := by
  fun_induction toUpper name with
  | case1 => exact h
  | case2 rest ih | case3 rest ih =>
    simp only [List.mem_cons] at h ⊢
    rcases h with h | h | h
    · exact absurd h (by decide)
    · exact absurd h (by decide)
    · exact .inr (ih h)
  | case4 c rest _ _ ih =>
    rcases List.mem_cons.mp h with h | h
    · subst h
      exact List.mem_cons.mpr (.inl (by decide))
    · exact List.mem_cons_of_mem _ (ih h)

lemma not_mem_of_commands {name : Bytes} {spec : CommandSpec}
    (h : commands (toUpper name) = some spec) : 10 ∉ name := by
  intro hmem
  have htable : ∀ c ∈ commandTable, (10 : UInt8) ∉ c.1 := by decide +kernel
  simp only [commands, Option.map_eq_some_iff] at h
  obtain ⟨c, hc, -⟩ := h
  have hname : c.1 = toUpper name := by simpa using List.find?_some hc
  exact htable c (List.mem_of_find?_eq_some hc) (hname ▸ mem_toUpper_of_mem hmem)

/-- No name that the reply to a command quotes has a line break in it: that of an unknown
command, and that of the owner a client is sent to. -/
def Harmless (h : Handler σ) (cmd : Command) : Prop :=
  match commands (toUpper cmd.name) with
  | none => 10 ∉ cmd.name
  | some spec => spec.minArgs ≤ cmd.args.length → cmd.args.length ≤ spec.maxArgs →
    ∀ owner, redirect h spec (cmd.args.getD 0 []) = some owner → 10 ∉ owner

/-- **A reply is one value exactly if** its sizes are within the limits of the decoder and no name
it quotes has a line break in it. -/
theorem oneValue_reply_iff (h : Handler σ) (amb : Ambient) (hnodes : NodesFit h amb)
    (cmd : Command) {reply : Value} (hreply : (handle H h amb cmd).1 = some reply) :
    OneValue reply.encode ↔ Fits reply ∧ Harmless h cmd := by
  -- a line with a name in it
  have hquote : ∀ (before name after : Bytes), 10 ∉ before → 10 ∉ after →
      (OneValue (Value.error (before ++ name ++ after)).encode ↔
        Fits (.error (before ++ name ++ after)) ∧ 10 ∉ name) := by
    intro before name after hbefore hafter
    rw [oneValue_error_iff]
    simp only [Fits, List.mem_append, not_or, hbefore, hafter, not_false_iff, true_and, and_true]
  rcases hspec : commands (toUpper cmd.name) with _ | spec
  · simp only [handle, hspec] at hreply
    cases hreply
    simp only [Harmless, hspec]
    exact hquote _ _ _ (by decide) (by decide)
  · simp only [handle, hspec] at hreply
    simp only [Harmless, hspec]
    split_ifs at hreply with hargs
    · cases hreply
      rw [hquote _ _ _ (by decide) (by decide)]
      have hname := not_mem_of_commands hspec
      exact and_congr_right fun _ => ⟨fun _ hmin hmax => absurd hargs (by omega), fun _ => hname⟩
    · have hmin : spec.minArgs ≤ cmd.args.length := by omega
      have hmax : cmd.args.length ≤ spec.maxArgs := by omega
      split at hreply
      · rename_i owner howner
        cases hreply
        have hline := hquote (ascii "MOVED ") owner [] (by decide) (by decide)
        rw [List.append_nil] at hline
        rw [hline, howner]
        exact and_congr_right fun _ => ⟨fun hlf _ _ o ho => Option.some.inj ho ▸ hlf,
          fun hall => hall hmin hmax owner rfl⟩
      · rename_i hnone
        have hplain : Plain reply := by
          dsimp only at hreply
          split at hreply
          · exact Coordinator.plain_coordinate hreply
          · exact plain_runVerb H hnodes _ _ hreply
        rw [oneValue_plain_iff hplain, hnone]
        exact ⟨fun hfits => ⟨hfits, fun _ _ _ ho => by cases ho⟩, And.left⟩

/-- A node without a cluster. -/
def lone : Handler Unit := { store := { state := () } }

end Kyria.Server
