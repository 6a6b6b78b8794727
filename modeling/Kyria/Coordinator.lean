import Kyria.Time
import Kyria.Replica
import Kyria.Protocol

/-!
Quorum replication as the coordinator of a request drives it
(`internal/server/coordinator.go`).

The peers are asked concurrently and their results come in over a channel, in any order. A
loop that receives from the channel is given the results that have arrived so far, and has
no outcome while it still waits for another one.
-/

namespace Kyria.Coordinator

open Std (ExtTreeMap)
open Kyria.Lib.Cursor Kyria.Lib.MapOrder Kyria.Lib.Maxima
open Kyria.Vclock Kyria.Version Kyria.Store Kyria.Replica Kyria.Protocol

variable {σ : Type}

def peersExcept (replicas : List Bytes) (self : Bytes) : List Bytes :=
  replicas.filter fun addr => addr ≠ self

def quorumError (op : String) (got need : ℕ) : Value :=
  .error (ascii ("ERR " ++ op ++ " quorum not met: " ++ toString got ++ " of " ++ toString need ++
    " replicas"))

/-! ### Writing -/

/-- The two coordinated writes. `delete` remembers whether a live value existed before. -/
inductive WriteKind
  | write
  | delete (opState : Int64)
  deriving DecidableEq

def WriteKind.op : WriteKind → String
  | .write => "write"
  | .delete _ => "delete"

def WriteKind.success : WriteKind → Value
  | .write => .simpleString (ascii "OK")
  | .delete opState => .integer opState

/-- The local apply of `write`. -/
def writeLocal (m : MapStore σ) (env : Env) (self key value : Bytes) :
    Except StoreError (WriteKind × Version) × MapStore σ :=
  let r := mint m env self key fun clock => { value, clock }
  (r.1.map fun r => (.write, r.2), r.2)

/-- The local apply of `delete`; `called` is the time that stamps the tombstone. -/
def deleteLocal (m : MapStore σ) (env : Env) (self key : Bytes) (called : ℕ) :
    Except StoreError (WriteKind × Version) × MapStore σ :=
  let r := mint m env self key fun clock => tombstone clock (Time.unix called)
  (r.1.map fun r => (.delete (if (live r.1).length > 0 then 1 else 0), r.2), r.2)

/-- The receiving loop of `gather`: so many rounds to go, so many acks so far. -/
def gatherLoop (need : ℕ) : ℕ → ℕ → List Bool → Option ℕ
  | 0, acks, _ => some acks
  | rounds + 1, acks, results =>
    if acks ≥ need then some acks
    else
      match results with
      | [] => none
      | ok :: rest => gatherLoop need rounds (if ok then acks + 1 else acks) rest

/-- The ack count; the local replica is the first. -/
def gather (peers need : ℕ) (results : List Bool) : Option ℕ := gatherLoop need peers 1 results

def writeReply (kind : WriteKind) (need acks : ℕ) : Value :=
  if acks ≥ need then kind.success else quorumError kind.op acks need

lemma gatherLoop_spec {need rounds acks k : ℕ} {results : List Bool}
    (h : gatherLoop need rounds acks results = some k) :
    ∃ used, used <+: results ∧ k = acks + used.count true ∧
      (need ≤ k ∨ used.length = rounds) := by
  induction rounds generalizing acks results with
  | zero =>
    simp only [gatherLoop, Option.some.injEq] at h
    exact ⟨[], List.nil_prefix, by simp [h], .inr rfl⟩
  | succ rounds ih =>
    simp only [gatherLoop] at h
    split at h
    · simp only [Option.some.injEq] at h
      exact ⟨[], List.nil_prefix, by simp [h], .inl (by omega)⟩
    · rcases results with _ | ⟨ok, rest⟩
      · simp at h
      · obtain ⟨used, hused, hk, hend⟩ := ih h
        refine ⟨ok :: used, by simpa using hused, ?_, hend.imp_right (congrArg (· + 1))⟩
        rw [hk, List.count_cons]
        cases ok with
        | false => simp
        | true =>
          simp only [if_true, beq_self_eq_true]
          omega

lemma gatherLoop_le {need rounds acks k : ℕ} {results : List Bool}
    (h : gatherLoop need rounds acks results = some k) : k ≤ acks + results.count true := by
  obtain ⟨used, hused, rfl, -⟩ := gatherLoop_spec h
  exact Nat.add_le_add_left (hused.sublist.count_le true) acks

lemma gatherLoop_isSome (need : ℕ) {rounds : ℕ} (acks : ℕ) {results : List Bool}
    (h : rounds ≤ results.length) : (gatherLoop need rounds acks results).isSome = true := by
  induction rounds generalizing acks results with
  | zero => rfl
  | succ rounds ih =>
    simp only [gatherLoop]
    split
    · rfl
    · rcases results with _ | ⟨ok, rest⟩
      · simp at h
      · exact ih _ (by simpa using h)

lemma success_ne_quorumError (kind : WriteKind) (op : String) (got need : ℕ) :
    kind.success ≠ quorumError op got need := by
  cases kind <;> simp [WriteKind.success, quorumError]

lemma le_of_writeReply_eq_success {kind : WriteKind} {need acks : ℕ}
    (h : writeReply kind need acks = kind.success) : need ≤ acks := by
  unfold writeReply at h
  split at h
  · assumption
  · exact absurd h.symm (success_ne_quorumError _ _ _ _)

/-! ### Reading -/

/-- What a peer's goroutine sends: a sibling set, or that the peer failed or sent an
undecodable blob. -/
abbrev PeerResult := Bytes × Option (List Version)

structure ReadState where
  responses : ℕ
  merged : List Version
  responders : ExtTreeMap Bytes (List Version)

/-- The local sibling set is the first response. -/
def readInit (self : Bytes) (own : List Version) : ReadState where
  responses := 1
  merged := own
  responders := (∅ : ExtTreeMap Bytes (List Version)).insert self own

def ReadState.respond (st : ReadState) (addr : Bytes) (versions : List Version) : ReadState where
  responses := st.responses + 1
  merged := versions.foldl reconcile st.merged
  responders := st.responders.insert addr versions

/-- The receiving loop of `read`. -/
def readLoop (need : ℕ) : ℕ → ReadState → List PeerResult → Option ReadState
  | 0, st, _ => some st
  | rounds + 1, st, results =>
    if st.responses ≥ need then some st
    else
      match results with
      | [] => none
      | (_, none) :: rest => readLoop need rounds st rest
      | (addr, some versions) :: rest => readLoop need rounds (st.respond addr versions) rest

/-- A tombstone that won reads as a miss. -/
def mergedReply (merged : List Version) : Value :=
  match live merged with
  | [] => .bulkString none
  | v :: _ => .bulkString (some v.value)

def readReply (need : ℕ) (st : ReadState) : Value :=
  if st.responses < need then quorumError "read" st.responses need else mergedReply st.merged

/-- What `readRepair` does for one responder behind the merged set: one update of the own
store, or one `RSET` for each version to a peer. -/
inductive Repair
  | own (merged : List Version)
  | push (addr : Bytes) (v : Version)
  deriving DecidableEq

def readRepair (o : VisitOrder (Bytes × List Version)) (self : Bytes) (st : ReadState) :
    List Repair :=
  (o.visit 0 st.responders.toList).flatMap fun (addr, set) =>
    if equal set st.merged then []
    else if addr = self then [.own st.merged]
    else st.merged.map (.push addr)

/-- The repairs a finished read starts: none without a quorum, or with a single responder. -/
def repairs (o : VisitOrder (Bytes × List Version)) (self : Bytes) (need : ℕ) (st : ReadState) :
    List Repair :=
  if st.responses < need then []
  else if st.responses > 1 then readRepair o self st
  else []

/-- The sibling sets of the results that carry one, one after the other. -/
def answered (results : List PeerResult) : List Version :=
  results.flatMap fun r => r.2.getD []

/-- One round of the receiving loop. -/
def ReadState.receive (st : ReadState) (res : PeerResult) : ReadState :=
  match res.2 with
  | none => st
  | some versions => st.respond res.1 versions

lemma responses_foldl (used : List PeerResult) (st : ReadState) :
    (used.foldl ReadState.receive st).responses =
      st.responses + used.countP fun res => res.2.isSome := by
  induction used generalizing st with
  | nil => rfl
  | cons res used ih =>
    obtain ⟨addr, _ | versions⟩ := res
    · simpa [ReadState.receive] using ih st
    · rw [List.foldl_cons, ih]
      simp only [ReadState.receive, ReadState.respond, List.countP_cons, Option.isSome_some,
        if_true]
      omega

lemma merged_foldl (used : List PeerResult) (st : ReadState) :
    (used.foldl ReadState.receive st).merged = (answered used).foldl reconcile st.merged := by
  induction used generalizing st with
  | nil => rfl
  | cons res used ih =>
    obtain ⟨addr, _ | versions⟩ := res
    · simpa [ReadState.receive, answered] using ih st
    · rw [List.foldl_cons, ih]
      simp [ReadState.receive, ReadState.respond, answered]

lemma foldl_of_readLoop {need rounds : ℕ} {st st' : ReadState} {results : List PeerResult}
    (h : readLoop need rounds st results = some st') :
    ∃ used, used <+: results ∧ st' = used.foldl ReadState.receive st ∧
      (need ≤ st'.responses ∨ used.length = rounds) := by
  induction rounds generalizing st results with
  | zero =>
    simp only [readLoop, Option.some.injEq] at h
    exact ⟨[], List.nil_prefix, h.symm, .inr rfl⟩
  | succ rounds ih =>
    simp only [readLoop] at h
    split at h
    · rename_i hmet
      simp only [Option.some.injEq] at h
      exact ⟨[], List.nil_prefix, h.symm, .inl (h ▸ hmet)⟩
    · rcases results with _ | ⟨⟨addr, _ | versions⟩, rest⟩
      · simp at h
      · obtain ⟨used, hused, hst, hend⟩ := ih h
        exact ⟨(addr, none) :: used, by simpa using hused, hst, hend.imp_right (congrArg (· + 1))⟩
      · obtain ⟨used, hused, hst, hend⟩ := ih h
        exact ⟨(addr, some versions) :: used, by simpa using hused, hst,
          hend.imp_right (congrArg (· + 1))⟩

lemma readLoop_isSome (need : ℕ) {rounds : ℕ} (st : ReadState) {results : List PeerResult}
    (h : rounds ≤ results.length) : (readLoop need rounds st results).isSome = true := by
  induction rounds generalizing st results with
  | zero => rfl
  | succ rounds ih =>
    simp only [readLoop]
    split
    · rfl
    · rcases results with _ | ⟨⟨addr, _ | versions⟩, rest⟩
      · simp at h
      · exact ih st (by simpa using h)
      · exact ih _ (by simpa using h)

/-- **What a read reconciles**: the results received before the quorum was met, each counted
once and folded into the local set. -/
theorem readLoop_spec {need rounds : ℕ} {st st' : ReadState} {results : List PeerResult}
    (h : readLoop need rounds st results = some st') :
    ∃ used, used <+: results ∧
      st'.responses = st.responses + used.countP (fun r => r.2.isSome) ∧
      st'.merged = (answered used).foldl reconcile st.merged := by
  obtain ⟨used, hused, rfl, -⟩ := foldl_of_readLoop h
  exact ⟨used, hused, responses_foldl used st, merged_foldl used st⟩

end Kyria.Coordinator
