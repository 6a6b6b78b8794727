import Kyria.Telemetry
import Kyria.Protocol
import Kyria.Lib.Runs

/-!
How `Handle` and `recordOutcome` keep the counters of a node, with many requests at a time.

Every addition to a counter is atomic, and between any two of them another request may come in. What
the counters say is told by how far each request has come: the additions it has made.
-/

namespace Kyria.Server.Recording

open Std (ExtTreeMap)
open Kyria.Lib.Cursor Kyria.Lib.Buckets Kyria.Lib.Runs
open Kyria.Protocol Kyria.Telemetry

/-- Where a request stands that `Handle` has found in its table with the right number of
arguments. -/
inductive Phase
  /-- `RecordCommand` is next. -/
  | arrived
  /-- Routed and dispatched. -/
  | running
  /-- Redirected to the owner of the key. -/
  | moved
  /-- It took the time `d`, and `count.Add` is next. -/
  | timed (d : ℤ) (reply : Value)
  /-- `sum.Add` is next. -/
  | counted (d : ℤ) (reply : Value)
  /-- The addition to the bucket is next. -/
  | summed (d : ℤ) (reply : Value)
  /-- The outcome is next. -/
  | observed (d : ℤ) (reply : Value)
  | done (d : ℤ) (reply : Value)

structure Request where
  name : Bytes
  phase : Phase

structure State where
  telemetry : Telemetry
  requests : List Request

def clientCommands : List Bytes := [ascii "GET", ascii "SET", ascii "DEL"]

def State.initial : State where
  telemetry := .new clientCommands
  requests := []

inductive Action
  | arrive (name : Bytes)
  | redirect (k : ℕ)
  | serve (k : ℕ) (d : ℤ) (reply : Value)
  /-- Request `k` makes its next addition. -/
  | advance (k : ℕ)

/-- The `switch` of `recordOutcome`. -/
def recordReply (t : Telemetry) (name : Bytes) (reply : Value) : Telemetry :=
  match reply with
  | .error _ => t.recordError name
  | .bulkString (some _) => if name = ascii "GET" then t.recordHit name else t
  | _ => if name = ascii "GET" then t.recordMiss name else t

/-- The next addition of a request of the name. -/
def advance (t : Telemetry) (name : Bytes) : Phase → Option (Telemetry × Phase)
  | .arrived => some (t.recordCommand name, .running)
  | .timed d reply => some (t.recordLatency name (·.addCount), .counted d reply)
  | .counted d reply => some (t.recordLatency name (·.addSum d), .summed d reply)
  | .summed d reply => some (t.recordLatency name (·.addBucket d), .observed d reply)
  | .observed d reply => some (recordReply t name reply, .done d reply)
  | .running | .moved | .done _ _ => none

def State.move (s : State) (k : ℕ) (r : Request) (p : Phase) : State :=
  { s with requests := s.requests.set k { r with phase := p } }

def step (s : State) : Action → Option State
  | .arrive name => some { s with requests := s.requests ++ [⟨name, .arrived⟩] }
  | .redirect k =>
    match s.requests[k]? with
    | some ⟨name, .running⟩ => some (s.move k ⟨name, .running⟩ .moved)
    | _ => none
  | .serve k d reply =>
    match s.requests[k]? with
    | some ⟨name, .running⟩ => some (s.move k ⟨name, .running⟩ (.timed d reply))
    | _ => none
  | .advance k => s.requests[k]?.bind fun r => (advance s.telemetry r.name r.phase).map fun x =>
      { s.move k r x.2 with telemetry := x.1 }

/-! ### What the requests account for -/

namespace Phase

/-- It has been counted as received. -/
@[simp] def received : Phase → Option Unit
  | .arrived => none
  | .running | .moved | .timed .. | .counted .. | .summed .. | .observed .. | .done .. => some ()

@[simp] def redirected : Phase → Option Unit
  | .moved => some ()
  | .arrived | .running | .timed .. | .counted .. | .summed .. | .observed .. | .done .. => none

/-- The duration, once the number of observations counts it. -/
@[simp] def inCount : Phase → Option ℤ
  | .counted d _ | .summed d _ | .observed d _ | .done d _ => some d
  | .arrived | .running | .moved | .timed .. => none

/-- The duration, once it is in the sum. -/
@[simp] def inSum : Phase → Option ℤ
  | .summed d _ | .observed d _ | .done d _ => some d
  | .arrived | .running | .moved | .timed .. | .counted .. => none

/-- The duration, once a bucket counts it. -/
@[simp] def inBucket : Phase → Option ℤ
  | .observed d _ | .done d _ => some d
  | .arrived | .running | .moved | .timed .. | .counted .. | .summed .. => none

/-- The reply, once its outcome is counted. -/
@[simp] def judged : Phase → Option Value
  | .done _ reply => some reply
  | .arrived | .running | .moved | .timed .. | .counted .. | .summed .. | .observed .. => none

/-- It makes no more additions. -/
@[simp] def ended : Phase → Bool
  | .moved | .done .. => true
  | .arrived | .running | .timed .. | .counted .. | .summed .. | .observed .. => false

end Phase

/-- What the requests of a name have to show. -/
def shown {β : Type} (name : Bytes) (φ : Phase → Option β) (rs : List Request) : List β :=
  rs.filterMap fun r => if r.name = name then φ r.phase else none

def isError : Value → Bool
  | .error _ => true
  | _ => false

def isHit (name : Bytes) : Value → Bool
  | .bulkString (some _) => name = ascii "GET"
  | _ => false

def isMiss (name : Bytes) : Value → Bool
  | .error _ | .bulkString (some _) => false
  | _ => name = ascii "GET"

/-- What the counters of a name should be. -/
def expected (name : Bytes) (rs : List Request) : CommandStats where
  total := (shown name Phase.received rs).length
  hits := (shown name Phase.judged rs).countP (isHit name)
  misses := (shown name Phase.judged rs).countP (isMiss name)
  errors := (shown name Phase.judged rs).countP isError
  latency :=
    { bounds := defaultBuckets
      counts := tallies defaultBuckets (shown name Phase.inBucket rs)
      sum := (shown name Phase.inSum rs).sum
      count := (shown name Phase.inCount rs).length }

@[simp] lemma shown_nil {β : Type} {φ : Phase → Option β} {name : Bytes} :
    shown name φ [] = [] := rfl

@[simp] lemma shown_append {β : Type} {φ : Phase → Option β} {name : Bytes} (l₁ l₂ : List Request) :
    shown name φ (l₁ ++ l₂) = shown name φ l₁ ++ shown name φ l₂ := List.filterMap_append

@[simp] lemma shown_cons {β : Type} {φ : Phase → Option β} {name : Bytes} (r : Request)
    (rs : List Request) :
    shown name φ (r :: rs) =
      (if r.name = name then (φ r.phase).toList else []) ++ shown name φ rs := by
  simp only [shown, List.filterMap_cons]
  split_ifs with h
  · cases φ r.phase <;> rfl
  · rfl

/-! ### One step -/

/-- What a request of the name adds to the counters of its command when it moves on. -/
inductive Adds (name : Bytes) : Phase → Phase → (CommandStats → CommandStats) → Prop
  | received : Adds name .arrived .running fun c => { c with total := c.total + 1 }
  | moved : Adds name .running .moved fun c => c
  | served (d : ℤ) (reply : Value) : Adds name .running (.timed d reply) fun c => c
  | counted (d : ℤ) (reply : Value) : Adds name (.timed d reply) (.counted d reply)
      fun c => { c with latency := c.latency.addCount }
  | summed (d : ℤ) (reply : Value) : Adds name (.counted d reply) (.summed d reply)
      fun c => { c with latency := c.latency.addSum d }
  | observed (d : ℤ) (reply : Value) : Adds name (.summed d reply) (.observed d reply)
      fun c => { c with latency := c.latency.addBucket d }
  | done (d : ℤ) (reply : Value) : Adds name (.observed d reply) (.done d reply)
      fun c => { c with
        hits := c.hits + (isHit name reply).toNat
        misses := c.misses + (isMiss name reply).toNat
        errors := c.errors + (isError reply).toNat }

lemma recordReply_eq (t : Telemetry) (name : Bytes) (reply : Value) :
    recordReply t name reply = t.record name fun c => { c with
      hits := c.hits + (isHit name reply).toNat
      misses := c.misses + (isMiss name reply).toNat
      errors := c.errors + (isError reply).toNat } := by
  by_cases hget : name = ascii "GET"
  all_goals
    rcases reply with _ | _ | _ | (_ | _) | _ <;>
      simp [recordReply, isHit, isMiss, isError, hget, recordError, recordHit, recordMiss,
        record_self]

lemma adds_of_advance {t t' : Telemetry} {name : Bytes} {q p : Phase}
    (h : advance t name q = some (t', p)) : ∃ f, Adds name q p f ∧ t' = t.record name f := by
  cases q with
  | arrived =>
    obtain ⟨rfl, rfl⟩ := by simpa [advance] using h
    exact ⟨_, .received, rfl⟩
  | timed d reply =>
    obtain ⟨rfl, rfl⟩ := by simpa [advance] using h
    exact ⟨_, .counted d reply, rfl⟩
  | counted d reply =>
    obtain ⟨rfl, rfl⟩ := by simpa [advance] using h
    exact ⟨_, .summed d reply, rfl⟩
  | summed d reply =>
    obtain ⟨rfl, rfl⟩ := by simpa [advance] using h
    exact ⟨_, .observed d reply, rfl⟩
  | observed d reply =>
    obtain ⟨rfl, rfl⟩ := by simpa [advance] using h
    exact ⟨_, .done d reply, recordReply_eq t name reply⟩
  | running | moved | done d reply => simp [advance] at h

/-- A step brings in a request, or lets one of them move on. -/
inductive Took (s : State) : State → Prop
  | arrive (name : Bytes) : Took s { s with requests := s.requests ++ [⟨name, .arrived⟩] }
  | move {l₁ l₂ : List Request} {r : Request} {p : Phase} {f : CommandStats → CommandStats}
      (hsplit : s.requests = l₁ ++ r :: l₂) (hadds : Adds r.name r.phase p f) :
      Took s ⟨s.telemetry.record r.name f, l₁ ++ { r with phase := p } :: l₂⟩

variable {s u : State} {a : Action}

lemma took_move {k : ℕ} {r : Request} {p : Phase} {f : CommandStats → CommandStats}
    (hk : s.requests[k]? = some r) (hadds : Adds r.name r.phase p f) :
    Took s { s.move k r p with telemetry := s.telemetry.record r.name f } := by
  obtain ⟨hlt, rfl⟩ := List.getElem?_eq_some_iff.mp hk
  obtain ⟨l₁, l₂, hsplit, -, hset⟩ : ∃ l₁ l₂, s.requests = l₁ ++ s.requests[k] :: l₂ ∧
      l₁.length = k ∧ s.requests.set k { s.requests[k] with phase := p } =
        l₁ ++ { s.requests[k] with phase := p } :: l₂ := List.exists_of_set hlt
  simp only [State.move, hset]
  exact .move hsplit hadds

lemma took_of_step (h : step s a = some u) : Took s u := by
  cases a with
  | arrive name =>
    obtain rfl := Option.some.inj h
    exact .arrive name
  | redirect k =>
    simp only [step] at h
    split at h
    · rename_i name hk
      obtain rfl := Option.some.inj h
      simpa [State.move] using took_move hk .moved
    · cases h
  | serve k d reply =>
    simp only [step] at h
    split at h
    · rename_i name hk
      obtain rfl := Option.some.inj h
      simpa [State.move] using took_move hk (.served d reply)
    · cases h
  | advance k =>
    simp only [step, Option.bind_eq_some_iff, Option.map_eq_some_iff] at h
    obtain ⟨r, hk, ⟨t', p⟩, hadv, rfl⟩ := h
    obtain ⟨f, hadds, rfl⟩ := adds_of_advance hadv
    exact took_move hk hadds

/-! ### Runs -/

/-- Each command's counters are what its requests account for. -/
def Accounted (s : State) : Prop :=
  ∀ name c, s.telemetry.commands[name]? = some c → c = expected name s.requests

section Moves

variable {name : Bytes} {l₁ l₂ : List Request} {r : Request} {p : Phase}
  {f : CommandStats → CommandStats}

lemma expected_arrive (other : Bytes) :
    expected name (l₁ ++ [⟨other, .arrived⟩]) = expected name l₁ := by
  simp [expected]

lemma expected_of_ne (hne : r.name ≠ name) :
    expected name (l₁ ++ { r with phase := p } :: l₂) = expected name (l₁ ++ r :: l₂) := by
  simp [expected, hne]

lemma Adds.expected_eq (h : Adds r.name r.phase p f) :
    expected r.name (l₁ ++ { r with phase := p } :: l₂) = f (expected r.name (l₁ ++ r :: l₂)) := by
  obtain ⟨name, q⟩ := r
  cases h with
  | received => simp [expected, add_comm, add_left_comm]
  | moved | served d reply => simp [expected]
  | counted d reply => simp [expected, Histogram.addCount, add_comm, add_left_comm]
  | summed d reply => simp [expected, Histogram.addSum, add_comm, add_left_comm]
  | observed d reply =>
    have hnew : tallies defaultBuckets (shown name Phase.inBucket l₁ ++
        d :: shown name Phase.inBucket l₂) = _ := tallies_of_perm _ List.perm_middle
    rw [tallies_cons] at hnew
    simp [expected, Histogram.addBucket, hnew]
  | done d reply =>
    simp [expected, List.countP_cons, Bool.toNat, Bool.cond_eq_ite, add_comm, add_left_comm]

end Moves

lemma Accounted.step (h : Accounted s) (hstep : step s a = some u) : Accounted u := by
  intro name c hc
  cases took_of_step hstep with
  | arrive other => exact (h name c hc).trans (expected_arrive other).symm
  | move hsplit hadds =>
    rw [getElem?_record] at hc
    split_ifs at hc with hname
    · obtain ⟨c₀, hc₀, rfl⟩ := Option.map_eq_some_iff.mp hc
      subst hname
      rw [h _ _ hc₀, hsplit]
      exact hadds.expected_eq.symm
    · rw [h _ _ hc, hsplit]
      exact (expected_of_ne hname).symm

/-- A state some run of the node leads to. -/
def Reachable (s : State) : Prop := Steps step (fun _ _ => True) .initial s

lemma Reachable.accounted (h : Reachable s) : Accounted s := by
  refine h.invariant (I := Accounted) (fun name c hc => ?_) fun _ _ _ hacc _ => hacc.step
  rw [eq_empty_of_new _ hc]
  simp [expected, State.initial, Histogram.new]

/-! ### What the counters say -/

/-- No request of the name is on its way. -/
def Idle (name : Bytes) (rs : List Request) : Prop := ∀ r ∈ rs, r.name = name → r.phase.ended

instance (name : Bytes) (rs : List Request) : Decidable (Idle name rs) :=
  inferInstanceAs (Decidable (∀ r ∈ rs, r.name = name → r.phase.ended))

lemma Idle.shown_eq {name : Bytes} {rs : List Request} (h : Idle name rs) :
    shown name Phase.inBucket rs = shown name Phase.inCount rs ∧
      (shown name Phase.judged rs).length = (shown name Phase.inCount rs).length ∧
      (shown name Phase.inCount rs).length + (shown name Phase.redirected rs).length =
        (shown name Phase.received rs).length ∧
      (shown name Phase.received rs).length = rs.countP (·.name = name) := by
  induction rs with
  | nil => simp
  | cons r rs ih =>
    obtain ⟨other, q⟩ := r
    have ih := ih fun r hr => h r (List.mem_cons_of_mem _ hr)
    by_cases hname : other = name
    · have hended : q.ended := h _ List.mem_cons_self hname
      cases q <;> simp [hname] at hended ⊢ <;> exact ⟨by tauto, by omega, by omega, by omega⟩
    · simpa [hname] using ih

/-- Two `GET`s at a time, a hit and an error. -/
def overlapping : List Action :=
  [.arrive (ascii "GET"), .arrive (ascii "GET"), .advance 0, .advance 1,
    .serve 0 300 (.bulkString (some [1])), .serve 1 7000 (.error []), .advance 1, .advance 0,
    .advance 0, .advance 1, .advance 1, .advance 1, .advance 0, .advance 0]

lemma exists_overlapping (p : State → Bool)
    (hp : (exec step (fun _ _ => true) .initial overlapping).any p = true) :
    ∃ s, Reachable s ∧ p s = true := by
  obtain ⟨s, hs, hps⟩ := (Option.any_eq_true _ _).mp hp
  exact ⟨s, .of_exec_true hs, hps⟩

/-- The first bound that `num` of `den` of the durations do not exceed; above all bounds, the
largest of them. -/
def percentile (num den : ℕ) (ds : List ℤ) : ℤ :=
  if ds = [] then 0
  else (defaultBuckets.find? fun b => num * ds.length ≤ den * ds.countP (· ≤ b)).getD 500000000

lemma quantile_eq_percentile {num den q : ℕ} {ds : List ℤ} {sum : ℤ}
    (hq : ∀ running ≤ ds.length,
      reaches q ds.length running = decide (num * ds.length ≤ den * running)) :
    Histogram.quantile ⟨defaultBuckets, tallies defaultBuckets ds, sum, ds.length⟩ q =
      percentile num den ds := by
  simp only [Histogram.quantile, percentile, List.length_eq_zero_iff,
    walk_tallies pairwise_defaultBuckets]
  simp only [hq _ List.countP_le_length]
  rfl

/-- **The percentiles of `STATS` are exact up to the bounds**: when no request of the command is on
its way, they are the least bounds that half and 99 of 100 of the requests it served did not exceed,
or the largest if that is none of them, or `0` if none was served, although they are found by
`float64` arithmetic from a histogram. -/
theorem stats_percentiles_exact {row : CommandSnapshot} (h : Reachable s)
    (hrow : row ∈ s.telemetry.snapshot) (hidle : Idle row.command s.requests)
    (hlt : s.requests.length < 2 ^ 46) :
    row.p50 = percentile 1 2 (shown row.command Phase.inCount s.requests) ∧
      row.p99 = percentile 99 100 (shown row.command Phase.inCount s.requests) := by
  simp only [snapshot, List.mem_filterMap, Option.map_eq_some_iff] at hrow
  obtain ⟨name, -, c, hc, rfl⟩ := hrow
  change Idle name s.requests at hidle
  obtain rfl := h.accounted name c hc
  have hlen : (shown name Phase.inCount s.requests).length < 2 ^ 46 :=
    (List.length_filterMap_le _ _).trans_lt hlt
  simp only [CommandStats.snapshot, expected, hidle.shown_eq.1]
  constructor
  · refine quantile_eq_percentile fun running hr => ?_
    rw [reaches_half (hlen.trans (by norm_num)) hr, one_mul]
  · exact quantile_eq_percentile fun running hr => reaches_ninetyNine hlen hr

theorem stats_percentiles_exact_overlapping :
    ∃ s row, Reachable s ∧ row ∈ s.telemetry.snapshot ∧ row.p50 = 500 ∧ row.p99 = 10000 ∧
      row.p50 = percentile 1 2 (shown row.command Phase.inCount s.requests) ∧
      row.p99 = percentile 99 100 (shown row.command Phase.inCount s.requests) := by
  obtain ⟨s, hs, htest⟩ := exists_overlapping
    (fun s => decide (s.requests.length < 2 ^ 46) && s.telemetry.snapshot.any fun row =>
      decide (Idle row.command s.requests) && row.p50 == 500 && row.p99 == 10000)
    (by decide +kernel)
  simp only [Bool.and_eq_true, decide_eq_true_eq, List.any_eq_true, beq_iff_eq] at htest
  obtain ⟨hlt, row, hrow, ⟨hidle, h50⟩, h99⟩ := htest
  exact ⟨s, row, hs, hrow, h50, h99, stats_percentiles_exact hs hrow hidle hlt⟩

end Kyria.Server.Recording
