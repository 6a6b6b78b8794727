import Kyria.Lib.Buckets
import Kyria.Lib.Rounding
import Kyria.Lib.Cursor

/-!
The counters of a node (`internal/telemetry`): per command how many came in and how they turned out,
and a histogram of how long they took.

Durations are in nanoseconds. A `float64` that `Quantile` works with is a natural number of units of
`2 ^ -53`, rounded to 53 bits by every operation.
-/

namespace Kyria

open Std (ExtTreeMap)
open Kyria.Lib.Cursor Kyria.Lib.Buckets Kyria.Lib.Rounding

namespace Telemetry

structure Histogram where
  bounds : List ℤ
  counts : List ℕ
  sum : ℤ := 0
  count : ℕ := 0
  deriving DecidableEq

def defaultBuckets : List ℤ :=
  [250, 500, 1000, 2500, 5000, 10000, 25000, 50000, 100000, 250000, 500000, 1000000, 5000000,
    25000000, 100000000, 500000000]

lemma pairwise_defaultBuckets : defaultBuckets.Pairwise (· < ·) := by decide

namespace Histogram

def new (bounds : List ℤ) : Histogram where
  bounds := bounds
  counts := List.replicate (bounds.length + 1) 0

/-! `Observe` adds to three atomic counters, one after the other. -/

def addCount (h : Histogram) : Histogram := { h with count := h.count + 1 }

def addSum (h : Histogram) (d : ℤ) : Histogram := { h with sum := h.sum + d }

def addBucket (h : Histogram) (d : ℤ) : Histogram :=
  { h with counts := h.counts.modify (bucket h.bounds d) (· + 1) }

end Histogram

/-! ### Quantiles -/

/-- The `float64` of a counter. -/
def float64 (n : ℕ) : ℕ := round 53 n

/-- `float64(running) >= q * float64(t)`, for a `q` given in units of `2 ^ -53`. -/
def reaches (q t running : ℕ) : Bool := round 53 (q * float64 t) ≤ float64 running * 2 ^ 53

def Histogram.quantile (h : Histogram) (q : ℕ) : ℤ :=
  if h.count = 0 then 0
  else (walk (reaches q h.count) h.bounds h.counts 0).getD (h.bounds.getLast?.getD 0)

/-- The constant `0.5`. -/
def half : ℕ := 2 ^ 52

/-- The constant `0.99`, which no `float64` is: this is the nearest one. -/
def ninetyNine : ℕ := 8917127262193582

lemma reaches_half {t running : ℕ} (ht : t < 2 ^ 53) (hr : running ≤ t) :
    reaches half t running = decide (t ≤ 2 * running) := by
  have hfits : unit 53 (half * t) ∣ half * t := by
    have hlt : half * t < 2 ^ 105 := by
      unfold half
      omega
    exact (unit_dvd (by omega) hlt).trans (dvd_mul_right half t)
  rw [reaches, float64, float64, round_of_lt (by omega) ht, round_of_lt (by omega) (hr.trans_lt ht),
    round_of_dvd hfits, decide_eq_decide, half]
  omega

/-- **The rank of the 99th percentile is exact**, although neither the constant nor the product is:
for every count that can occur, the comparison comes out as in the rationals. -/
lemma reaches_ninetyNine {t running : ℕ} (ht : t < 2 ^ 46) (hr : running ≤ t) :
    reaches ninetyNine t running = decide (99 * t ≤ 100 * running) := by
  have hbound : ninetyNine * t < 2 ^ 99 := by
    unfold ninetyNine
    omega
  rw [reaches, float64, float64, round_of_lt (by omega) (ht.trans (by norm_num)),
    round_of_lt (by omega) (hr.trans_lt (ht.trans (by norm_num))), decide_eq_decide]
  constructor
  · -- a rank that is not reached lies above by more than rounding can take away
    intro hle
    by_contra hlt
    have herr := le_round_mul 53 (ninetyNine * t)
    unfold ninetyNine at *
    omega
  · -- a count that is reached fits, and rounding does not cross it
    intro hle
    refine round_le_of_dvd ?_ ?_
    · unfold ninetyNine
      omega
    · exact (unit_dvd (by omega) hbound).trans ((pow_dvd_pow 2 (by omega)).trans (dvd_mul_left _ _))

/-! ### The counters of the commands -/

structure CommandStats where
  total : ℕ := 0
  hits : ℕ := 0
  misses : ℕ := 0
  errors : ℕ := 0
  latency : Histogram := .new defaultBuckets
  deriving DecidableEq

end Telemetry

/-- The commands are those registered at the start. -/
structure Telemetry where
  names : List Bytes
  commands : ExtTreeMap Bytes Telemetry.CommandStats

namespace Telemetry

def new (commands : List Bytes) : Telemetry where
  names := commands
  commands := commands.foldl (fun m c => m.insert c {}) ∅

/-- A change of one command's counters; a command that was not registered is ignored. -/
def record (t : Telemetry) (command : Bytes) (f : CommandStats → CommandStats) : Telemetry :=
  { t with commands := t.commands.modify command f }

def recordCommand (t : Telemetry) (command : Bytes) : Telemetry :=
  record t command fun c => { c with total := c.total + 1 }

def recordHit (t : Telemetry) (command : Bytes) : Telemetry :=
  record t command fun c => { c with hits := c.hits + 1 }

def recordMiss (t : Telemetry) (command : Bytes) : Telemetry :=
  record t command fun c => { c with misses := c.misses + 1 }

def recordError (t : Telemetry) (command : Bytes) : Telemetry :=
  record t command fun c => { c with errors := c.errors + 1 }

/-- One of the additions of `RecordDuration`. -/
def recordLatency (t : Telemetry) (command : Bytes) (f : Histogram → Histogram) : Telemetry :=
  record t command fun c => { c with latency := f c.latency }

structure CommandSnapshot where
  command : Bytes
  total : ℕ
  hits : ℕ
  misses : ℕ
  errors : ℕ
  p50 : ℤ
  p99 : ℤ
  deriving DecidableEq

def CommandStats.snapshot (c : CommandStats) (command : Bytes) : CommandSnapshot where
  command := command
  total := c.total
  hits := c.hits
  misses := c.misses
  errors := c.errors
  p50 := c.latency.quantile half
  p99 := c.latency.quantile ninetyNine

/-- The rows of the commands, in the order in which they were registered. -/
def snapshot (t : Telemetry) : List CommandSnapshot :=
  t.names.filterMap fun n => t.commands[n]?.map (·.snapshot n)

lemma eq_empty_of_new (names : List Bytes) {name : Bytes} {c : CommandStats}
    (h : (new names).commands[name]? = some c) : c = ({} : CommandStats) := by
  -- by induction on the names, for every map that has only such counters so far
  have key : ∀ m : ExtTreeMap Bytes CommandStats,
      (∀ d, m[name]? = some d → d = ({} : CommandStats)) →
      (names.foldl (fun m n => m.insert n {}) m)[name]? = some c → c = ({} : CommandStats) := by
    clear h
    induction names with
    | nil => exact fun m hm => hm c
    | cons n names ih =>
      intro m hm
      refine ih _ fun d hd => ?_
      rw [ExtTreeMap.getElem?_insert] at hd
      split_ifs at hd
      · exact (Option.some.inj hd).symm
      · exact hm d hd
  exact key ∅ (by simp) h

lemma getElem?_record (t : Telemetry) (command name : Bytes) (f : CommandStats → CommandStats) :
    (record t command f).commands[name]? =
      if command = name then t.commands[name]?.map f else t.commands[name]? := by
  simp only [record, ExtTreeMap.getElem?_modify, Std.LawfulEqCmp.compare_eq_iff_eq]
  split_ifs with h
  · rw [h]
  · rfl

@[simp] lemma record_self (t : Telemetry) (command : Bytes) :
    record t command (fun c => c) = t := by
  have hsame : (record t command fun c => c).commands = t.commands := by
    refine ExtTreeMap.ext_getElem? fun name => ?_
    rw [getElem?_record, Option.map_id', ite_self]
  exact congrArg (fun m => { t with commands := m }) hsame

end Telemetry

end Kyria
