import Kyria.TombstoneGC
import Kyria.Store.Ops

/-!
A whole sweep (`TombstoneGC.sweep`).

The scan collects the keys to reap; every one of them is then deleted by a call of its own, and
before each of these others may change the store as they like. `DeleteIf` repeats the test on
what it finds, so that nothing is removed on the word of the scan.
-/

namespace Kyria.TombstoneGC

open Kyria.Lib.Cursor Kyria.Lib.MapOrder Kyria.Version Kyria.Store Kyria.Store.MapStore
open Kyria.Replica

variable {σ : Type}

/-- The keys that the scan finds, at time `t` of the store. -/
def scan (m : MapStore σ) (o : EntryOrder) (t now : ℕ) (grace : ℤ) : List Bytes :=
  ((m.range o t).filter fun e => reapableBlob now grace e.2).map Prod.fst

/-- What happens meanwhile: before the `i`-th `DeleteIf` the calls of `calls i` are made, and it
looks its key up at time `time i`. -/
structure Meanwhile where
  calls : ℕ → History
  time : ℕ → ℕ

def sweepLoop (w : Meanwhile) (now : ℕ) (grace : ℤ) :
    ℕ → List Bytes → ℕ → MapStore σ → ℕ × MapStore σ
  | _, [], reaped, m => (reaped, m)
  | i, key :: expired, reaped, m =>
    let r := reap (m.after (w.calls i)) key now grace (w.time i)
    sweepLoop w now grace (i + 1) expired (if r.1 then reaped + 1 else reaped) r.2

/-- The number of keys reaped, and the store. -/
def sweep (m : MapStore σ) (o : EntryOrder) (w : Meanwhile) (t now : ℕ) (grace : ℤ) :
    ℕ × MapStore σ :=
  sweepLoop w now grace 0 (scan m o t now grace) 0 m

/-! ### The calls of a sweep -/

/-- One `DeleteIf`, with the stores before and after it. -/
structure Visit (σ : Type) where
  key : Bytes
  time : ℕ
  before : MapStore σ
  removed : Bool
  after : MapStore σ

def visit (now : ℕ) (grace : ℤ) (key : Bytes) (time : ℕ) (before : MapStore σ) : Visit σ where
  key
  time
  before
  removed := (reap before key now grace time).1
  after := (reap before key now grace time).2

/-- The calls that the loop makes. -/
def visitsFrom (w : Meanwhile) (now : ℕ) (grace : ℤ) :
    ℕ → List Bytes → MapStore σ → List (Visit σ)
  | _, [], _ => []
  | i, key :: expired, m =>
    let v := visit now grace key (w.time i) (m.after (w.calls i))
    v :: visitsFrom w now grace (i + 1) expired v.after

def visits (m : MapStore σ) (o : EntryOrder) (w : Meanwhile) (t now : ℕ) (grace : ℤ) :
    List (Visit σ) :=
  visitsFrom w now grace 0 (scan m o t now grace) m

/-! ### What may be reaped -/

/-- The instant of a unix second, in nanoseconds since the zero time. -/
def instant (sec : Int64) : ℤ := (sec.toInt + Time.unixToInternal) * Time.nanosPerSecond

/-- A set of tombstones, at least one, all older than the grace period. -/
def Aged (now : ℕ) (grace : ℤ) (blob : Bytes) : Prop :=
  ∃ versions, decode blob = .ok versions ∧ versions ≠ [] ∧
    ∀ v ∈ versions, v.deleted = true ∧ grace < now - instant v.deletedAt

/-- The second is that of a `Time`, and its distance to `now` is a `Duration`. -/
def Dated (now : ℕ) (v : Version) : Prop :=
  v.deletedAt.toInt + Time.unixToInternal < 2 ^ 63 ∧
    -2 ^ 63 ≤ now - instant v.deletedAt ∧ now - instant v.deletedAt < 2 ^ 63

instance (now : ℕ) (v : Version) : Decidable (Dated now v) := inferInstanceAs (Decidable (_ ∧ _))

/-- The tombstones in a blob, if it decodes. -/
def tombstonesIn (blob : Bytes) : List Version :=
  match decode blob with
  | .ok versions => versions.filter fun v => v.deleted
  | .error _ => []

/-- The tombstones in a store are dated. -/
def AllDated (now : ℕ) (m : MapStore σ) : Prop :=
  ∀ p ∈ m.data.toList, ∀ v ∈ tombstonesIn p.2.value, Dated now v

instance (now : ℕ) (m : MapStore σ) : Decidable (AllDated now m) :=
  inferInstanceAs (Decidable (∀ p ∈ m.data.toList, ∀ v ∈ tombstonesIn p.2.value, Dated now v))

lemma ofUnix_eq {sec : Int64} (h : sec.toInt + Time.unixToInternal < 2 ^ 63) :
    Time.ofUnix sec = instant sec := by
  have hlo := Int64.le_toInt sec
  have hu : Time.unixToInternal = 62135596800 := rfl
  unfold Time.ofUnix instant
  rw [Int64.toInt_add, Int64.toInt_ofInt_of_le (by rw [hu]; norm_num) (by rw [hu]; norm_num)]
  rw [Int.bmod_eq_of_le (by norm_num; omega) (by norm_num; omega)]

lemma sub_eq_of_dated {now : ℕ} {v : Version} (h : Dated now v) :
    Time.sub now (Time.ofUnix v.deletedAt) = now - instant v.deletedAt := by
  obtain ⟨hrep, hlo, hhi⟩ := h
  rw [ofUnix_eq hrep, Time.sub]
  omega

lemma reapable_iff {versions : List Version} {now : ℕ} {grace : ℤ}
    (h : ∀ v ∈ versions, v.deleted = true → Dated now v) :
    reapable versions now grace = true ↔ versions ≠ [] ∧
      ∀ v ∈ versions, v.deleted = true ∧ grace < now - instant v.deletedAt := by
  have hlive : (live versions).length > 0 ↔ ¬ ∀ v ∈ versions, v.deleted = true := by
    simp [live, List.length_pos_iff]
  unfold reapable
  split_ifs with h0 h1
  · simp [List.length_eq_zero_iff.mp h0]
  · refine iff_of_false not_false fun hall => ?_
    exact hlive.mp h1 fun v hv => (hall.2 v hv).1
  · have hdel : ∀ v ∈ versions, v.deleted = true := not_not.mp (mt hlive.mpr h1)
    rw [List.all_eq_true, and_iff_right fun hnil => h0 (by rw [hnil]; rfl)]
    refine forall₂_congr fun v hv => ?_
    rw [sub_eq_of_dated (h v hv (hdel v hv)), and_iff_right (hdel v hv), decide_eq_true_iff, not_le]

lemma reapableBlob_iff {m : MapStore σ} {now : ℕ} {grace : ℤ} (hm : AllDated now m) {key : Bytes}
    {e : Entry} (he : m.data[key]? = some e) :
    reapableBlob now grace e.value = true ↔ Aged now grace e.value := by
  have hdated := hm (key, e) (Std.ExtTreeMap.mem_toList_iff_getElem?_eq_some.mpr he)
  unfold tombstonesIn at hdated
  unfold reapableBlob Aged
  rcases hdec : decode e.value with err | versions
  · simp
  · have hall : ∀ v ∈ versions, v.deleted = true → Dated now v := by
      intro v hv hdel
      rw [hdec] at hdated
      exact hdated v (List.mem_filter.mpr ⟨hv, hdel⟩)
    simp only [reapable_iff hall, Except.ok.injEq, exists_eq_left']

/-! ### What a sweep does -/

/-- A call removes its key if what it finds there may be reaped, and changes nothing else. -/
structure Careful (now : ℕ) (grace : ℤ) (v : Visit σ) : Prop where
  removed : v.removed = true →
    (∃ e, v.before.data[v.key]? = some e ∧ Aged now grace e.value) ∧ v.after.data[v.key]? = none
  kept : v.removed = false → Keeps v.before v.after v.key
  others : ∀ key, key ≠ v.key → v.after.data[key]? = v.before.data[key]?

section Visits

variable {now : ℕ} {grace : ℤ}

lemma careful_visit {m : MapStore σ} (hm : AllDated now m) (key : Bytes) (time : ℕ) :
    Careful now grace (visit now grace key time m) where
  removed hr := by
    rcases deleteIf_cases m time key (reapableBlob now grace) with
      ⟨e, he, -, hpred, -, hnone⟩ | ⟨-, hfalse, -⟩
    · exact ⟨⟨e, he, (reapableBlob_iff hm he).mp hpred⟩, hnone⟩
    · exact absurd (hfalse.symm.trans hr) (by decide)
  kept hr := by
    rcases deleteIf_cases m time key (reapableBlob now grace) with
      ⟨_, -, -, -, htrue, -⟩ | ⟨-, -, hkeep⟩
    · exact absurd (htrue.symm.trans hr) (by decide)
    · exact hkeep
  others k hk := deleteIf_of_ne m time _ hk

lemma removed_of_keeps {m₀ m : MapStore σ} (hm : AllDated now m₀) {key : Bytes} {e : Entry}
    (he : m₀.data[key]? = some e) (haged : Aged now grace e.value) (hkeep : Keeps m₀ m key)
    {time : ℕ} (hexp : e.expired time = false) :
    (visit now grace key time m).removed = true := by
  rw [Keeps, he] at hkeep
  obtain ⟨e', he', heq⟩ := Option.map_eq_some_iff.mp hkeep
  obtain ⟨hvalue, hexpires⟩ := Prod.mk.inj heq
  have hexp' : e'.expired time = false := by rw [Entry.expired, hexpires]; exact hexp
  have hpred : reapableBlob now grace e.value = true := (reapableBlob_iff hm he).mpr haged
  rcases deleteIf_cases m time key (reapableBlob now grace) with
    ⟨_, -, -, -, htrue, -⟩ | ⟨hno, -, -⟩
  · exact htrue
  · have := hno e' he' hexp'
    rw [hvalue, hpred] at this
    cases this

variable (w : Meanwhile)

lemma eq_visit_of_mem {i : ℕ} {expired : List Bytes} {m : MapStore σ} {v : Visit σ}
    (hv : v ∈ visitsFrom w now grace i expired m) : v = visit now grace v.key v.time v.before := by
  induction expired generalizing i m with
  | nil => cases hv
  | cons key expired ih =>
    rcases List.mem_cons.mp hv with rfl | hv
    · rfl
    · exact ih hv

lemma map_key_visitsFrom (i : ℕ) (expired : List Bytes) (m : MapStore σ) :
    (visitsFrom w now grace i expired m).map Visit.key = expired := by
  induction expired generalizing i m with
  | nil => rfl
  | cons key expired ih => rw [visitsFrom, List.map_cons, ih]; rfl

lemma sweepLoop_eq (i : ℕ) (expired : List Bytes) (reaped : ℕ) (m : MapStore σ) :
    sweepLoop w now grace i expired reaped m =
      (reaped + ((visitsFrom w now grace i expired m).filter Visit.removed).length,
        ((visitsFrom w now grace i expired m).map Visit.after).getLastD m) := by
  induction expired generalizing i reaped m with
  | nil => rfl
  | cons key expired ih =>
    set v := visit now grace key (w.time i) (m.after (w.calls i)) with hv
    have hstep : sweepLoop w now grace i (key :: expired) reaped m =
        sweepLoop w now grace (i + 1) expired (if v.removed then reaped + 1 else reaped) v.after :=
      rfl
    have hvisits : visitsFrom w now grace i (key :: expired) m =
        v :: visitsFrom w now grace (i + 1) expired v.after := rfl
    rw [hstep, ih, hvisits, List.filter_cons, List.map_cons, List.getLastD_cons]
    split_ifs with hr
    · rw [List.length_cons, Nat.add_right_comm, Nat.add_assoc]
    · rfl

end Visits

/-- **A sweep removes aged tombstones only**, whatever happens in between. Each of its calls
removes what may be reaped at that moment or leaves everything as it was; what the scan has seen
and nobody has touched is removed; and the number returned is that of the keys removed. -/
theorem sweep_removes_aged_only (m : MapStore σ) (o : EntryOrder) (w : Meanwhile) (t now : ℕ)
    (grace : ℤ) (hm : AllDated now m)
    (hw : ∀ v ∈ visits m o w t now grace, AllDated now v.before) :
    (∀ v ∈ visits m o w t now grace, Careful now grace v) ∧
      (∀ key e, m.data[key]? = some e → e.expired t = false → Aged now grace e.value →
        ∃ v ∈ visits m o w t now grace, v.key = key ∧
          (Keeps m v.before key → e.expired v.time = false → v.removed = true)) ∧
      ((visits m o w t now grace).map Visit.key).Nodup ∧
      sweep m o w t now grace =
        (((visits m o w t now grace).filter Visit.removed).length,
          ((visits m o w t now grace).map Visit.after).getLastD m) := by
  refine ⟨fun v hv => ?_, fun key e he hexp haged => ?_, ?_, ?_⟩
  · rw [eq_visit_of_mem w hv]
    exact careful_visit (hw v hv) v.key v.time
  · have hscan : key ∈ scan m o t now grace := by
      refine List.mem_map.mpr ⟨(key, e.value), List.mem_filter.mpr ⟨?_, ?_⟩, rfl⟩
      · exact (mem_range_iff o t).mpr ⟨e, he, hexp, rfl⟩
      · exact (reapableBlob_iff hm he).mpr haged
    have hkeys : (visits m o w t now grace).map Visit.key = scan m o t now grace :=
      map_key_visitsFrom w 0 _ m
    rw [← hkeys] at hscan
    obtain ⟨v, hv, rfl⟩ := List.mem_map.mp hscan
    refine ⟨v, hv, rfl, fun hkeep hexp' => ?_⟩
    rw [eq_visit_of_mem w hv]
    exact removed_of_keeps hm he haged hkeep hexp'
  · rw [visits, map_key_visitsFrom]
    exact (nodup_keys_range m o t).sublist (List.filter_sublist.map Prod.fst)
  · rw [sweep, sweepLoop_eq, Nat.zero_add]
    rfl

/-- Two keys under tombstones from the epoch. -/
def graveyard : MapStore Unit where
  data := ((∅ : Std.ExtTreeMap Bytes Entry).insert
    [1] ⟨encode default [tombstone ∅ 0], 0, 0⟩).insert [2] ⟨encode default [tombstone ∅ 0], 0, 0⟩
  state := ()

/-- The second one is written again before it is reaped. -/
def revival : Meanwhile where
  calls i := if i = 1 then [(9, .set default [2] (encode default [{ value := [118], clock := ∅ }]))]
    else []
  time _ := 9

/-- A hundred seconds after the epoch. -/
def hundred : ℕ := (62135596800 + 100) * Time.nanosPerSecond

theorem sweep_spares_revived :
    (∀ v ∈ visits graveyard default revival 8 hundred (60 * Time.nanosPerSecond),
        Careful hundred (60 * Time.nanosPerSecond) v) ∧
      (visits graveyard default revival 8 hundred (60 * Time.nanosPerSecond)).map
        (fun v => (v.key, v.removed)) = [([1], true), ([2], false)] ∧
      (sweep graveyard default revival 8 hundred (60 * Time.nanosPerSecond)).1 = 1 := by
  obtain ⟨hcareful, -, -, hsweep⟩ := sweep_removes_aged_only graveyard default revival 8 hundred
    (60 * Time.nanosPerSecond) (by decide +kernel) (by decide +kernel)
  refine ⟨hcareful, by decide +kernel, ?_⟩
  rw [hsweep]
  decide +kernel

end Kyria.TombstoneGC
