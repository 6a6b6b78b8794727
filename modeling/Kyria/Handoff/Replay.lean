import Kyria.Handoff
import Kyria.Lib.Runs

/-!
The hint replayer (`internal/server/handoff.go`), with writers that park hints while it works.

A sweep takes a copy of the parked hints and then has one goroutine for each of them, which sends
the blob without the lock and takes the hint out afterwards. Any number of sweeps may be under way,
and between any two of their steps a writer may park a newer blob.
-/

namespace Kyria.Handoff

open Std (ExtTreeMap)
open Kyria.Lib.Cursor Kyria.Lib.Runs

namespace HintStore

/-- `Size`: the map lengths of all targets, added up. -/
def size (h : HintStore) : ℕ := (h.toList.map fun inner => inner.2.size).sum

/-- A target without hints has no map. -/
def NoneEmpty (h : HintStore) : Prop :=
  ∀ (target : Bytes) (keys : ExtTreeMap Bytes Bytes), h[target]? = some keys → keys.size ≠ 0

lemma noneEmpty_empty : NoneEmpty ∅ := by simp [NoneEmpty]

lemma NoneEmpty.insert {h : HintStore} (hh : h.NoneEmpty) {keys : ExtTreeMap Bytes Bytes}
    (hkeys : keys.size ≠ 0) (target : Bytes) : NoneEmpty (h.insert target keys) := by
  intro target' keys' hget
  rw [ExtTreeMap.getElem?_insert] at hget
  split at hget
  · cases hget
    exact hkeys
  · exact hh target' keys' hget

lemma NoneEmpty.add {h : HintStore} (hh : h.NoneEmpty) (target key blob : Bytes) :
    (h.add target key blob).NoneEmpty := by
  refine hh.insert ?_ target
  rw [ExtTreeMap.size_insert]
  split
  · rename_i hmem
    exact fun hz => by simp [ExtTreeMap.eq_empty_iff_size_eq_zero.mpr hz] at hmem
  · exact Nat.succ_ne_zero _

lemma NoneEmpty.remove {h : HintStore} (hh : h.NoneEmpty) (target key blob : Bytes) :
    (h.remove target key blob).NoneEmpty := by
  unfold HintStore.remove
  split
  · exact hh
  · dsimp only
    split_ifs with hne hlast
    · exact hh
    · intro target' keys' hget
      rw [ExtTreeMap.getElem?_erase] at hget
      split at hget
      · cases hget
      · exact hh target' keys' hget
    · exact hh.insert hlast target

def pairs (h : HintStore) : List (Bytes × Bytes) := h.snapshot.map fun hint => (hint.1, hint.2.1)

lemma nodup_pairs (h : HintStore) : h.pairs.Nodup := by
  simp only [pairs, snapshot, List.map_flatMap, List.map_map]
  refine List.nodup_flatMap.mpr ⟨fun inner _ => ?_, ?_⟩
  · refine List.Pairwise.map _ ?_ inner.2.distinct_keys_toList
    intro a b hab heq
    simp only [Function.comp_apply, Prod.mk.injEq, true_and] at heq
    exact hab (by rw [heq, Std.compare_self])
  · refine h.distinct_keys_toList.imp fun {a b} hab => ?_
    rintro ⟨target, key⟩ hta htb
    simp only [List.mem_map, Function.comp_apply, Prod.mk.injEq] at hta htb
    obtain ⟨-, -, rfl, -⟩ := hta
    obtain ⟨-, -, htb, -⟩ := htb
    exact hab (by rw [htb, Std.compare_self])

/-- **`Size` counts the parked pairs** of target and key. -/
lemma size_eq_ncard (h : HintStore) :
    h.size = {pair : Bytes × Bytes | h.parked pair.1 pair.2 ≠ none}.ncard := by
  have hset : {pair : Bytes × Bytes | h.parked pair.1 pair.2 ≠ none} = ↑h.pairs.toFinset := by
    ext ⟨target, key⟩
    simp only [Set.mem_ofPred_eq, List.coe_toFinset, pairs, List.mem_map, Prod.exists,
      Prod.mk.injEq, mem_snapshot, Option.ne_none_iff_exists']
    aesop
  rw [hset, Set.ncard_coe_finset, List.toFinset_card_of_nodup (nodup_pairs h)]
  simp [size, pairs, snapshot, List.length_flatMap]

end HintStore

namespace Replay

/-- A target, a key and the blob for them. -/
abbrev Hint := Bytes × Bytes × Bytes

/-- Where the goroutine of one hint is. -/
inductive Phase
  | sending
  | landed
  | removed
  | failed
  deriving DecidableEq

structure Task where
  hint : Hint
  phase : Phase
  deriving DecidableEq

/-- One call of `replayOnce`, with its two counters. -/
structure Sweep where
  tasks : List Task
  delivered : ℕ := 0
  failed : ℕ := 0

/-- What `replayOnce` returns, once all its goroutines are done. -/
def Sweep.returned (w : Sweep) : Option ℕ :=
  if w.tasks.all fun t => t.phase = .removed ∨ t.phase = .failed then some w.delivered else none

/-- The store and the sweeps that work on it. What was added, the last first, and the calls of
`Replicate` that returned no error are on record. -/
structure State where
  hints : HintStore := ∅
  sweeps : List Sweep := []
  added : List Hint := []
  delivered : List Hint := []

inductive Action
  | add (target key blob : Bytes)
  | snapshot
  | replicate (sweep task : ℕ) (ok : Bool)
  | remove (sweep task : ℕ)

/-- The goroutine of a hint, in a given phase, and the sweep it belongs to. -/
def State.task (s : State) (i j : ℕ) (phase : Phase) : Option (Sweep × Hint) := do
  let w ← s.sweeps[i]?
  let t ← w.tasks[j]?
  if t.phase = phase then some (w, t.hint) else none

def Sweep.setPhase (w : Sweep) (j : ℕ) (hint : Hint) (phase : Phase) : Sweep :=
  { w with tasks := w.tasks.set j { hint, phase } }

def step (s : State) : Action → Option State
  | .add target key blob =>
    some { s with hints := s.hints.add target key blob, added := (target, key, blob) :: s.added }
  | .snapshot =>
    some { s with sweeps := s.sweeps ++
      [{ tasks := s.hints.snapshot.map fun hint => { hint, phase := .sending } }] }
  | .replicate i j ok =>
    (s.task i j .sending).map fun (w, hint) =>
      if ok then
        { s with
          sweeps := s.sweeps.set i (w.setPhase j hint .landed)
          delivered := hint :: s.delivered }
      else
        { s with
          sweeps := s.sweeps.set i { w.setPhase j hint .failed with failed := w.failed + 1 } }
  | .remove i j =>
    (s.task i j .landed).map fun (w, hint) =>
      { s with
        hints := s.hints.remove hint.1 hint.2.1 hint.2.2
        sweeps := s.sweeps.set i
          { w.setPhase j hint .removed with delivered := w.delivered + 1 } }

/-- The blob of the most recent `add` for a target and a key. -/
def State.latest (s : State) (target key : Bytes) : Option Bytes :=
  (s.added.find? fun hint => hint.1 = target ∧ hint.2.1 = key).map fun hint => hint.2.2

lemma task_eq_some {s : State} {i j : ℕ} {phase : Phase} {w : Sweep} {hint : Hint} :
    s.task i j phase = some (w, hint) ↔
      s.sweeps[i]? = some w ∧ w.tasks[j]? = some { hint, phase } := by
  simp only [State.task, Option.bind_eq_bind, Option.bind_eq_some_iff,
    Option.ite_none_right_eq_some, Option.some.injEq, Prod.mk.injEq]
  constructor
  · rintro ⟨w, hw, t, ht, rfl, rfl, rfl⟩
    exact ⟨hw, ht⟩
  · rintro ⟨hw, ht⟩
    exact ⟨w, hw, _, ht, rfl, rfl, rfl⟩

/-- What is delivered and what is parked, while sweeps are under way. -/
structure Kept (s : State) : Prop where
  latest : ∀ target key blob, s.latest target key = some blob →
    s.hints.parked target key = some blob ∨ (target, key, blob) ∈ s.delivered
  landed : ∀ w ∈ s.sweeps, ∀ t ∈ w.tasks, t.phase = .landed → t.hint ∈ s.delivered
  noneEmpty : s.hints.NoneEmpty

lemma kept_start : Kept {} where
  latest := by simp [State.latest]
  landed := by simp
  noneEmpty := HintStore.noneEmpty_empty

lemma Kept.landed_set {s : State} (h : Kept s) {i j : ℕ} {w : Sweep} {phase : Phase} {hint : Hint}
    (hw : s.sweeps[i]? = some w) (hland : phase = .landed → hint ∈ s.delivered) {w' : Sweep}
    (hw' : w'.tasks = (w.setPhase j hint phase).tasks) :
    ∀ v ∈ s.sweeps.set i w', ∀ t ∈ v.tasks, t.phase = .landed → t.hint ∈ s.delivered := by
  intro v hv t ht hp
  rcases List.mem_or_eq_of_mem_set hv with hv | rfl
  · exact h.landed v hv t ht hp
  · rw [hw'] at ht
    rcases List.mem_or_eq_of_mem_set ht with ht | rfl
    · exact h.landed w (List.mem_of_getElem? hw) t ht hp
    · exact hland hp

lemma Kept.latest_add {s : State} (h : Kept s) (target key blob target' key' blob' : Bytes)
    (hlatest : State.latest { s with added := (target, key, blob) :: s.added } target' key' =
      some blob') :
    (s.hints.add target key blob).parked target' key' = some blob' ∨
      (target', key', blob') ∈ s.delivered := by
  rw [HintStore.parked_add]
  by_cases heq : target = target' ∧ key = key'
  · rw [if_pos heq]
    exact .inl (by simpa [State.latest, heq] using hlatest)
  · rw [if_neg heq]
    refine h.latest target' key' blob' ?_
    simpa [State.latest, List.find?_cons, heq] using hlatest

lemma Kept.latest_remove {s : State} (h : Kept s) {hint : Hint} (hland : hint ∈ s.delivered)
    {target key blob : Bytes} (hlatest : s.latest target key = some blob) :
    (s.hints.remove hint.1 hint.2.1 hint.2.2).parked target key = some blob ∨
      (target, key, blob) ∈ s.delivered := by
  rcases h.latest target key blob hlatest with hparked | hdelivered
  · rw [HintStore.parked_remove]
    split_ifs with hgone
    · obtain ⟨rfl, rfl, hgone⟩ := hgone
      rw [hgone, Option.some.injEq] at hparked
      subst hparked
      exact .inr hland
    · exact .inl hparked
  · exact .inr hdelivered

lemma Kept.step {s s' : State} (h : Kept s) {a : Action} (hstep : step s a = some s') :
    Kept s' := by
  cases a with
  | add target key blob =>
    cases hstep
    exact ⟨h.latest_add target key blob, h.landed, h.noneEmpty.add target key blob⟩
  | snapshot =>
    cases hstep
    refine ⟨h.latest, fun w hw t ht hp => ?_, h.noneEmpty⟩
    rcases List.mem_append.mp hw with hw | hw
    · exact h.landed w hw t ht hp
    · obtain rfl := List.mem_singleton.mp hw
      obtain ⟨hint, -, rfl⟩ := List.mem_map.mp ht
      cases hp
  | replicate i j ok =>
    obtain ⟨⟨w, hint⟩, htask, rfl⟩ := Option.map_eq_some_iff.mp hstep
    obtain ⟨hw, -⟩ := task_eq_some.mp htask
    cases ok with
    | false => exact ⟨h.latest, h.landed_set hw (fun hp => by cases hp) rfl, h.noneEmpty⟩
    | true =>
      have hgrown : Kept { s with delivered := hint :: s.delivered } :=
        ⟨fun target key blob hl => (h.latest target key blob hl).imp_right (List.mem_cons_of_mem _),
          fun w hw t ht hp => List.mem_cons_of_mem _ (h.landed w hw t ht hp), h.noneEmpty⟩
      exact ⟨hgrown.latest, hgrown.landed_set hw (fun _ => List.mem_cons_self) rfl, h.noneEmpty⟩
  | remove i j =>
    obtain ⟨⟨w, hint⟩, htask, rfl⟩ := Option.map_eq_some_iff.mp hstep
    obtain ⟨hw, ht⟩ := task_eq_some.mp htask
    have hland : hint ∈ s.delivered :=
      h.landed w (List.mem_of_getElem? hw) _ (List.mem_of_getElem? ht) rfl
    exact ⟨fun _ _ _ => h.latest_remove hland, h.landed_set hw (fun hp => by cases hp) rfl,
      h.noneEmpty.remove _ _ _⟩

/-- **No undelivered hint is dropped.** However writers and any number of sweeps interleave and
whichever calls fail, the last blob parked for a target and a key is still parked or was itself
delivered; taking out a hint leaves all others; no target has an empty map; and `Size` is the
number of pairs parked. -/
theorem undelivered_hints_kept {s : State} (h : Steps step (fun _ _ => True) {} s) :
    (∀ target key blob, s.latest target key = some blob →
      s.hints.parked target key = some blob ∨ (target, key, blob) ∈ s.delivered) ∧
    (∀ target key delivered target' key', (target', key') ≠ (target, key) →
      (s.hints.remove target key delivered).parked target' key' = s.hints.parked target' key') ∧
    (∀ (target : Bytes) keys, s.hints[target]? = some keys → keys.size ≠ 0) ∧
    s.hints.size = {pair : Bytes × Bytes | s.hints.parked pair.1 pair.2 ≠ none}.ncard := by
  have hkept : Kept s := h.invariant kept_start fun _ _ _ hs _ hstep => hs.step hstep
  refine ⟨hkept.latest, ?_, hkept.noneEmpty, s.hints.size_eq_ncard⟩
  intro target key delivered target' key' hne
  rw [HintStore.parked_remove, if_neg]
  rintro ⟨rfl, rfl, -⟩
  exact hne rfl

/-- A newer blob that comes between the delivery of the older one and its removal stays. -/
theorem undelivered_hints_kept_superseded :
    let run := exec step (fun _ _ => true) {} [.add [1] [2] [3], .snapshot, .replicate 0 0 true,
      .add [1] [2] [4], .remove 0 0]
    ∃ s, run = some s ∧ s.latest [1] [2] = some [4] ∧ ([1], [2], [4]) ∉ s.delivered ∧
      s.hints.parked [1] [2] = some [4] := by
  intro run
  have hrun : run.any (fun s => s.latest [1] [2] = some [4] ∧ ([1], [2], [4]) ∉ s.delivered) =
      true := by decide +kernel
  obtain ⟨s, hs, hprops⟩ := (Option.any_eq_true _ _).mp hrun
  obtain ⟨hlatest, hnot⟩ := of_decide_eq_true hprops
  have hsteps : Steps step (fun _ _ => True) {} s :=
    Steps.of_exec_true hs
  obtain ⟨hkept, -⟩ := undelivered_hints_kept hsteps
  exact ⟨s, hs, hlatest, hnot, (hkept [1] [2] [4] hlatest).resolve_right hnot⟩

end Replay

end Kyria.Handoff
