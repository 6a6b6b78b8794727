import Kyria.Cluster.Simulation

/-!
No write is lost, and replicas that have seen the same writes agree.

Both hold along every run in which no node's sibling set is dropped and no counter
overflows: then two minted versions never carry the same clock, and every set consists of
the causal maxima of what its node has folded in.
-/

namespace Kyria.Cluster

open Kyria.Lib.Cursor Kyria.Lib.Maxima Kyria.Lib.Causal Kyria.Lib.Runs
open Kyria.Vclock Kyria.Version Kyria.Store Kyria.Replica Kyria.Protocol Kyria.Coordinator

variable {σ : Type} {cfg : Config σ} {s s' : State σ} {a : Action}

/-- The step takes the sibling set of node `n` away. -/
def Drops (cfg : Config σ) (s : State σ) (a : Action) (n : Bytes) : Prop :=
  ∃ s', step cfg s a = some s' ∧ s.sets cfg n ≠ [] ∧ s'.sets cfg n = []

/-- The step increments a counter that has reached its last value. -/
def Overflows (cfg : Config σ) (s : State σ) (a : Action) : Prop :=
  ∃ n, a.minter = some n ∧ 2 ^ 64 ≤ counter (frontier (s.sets cfg n)) n + 1

/-- Neither an eviction nor a sweep drops the key, and no counter overflows. -/
structure Plain (cfg : Config σ) (s : State σ) (a : Action) : Prop where
  keeps : ∀ n, ¬ Drops cfg s a n
  fresh : ¬ Overflows cfg s a

lemma Effect.fresh {n : Bytes} {v : Version} (h : Effect cfg s s' (.mint n v))
    (hm : a.minter = some n) (ho : ¬ Overflows cfg s a) : Fresh clk ((abs cfg s).sets n) n v := by
  cases h with
  | mint hclock =>
    refine fresh_increment hclock ?_
    by_contra hlt
    exact ho ⟨n, hm, not_lt.mp hlt⟩

lemma Effect.drops {n : Bytes} (h : Effect cfg s s' (.remove n)) (hstep : step cfg s a = some s') :
    Drops cfg s a n := by
  cases h with
  | remove had hsets => exact ⟨s', hstep, had, by rw [hsets, Function.update_self]⟩

lemma not_drops (hs : Sound cfg s) (ha : a.mayDrop = false) (n : Bytes) : ¬ Drops cfg s a n := by
  rintro ⟨s', hstep, hne, hnil⟩
  obtain ⟨l, htakes, -, -, hdrop⟩ := step_takes hs hstep
  obtain ⟨w, hw⟩ := List.exists_mem_of_ne_nil _ hne
  have hcov : Covers clk (s'.sets cfg n) (clk w) := htakes.covers
    (fun he => by simp [hdrop n he] at ha) (.of_mem hw)
  obtain ⟨u, hu, -⟩ := hcov
  simp [hnil] at hu

/-- The invariant of the general model holds along the run. -/
structure Agreed (cfg : Config σ) (s : State σ) : Prop where
  sound : Sound cfg s
  inv : Inv clk (abs cfg s)

lemma agreed_init (cfg : Config σ) : Agreed cfg (init cfg) := by
  have hsets : ∀ n, (abs cfg (init cfg)).sets n = [] := fun n => by
    refine siblings_of_blob_eq_nil (blob_of_none ?_)
    simp [init, cfg.empty]
  have hpool : pool cfg (init cfg) = ∅ := by
    refine Set.subset_empty_iff.mp (Carried.pool_subset ⟨?_, ?_, ?_, ?_⟩) <;>
      simp [init, Handoff.HintStore.parked]
  refine ⟨sound_init cfg, ⟨?_, ?_, ?_, ?_, ?_, ?_⟩⟩
  · rintro v (hv | ⟨n, hv⟩)
    · exact absurd hv (by simp [abs, hpool])
    · exact absurd hv (by simp [hsets])
  · intro n v hv
    exact absurd hv (by simp [abs, init, State.folded])
  · intro n v hv
    exact absurd hv (by simp [abs, init, State.minted])
  · intro n
    rw [hsets]
    have : (abs cfg (init cfg)).folded n = ∅ := by simp [abs, init, State.folded]
    rw [this]
    exact .nil
  · intro n m v hv
    exact absurd hv (by simp [abs, init, State.minted])
  · intro p hp
    exact absurd hp (by simp [abs, init, State.minted])

lemma Agreed.step (h : Agreed cfg s) (hok : Plain cfg s a) (hstep : step cfg s a = some s') :
    Agreed cfg s' := by
  obtain ⟨l, htakes, heff, hmint, -⟩ := step_takes h.sound hstep
  refine ⟨step_sound h.sound hstep, ?_⟩
  cases l with
  | mint n v => exact h.inv.mint htakes (heff.fresh (hmint n v rfl) hok.fresh)
  | fold n vs => exact h.inv.fold htakes
  | remove n => exact absurd (heff.drops hstep) (hok.keeps n)

lemma agreed_of_steps (h : Steps (step cfg) (Plain cfg) (init cfg) s) : Agreed cfg s :=
  h.invariant (agreed_init cfg) fun _ _ _ hI hok hstep => hI.step hok hstep

/-! ### The test for side conditions on concrete runs -/

def plainCheck (cfg : Config σ) (s : State σ) (a : Action) : Bool :=
  !a.mayDrop && match a.minter with
    | none => true
    | some n => counter (frontier (s.sets cfg n)) n + 1 < 2 ^ 64

lemma plain_of_check (hs : Sound cfg s) (h : plainCheck cfg s a = true) : Plain cfg s a := by
  simp only [plainCheck, Bool.and_eq_true, Bool.not_eq_true'] at h
  refine ⟨not_drops hs h.1, ?_⟩
  rintro ⟨n, hn, hle⟩
  rw [hn] at h
  exact absurd (of_decide_eq_true h.2) (not_lt.mpr hle)

lemma steps_of_check {t : State σ} {as : List Action} (hs : Sound cfg s)
    (h : exec (step cfg) (plainCheck cfg) s as = some t) : Steps (step cfg) (Plain cfg) s t :=
  .of_exec h hs (fun _ _ _ hs hstep => step_sound hs hstep) fun _ _ hs hc => plain_of_check hs hc

/-- Two nodes that hold every key, and wait for each other. -/
def pair : Config Unit where
  nodes := [ascii "a", ascii "b"]
  key := ascii "k"
  n := 2
  r := 2
  w := 2
  grace := 0
  blank := { state := () }
  ids := by decide
  empty := rfl
  limit := by decide

def first : Version := { value := ascii "1", clock := Clock.increment ∅ (ascii "a") }
def second : Version := { value := ascii "2", clock := Clock.increment ∅ (ascii "b") }

lemma exists_crossing : ∃ s, Steps (step pair) (Plain pair) (init pair) s ∧
    s.minted = [(ascii "a", first), (ascii "b", second)] ∧
    s.folded (ascii "a") = [first, second] ∧ s.folded (ascii "b") = [second, first, first] := by
  have hrun : (exec (step pair) (plainCheck pair) (init pair)
      [.write (ascii "a") (ascii "1") pair.nodes default default,
        .write (ascii "b") (ascii "2") pair.nodes default default,
        .deliver 0 default, .deliver 0 default, .deliver 1 default]).map
      (fun s => (s.minted, s.folded (ascii "a"), s.folded (ascii "b"))) =
        some ([(ascii "a", first), (ascii "b", second)], [first, second],
          [second, first, first]) := by decide
  obtain ⟨s, hs, hfacts⟩ := Option.map_eq_some_iff.mp hrun
  simp only [Prod.mk.injEq] at hfacts
  exact ⟨s, steps_of_check (sound_init pair) hs, hfacts⟩

/-! ### The results -/

/-- **No coordinated write is lost.** A minted version stays covered at its minter and at every
node that has folded it in, and stays there itself until something minted supersedes it. -/
theorem minted_version_kept (h : Steps (step cfg) (Plain cfg) (init cfg) s) {n m : Bytes}
    {v : Version} (hv : (n, v) ∈ s.minted) (hm : m = n ∨ v ∈ s.folded m) :
    (∃ w ∈ s.sets cfg m, Clock.compare w.clock v.clock = .after ∨
      Clock.compare w.clock v.clock = .equal) ∧
    ((∀ p ∈ s.minted, Clock.compare v.clock p.2.clock ≠ .before) → v ∈ s.sets cfg m) := by
  have hinv := (agreed_of_steps h).inv
  have hfold : v ∈ (abs cfg s).folded m := by
    rcases hm with rfl | hm
    · exact hinv.origin m v hv
    · exact hm
  constructor
  · obtain ⟨w, hw, hle⟩ := (hinv.maxima m).covers v hfold
    exact ⟨w, hw, (compare_eq_after_or_equal_iff w v).mpr hle⟩
  · intro hmax
    refine hinv.kept hfold fun k w hw hlt => ?_
    exact hmax (k, w) hw ((compare_eq_before_iff v w).mpr hlt)

/-- Concurrent writes stay side by side on both nodes. -/
theorem minted_version_kept_crossing :
    ∃ s, Steps (step pair) (Plain pair) (init pair) s ∧ first ∈ s.sets pair (ascii "b") ∧
      second ∈ s.sets pair (ascii "b") := by
  obtain ⟨s, hs, hm, -, hb⟩ := exists_crossing
  have hmax : ∀ v ∈ [first, second], ∀ p ∈ s.minted,
      Clock.compare v.clock p.2.clock ≠ .before := by
    rw [hm]
    decide
  refine ⟨s, hs, ?_, ?_⟩
  · exact (minted_version_kept hs (n := ascii "a") (by simp [hm]) (.inr (by simp [hb]))).2
      (hmax first (by simp))
  · exact (minted_version_kept hs (n := ascii "b") (by simp [hm]) (.inl rfl)).2
      (hmax second (by simp))

/-- **Strong eventual consistency.** Nodes that have folded in the same versions, in whatever
order and however often, hold equal sibling sets with the same live values. -/
theorem same_folds_equal_siblings (h : Steps (step cfg) (Plain cfg) (init cfg) s) {n m : Bytes}
    (hf : ∀ v, v ∈ s.folded n ↔ v ∈ s.folded m) :
    equal (s.sets cfg n) (s.sets cfg m) = true ∧ equal (s.sets cfg m) (s.sets cfg n) = true ∧
    ((live (s.sets cfg n)).map Version.value).Perm ((live (s.sets cfg m)).map Version.value) := by
  have hperm : (s.sets cfg n).Perm (s.sets cfg m) :=
    (agreed_of_steps h).inv.agree (Set.ext fun v => hf v)
  exact ⟨equal_of_perm hperm, equal_of_perm hperm.symm, (hperm.filter _).map _⟩

theorem same_folds_equal_siblings_crossing :
    ∃ s, Steps (step pair) (Plain pair) (init pair) s ∧
      equal (s.sets pair (ascii "a")) (s.sets pair (ascii "b")) = true := by
  obtain ⟨s, hs, -, ha, hb⟩ := exists_crossing
  refine ⟨s, hs, (same_folds_equal_siblings hs fun v => ?_).1⟩
  rw [ha, hb]
  simp only [List.mem_cons, List.not_mem_nil, or_false]
  tauto

end Kyria.Cluster
