import Kyria.Vclock
import Kyria.Lib.Causal

/-!
Versions of a key and their sibling sets (`internal/version`).

`Reconcile` folds one version into a sibling set; it is `absorb` for the pointwise order of
the clocks, so that the general facts about causal maxima apply to it.
-/

namespace Kyria

open Kyria.Lib.Cursor Kyria.Lib.Maxima Kyria.Lib.Causal Kyria.Vclock

/-- `deletedAt` is the unix time of a tombstone, zero for a live version. -/
structure Version where
  value : Bytes
  clock : Clock
  deleted : Bool := false
  deletedAt : Int64 := 0
  deriving DecidableEq

namespace Version

def reconcile (existing : List Version) (incoming : Version) : List Version :=
  let (result, covered) := existing.foldl (fun (result, covered) v =>
    match Clock.compare v.clock incoming.clock with
    | .after | .equal => (result ++ [v], true)
    | .concurrent => (result ++ [v], covered)
    | .before => (result, covered)) ([], false)
  if covered then result else result ++ [incoming]

def frontier (versions : List Version) : Clock :=
  versions.foldl (fun merged v => Clock.merge v.clock merged) ∅

def tombstone (clock : Clock) (deletedAt : Int64) : Version :=
  { value := [], clock, deleted := true, deletedAt }

def live (versions : List Version) : List Version := versions.filter fun v => !v.deleted

/-- One version of a sibling set counts as another for `equal`: `deletedAt` is not compared. -/
def same (va vb : Version) : Bool :=
  va.value == vb.value && Clock.compare va.clock vb.clock == .equal && va.deleted == vb.deleted

def equal (a b : List Version) : Bool :=
  if a.length ≠ b.length then false
  else a.all fun va => b.any fun vb => same va vb

/-- The clock of a version as a function, by which versions are ordered. -/
def clk (v : Version) : Bytes → ℕ := counter v.clock

/-! ### The fold of one version -/

lemma reconcile_loop (S : List Version) (x : Version) (r : List Version) (c : Bool) :
    S.foldl (fun (result, covered) v =>
      match Clock.compare v.clock x.clock with
      | .after | .equal => (result ++ [v], true)
      | .concurrent => (result ++ [v], covered)
      | .before => (result, covered)) (r, c)
    = (r ++ S.filter (fun v => Clock.compare v.clock x.clock ≠ .before),
        c || S.any fun v => Clock.compare v.clock x.clock = .after ∨
          Clock.compare v.clock x.clock = .equal) := by
  induction S generalizing r c with
  | nil => simp
  | cons v S ih =>
    rw [List.foldl_cons]
    rcases h : Clock.compare v.clock x.clock <;> rw [ih] <;> simp [h]

lemma compare_eq_before_iff (v w : Version) :
    Clock.compare v.clock w.clock = .before ↔ clk v < clk w := Clock.compare_eq_before_iff

lemma compare_eq_after_iff (v w : Version) :
    Clock.compare v.clock w.clock = .after ↔ clk w < clk v := Clock.compare_eq_after_iff

lemma compare_eq_equal_iff (v w : Version) :
    Clock.compare v.clock w.clock = .equal ↔ clk v = clk w := Clock.compare_eq_equal_iff

lemma compare_eq_after_or_equal_iff (v w : Version) :
    (Clock.compare v.clock w.clock = .after ∨ Clock.compare v.clock w.clock = .equal) ↔
      clk w ≤ clk v := by
  rw [compare_eq_after_iff, compare_eq_equal_iff, le_iff_lt_or_eq, eq_comm]

lemma compare_eq_concurrent_iff (v w : Version) :
    Clock.compare v.clock w.clock = .concurrent ↔ ¬ clk v ≤ clk w ∧ ¬ clk w ≤ clk v :=
  Clock.compare_eq_concurrent_iff

/-- **`Reconcile` keeps causal maxima**: it is `absorb` for the order of the clocks. -/
theorem reconcile_eq_absorb (S : List Version) (x : Version) :
    reconcile S x = absorb clk S x := by
  classical
  have hf : S.filter (fun v => Clock.compare v.clock x.clock ≠ .before)
      = S.filter fun v => ¬ clk v < clk x := by
    refine List.filter_congr fun v _ => ?_
    simp [compare_eq_before_iff]
  have hc : (S.any fun v => Clock.compare v.clock x.clock = .after ∨
      Clock.compare v.clock x.clock = .equal) = true ↔ Covers clk S (clk x) := by
    simp only [List.any_eq_true, decide_eq_true_eq, compare_eq_after_or_equal_iff]
    rfl
  unfold reconcile absorb
  rw [reconcile_loop, hf]
  simp only [List.nil_append, Bool.false_or]
  by_cases h : Covers clk S (clk x)
  · rw [hc.mpr h, if_pos rfl, if_pos h, List.append_nil]
  · rw [if_neg h, if_neg (by rw [hc]; exact h)]

lemma reconcile_eq : reconcile = absorb clk := by
  funext S x
  exact reconcile_eq_absorb S x

lemma compare_self (v : Version) : Clock.compare v.clock v.clock = .equal :=
  (compare_eq_equal_iff v v).mpr rfl

/-! ### The frontier and the clock minted on it -/

lemma counter_frontier_le {vs : List Version} {m : Bytes} {b : ℕ} :
    counter (frontier vs) m ≤ b ↔ ∀ v ∈ vs, clk v m ≤ b := by
  have h : ∀ (l : List Version) (c : Clock),
      counter (l.foldl (fun merged v => Clock.merge v.clock merged) c) m ≤ b ↔
        counter c m ≤ b ∧ ∀ v ∈ l, clk v m ≤ b := by
    intro l
    induction l with
    | nil => simp
    | cons v l ih =>
      intro c
      rw [List.foldl_cons, ih, counter_merge, max_le_iff]
      simp only [List.mem_cons, forall_eq_or_imp, clk]
      tauto
  unfold frontier
  rw [h]
  simp

lemma le_counter_frontier {vs : List Version} {v : Version} (h : v ∈ vs) (m : Bytes) :
    clk v m ≤ counter (frontier vs) m := counter_frontier_le.mp le_rfl v h

lemma counter_frontier_mem (vs : List Version) (m : Bytes) :
    counter (frontier vs) m = 0 ∨ ∃ v ∈ vs, counter (frontier vs) m ≤ clk v m := by
  by_contra hcon
  push Not at hcon
  obtain ⟨h0, hlt⟩ := hcon
  have hle : counter (frontier vs) m ≤ counter (frontier vs) m - 1 :=
    counter_frontier_le.mpr fun v hv => by have := hlt v hv; omega
  omega

/-- **The frontier is the join** of the clocks of all versions. -/
lemma isLUB_frontier (vs : List Version) :
    IsLUB {c | ∃ v ∈ vs, v.clock = c} (frontier vs) := by
  constructor
  · rintro _ ⟨v, hv, rfl⟩
    exact Clock.le_iff.mpr fun m => le_counter_frontier hv m
  · intro u hu
    rw [Clock.le_iff]
    exact fun m => counter_frontier_le.mpr fun v hv => Clock.le_iff.mp (hu ⟨v, hv, rfl⟩) m

lemma counter_frontier_perm {vs ws : List Version} (h : ws.Perm vs) :
    counter (frontier ws) = counter (frontier vs) := by
  funext m
  refine eq_of_forall_ge_iff fun b => ?_
  rw [counter_frontier_le, counter_frontier_le]
  exact forall_congr' fun v => imp_congr_left h.mem_iff

/-- **The minted clock is fresh**: short of an overflow, incrementing one's own counter on
the frontier gives a clock above all siblings, with a counter no sibling has. -/
theorem fresh_increment {vs : List Version} {n : Bytes} {v : Version}
    (hv : v.clock = Clock.increment (frontier vs) n)
    (hlt : counter (frontier vs) n + 1 < 2 ^ 64) : Fresh clk vs n v := by
  have hself : clk v n = counter (frontier vs) n + 1 := by
    unfold clk
    rw [hv, counter_increment, if_pos rfl, Nat.mod_eq_of_lt hlt]
  have hother : ∀ m, m ≠ n → clk v m = counter (frontier vs) m := by
    intro m hm
    unfold clk
    rw [hv, counter_increment, if_neg (Ne.symm hm)]
  have hup : counter (frontier vs) ≤ clk v := by
    unfold clk
    rw [hv]
    exact (lt_increment (by omega)).le
  refine ⟨fun w hw m => (le_counter_frontier hw m).trans (hup m), fun w hw => ?_, by omega,
    fun m hm => ?_⟩
  · have hle := le_counter_frontier hw n
    omega
  · rw [hother m hm]
    exact counter_frontier_mem vs m

lemma mem_of_mem_frontier {vs : List Version} {n : Bytes} (h : n ∈ frontier vs) :
    ∃ v ∈ vs, n ∈ v.clock := by
  have hfold : ∀ (l : List Version) (c : Clock),
      n ∈ l.foldl (fun merged v => Clock.merge v.clock merged) c →
        n ∈ c ∨ ∃ v ∈ l, n ∈ v.clock := by
    intro l
    induction l with
    | nil => exact fun c hc => .inl hc
    | cons v l ih =>
      intro c hc
      rcases ih _ hc with hc | ⟨w, hw, hn⟩
      · rcases mem_of_mem_merge hc with hv | hc
        · exact .inr ⟨v, by simp, hv⟩
        · exact .inl hc
      · exact .inr ⟨w, by simp [hw], hn⟩
  simpa using hfold vs ∅ h

lemma size_frontier_le (vs : List Version) :
    (frontier vs).size ≤ (vs.map fun v => v.clock.size).sum := by
  have h : ∀ (l : List Version) (c : Clock),
      (l.foldl (fun merged v => Clock.merge v.clock merged) c).size
        ≤ c.size + (l.map fun v => v.clock.size).sum := by
    intro l
    induction l with
    | nil => simp
    | cons v l ih =>
      intro c
      have hmerge := size_merge_le v.clock c
      have hrest := ih (Clock.merge v.clock c)
      rw [List.foldl_cons, List.map_cons, List.sum_cons]
      omega
  simpa [frontier] using h vs ∅

/-! ### Clocks as a semilattice -/

/-- **Clocks are a join-semilattice under `Compare`**, up to `Equal`. It says how the counters of
two clocks compare, node by node; `Before` or `Equal` is a preorder, with `Equal` for its
equivalence. `Merge` is the least upper bound of two clocks and the frontier that of any number of
them, in whatever order. An increment that does not wrap around is strictly after. -/
theorem clocks_form_semilattice (a b : Clock) :
    ((Clock.compare a b = .equal ↔ ∀ n, counter a n = counter b n) ∧
      (Clock.compare a b = .before ↔
        (∀ n, counter a n ≤ counter b n) ∧ ∃ n, counter a n < counter b n) ∧
      (Clock.compare a b = .after ↔
        (∀ n, counter b n ≤ counter a n) ∧ ∃ n, counter b n < counter a n) ∧
      (Clock.compare a b = .concurrent ↔
        (∃ n, counter a n < counter b n) ∧ ∃ n, counter b n < counter a n)) ∧
    (Clock.compare a b = .before ↔ Clock.compare b a = .after) ∧
    ((a ≤ b ↔ Clock.compare a b = .before ∨ Clock.compare a b = .equal) ∧
      IsPreorder Clock (· ≤ ·) ∧ (AntisymmRel (· ≤ ·) a b ↔ Clock.compare a b = .equal)) ∧
    (IsLUB {a, b} (Clock.merge a b) ∧
      Clock.compare (Clock.merge a b) (Clock.merge b a) = .equal ∧
      (∀ c, Clock.compare (Clock.merge (Clock.merge a b) c) (Clock.merge a (Clock.merge b c)) =
        .equal) ∧
      Clock.compare (Clock.merge a a) a = .equal) ∧
    (∀ vs : List Version, IsLUB {c | ∃ v ∈ vs, v.clock = c} (frontier vs) ∧
      ∀ ws, ws.Perm vs → Clock.compare (frontier ws) (frontier vs) = .equal) ∧
    ∀ n, counter a n < 2 ^ 64 - 1 → Clock.compare (Clock.increment a n) a = .after := by
  refine ⟨⟨?_, ?_, ?_, ?_⟩, ?_, ⟨Iff.rfl, inferInstance, Clock.antisymmRel_iff⟩,
    ⟨isLUB_merge a b, ?_, fun c => ?_, ?_⟩, fun vs => ⟨isLUB_frontier vs, fun ws hperm => ?_⟩,
    fun n hn => ?_⟩
  · rw [Clock.compare_eq_equal_iff, funext_iff]
  · rw [Clock.compare_eq_before_iff, Pi.lt_def]
    rfl
  · rw [Clock.compare_eq_after_iff, Pi.lt_def]
    rfl
  · rw [Clock.compare_eq_concurrent_iff, Pi.le_def, Pi.le_def, and_comm]
    simp only [not_forall, not_le]
  · rw [Clock.compare_eq_before_iff, Clock.compare_eq_after_iff]
  · rw [Clock.compare_eq_equal_iff, counter_merge_eq_sup, counter_merge_eq_sup, sup_comm]
  · rw [Clock.compare_eq_equal_iff]
    simp only [counter_merge_eq_sup, sup_assoc]
  · rw [Clock.compare_eq_equal_iff, counter_merge_eq_sup, sup_idem]
  · exact Clock.compare_eq_equal_iff.mpr (counter_frontier_perm hperm)
  · exact Clock.compare_eq_after_iff.mpr (lt_increment hn)

/-- An entry that is zero does not count, and can be incremented. -/
theorem clocks_form_semilattice_of_zero :
    let a : Clock := (∅ : Clock).insert [1] 0
    let b : Clock := (∅ : Clock).insert [2] 1
    a ≠ ∅ ∧ Clock.compare a ∅ = .equal ∧ IsLUB {a, b} (Clock.merge a b) ∧
      Clock.compare (Clock.increment a [1]) a = .after := by
  intro a b
  have hsemi := clocks_form_semilattice a b
  have hzero : counter a [1] < 2 ^ 64 - 1 := by decide
  exact ⟨by decide, by decide, hsemi.2.2.2.1.1, hsemi.2.2.2.2.2 [1] hzero⟩

/-! ### Equality of sibling sets -/

lemma same_self (v : Version) : same v v = true := by simp [same, compare_self]

lemma equal_of_perm {a b : List Version} (h : a.Perm b) : equal a b = true := by
  unfold equal
  simp only [h.length_eq, ne_eq, not_true_eq_false, if_false, List.all_eq_true, List.any_eq_true]
  exact fun v hv => ⟨v, h.mem_iff.mp hv, same_self v⟩

/-! ### Folding whole sets -/

/-- The versions of a sibling set are pairwise concurrent. -/
def Siblings (S : List Version) : Prop :=
  S.Pairwise fun v w => Clock.compare v.clock w.clock = .concurrent

instance (S : List Version) : Decidable (Siblings S) :=
  inferInstanceAs (Decidable (S.Pairwise _))

/-- Equal clocks imply equal versions. -/
def Determined (vs : List Version) : Prop :=
  ∀ v ∈ vs, ∀ w ∈ vs, Clock.compare v.clock w.clock = .equal → v = w

/-- The set `T` holds the causal maxima of the versions `vs`. -/
structure CausalMaxima (vs T : List Version) : Prop where
  siblings : Siblings T
  covered : ∀ v ∈ vs, ∃ w ∈ T,
    Clock.compare w.clock v.clock = .after ∨ Clock.compare w.clock v.clock = .equal
  maximal : ∀ v ∈ T, v ∈ vs ∧ ∀ w ∈ vs, Clock.compare w.clock v.clock ≠ .after
  once : ∀ v ∈ vs, (∀ w ∈ vs, Clock.compare w.clock v.clock ≠ .after) →
    (T.filter fun w => Clock.compare w.clock v.clock = .equal).length = 1

lemma siblings_iff_antichain (S : List Version) : Siblings S ↔ Antichain clk S :=
  List.Pairwise.iff compare_eq_concurrent_iff

lemma injOn_of_determined {vs : List Version} (h : Determined vs) :
    Set.InjOn clk {v | v ∈ vs} :=
  fun v hv w hw hvw => h v hv w hw ((compare_eq_equal_iff v w).mpr hvw)

lemma causalMaxima_of_isMaxima {vs T : List Version} (h : IsMaxima clk T {v | v ∈ vs}) :
    CausalMaxima vs T where
  siblings := (siblings_iff_antichain T).mpr h.antichain
  covered v hv := by
    obtain ⟨w, hw, hle⟩ := h.covers v hv
    exact ⟨w, hw, (compare_eq_after_or_equal_iff w v).mpr hle⟩
  maximal v hv := by
    refine ⟨h.sub v hv, fun w hw hafter => ?_⟩
    exact h.not_lt hv hw ((compare_eq_after_iff w v).mp hafter)
  once v hv hmax := by
    have hlt : ∀ w ∈ {v | v ∈ vs}, ¬ clk v < clk w := fun w hw hlt =>
      hmax w hw ((compare_eq_after_iff w v).mpr hlt)
    obtain ⟨u, ⟨hu, heq⟩, hunique⟩ := h.existsUnique hv hlt
    have hperm : (T.filter fun w => Clock.compare w.clock v.clock = .equal).Perm [u] := by
      refine (List.perm_ext_iff_of_nodup (h.antichain.nodup.filter _) (by simp)).mpr fun w => ?_
      simp only [List.mem_filter, decide_eq_true_eq, compare_eq_equal_iff, List.mem_singleton]
      constructor
      · exact fun hw => hunique w hw
      · rintro rfl
        exact ⟨hu, heq⟩
    exact hperm.length_eq

lemma isMaxima_foldl {S : List Version} (hS : Siblings S) (L : List Version) :
    IsMaxima clk (L.foldl reconcile S) {v | v ∈ S ++ L} := by
  have h := ((siblings_iff_antichain S).mp hS).isMaxima.foldl L
  rw [reconcile_eq]
  convert h using 1
  ext v
  simp

/-- **Folding `Reconcile` computes the causal maxima** of a sibling set and a list of versions.
Folding the list again changes nothing; and where equal clocks imply equal versions, the set
depends on neither the order nor the multiplicity of the list, nor on which of two sets was folded
into the other. -/
theorem reconcile_computes_maxima {S : List Version} (hS : Siblings S) (L : List Version) :
    CausalMaxima (S ++ L) (L.foldl reconcile S) ∧
      L.foldl reconcile (L.foldl reconcile S) = L.foldl reconcile S ∧
      (L.foldl reconcile S).foldl reconcile (L.foldl reconcile S) = L.foldl reconcile S ∧
      (Determined (S ++ L) →
        (∀ L' : List Version, (∀ v, v ∈ L' ↔ v ∈ L) →
          ∀ v, v ∈ L'.foldl reconcile S ↔ v ∈ L.foldl reconcile S) ∧
        (Siblings L → ∀ v, v ∈ S.foldl reconcile L ↔ v ∈ L.foldl reconcile S)) := by
  have hmax := isMaxima_foldl hS L
  have hidem : ∀ L' : List Version, (∀ v ∈ L', v ∈ S ++ L) →
      L'.foldl reconcile (L.foldl reconcile S) = L.foldl reconcile S := by
    intro L' hL'
    rw [reconcile_eq] at hmax ⊢
    exact hmax.foldl_of_mem hL'
  refine ⟨causalMaxima_of_isMaxima hmax, hidem L fun v hv => List.mem_append_right S hv,
    hidem _ hmax.sub, fun hdet => ⟨fun L' hL' v => ?_, fun hL v => ?_⟩⟩
  · have hset : {v | v ∈ S ++ L'} = {v | v ∈ S ++ L} := by
      ext v
      simp [hL' v]
    exact ((hset ▸ isMaxima_foldl hS L').perm hmax (injOn_of_determined hdet)).mem_iff
  · have hset : {v | v ∈ L ++ S} = {v | v ∈ S ++ L} := by
      ext v
      simp [or_comm]
    exact ((hset ▸ isMaxima_foldl hL S).perm hmax (injOn_of_determined hdet)).mem_iff

/-- A write of one of two siblings' nodes, and an older one. -/
theorem reconcile_computes_maxima_of_two :
    let a : Version := ⟨[1], (∅ : Clock).insert [97] 1, false, 0⟩
    let b : Version := ⟨[2], (∅ : Clock).insert [98] 1, false, 0⟩
    let c : Version := ⟨[3], (∅ : Clock).insert [97] 2, false, 0⟩
    Siblings [a, b] ∧ CausalMaxima ([a, b] ++ [c, a]) ([c, a].foldl reconcile [a, b]) := by
  intro a b c
  have hS : Siblings [a, b] := by decide
  exact ⟨hS, (reconcile_computes_maxima hS [c, a]).1⟩

end Version

end Kyria
