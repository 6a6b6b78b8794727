import Mathlib

/-!
Counting occurrences of keys in counters that keys share.

Every key has a list of cells. An occurrence of the key raises the counters in its cells, up
to a limit, and after so many occurrences all counters are halved. Where every key has a cell
to itself, its counter is its own count; a tally with shared cells never falls below that.
-/

namespace Kyria.Lib.CountMin

variable {K I : Type*} [DecidableEq K] [DecidableEq I]

/-- Counters, and the number of occurrences since they were last halved. -/
structure Tally (I : Type*) where
  counts : I → ℕ
  size : ℕ

/-- One more in every cell of the list, up to the limit. -/
def raise (limit : ℕ) (is : List I) (counts : I → ℕ) : I → ℕ :=
  fun i => if i ∈ is then min limit (counts i + 1) else counts i

def halve (counts : I → ℕ) : I → ℕ := fun i => counts i / 2

def Tally.add (limit period : ℕ) (cells : K → List I) (t : Tally I) (k : K) : Tally I :=
  if t.size + 1 ≥ period then ⟨halve (raise limit (cells k) t.counts), 0⟩
  else ⟨raise limit (cells k) t.counts, t.size + 1⟩

/-- The tally of a sequence of occurrences. -/
def tally (limit period : ℕ) (cells : K → List I) (ks : List K) : Tally I :=
  ks.foldl (Tally.add limit period cells) ⟨fun _ => 0, 0⟩

/-- Every key has a cell of its own. -/
def ownTally (limit period : ℕ) (ks : List K) : Tally K := tally limit period (fun k => [k]) ks

omit [DecidableEq K] in
lemma tally_snoc (limit period : ℕ) (cells : K → List I) (ks : List K) (k : K) :
    tally limit period cells (ks ++ [k]) =
      (tally limit period cells ks).add limit period cells k := by
  simp [tally]

variable {limit period : ℕ} {cells : K → List I}

lemma raise_le {is : List I} {counts : I → ℕ} (h : ∀ i, counts i ≤ limit) (i : I) :
    raise limit is counts i ≤ limit := by
  unfold raise
  split_ifs
  · exact min_le_left _ _
  · exact h i

lemma le_raise {is : List I} {counts : I → ℕ} (h : ∀ i, counts i ≤ limit) (i : I) :
    counts i ≤ raise limit is counts i := by
  unfold raise
  split_ifs
  · exact le_min (h i) (Nat.le_succ _)
  · exact le_rfl

omit [DecidableEq K] in
lemma counts_tally_le (ks : List K) (i : I) : (tally limit period cells ks).counts i ≤ limit := by
  induction ks using List.reverseRecOn generalizing i with
  | nil => exact Nat.zero_le limit
  | append_singleton ks k ih =>
    rw [tally_snoc, Tally.add]
    split_ifs
    · exact (Nat.div_le_self _ 2).trans (raise_le ih i)
    · exact raise_le ih i

omit [DecidableEq K] in
/-- **The counters are halved at every `period`-th occurrence.** -/
lemma size_tally (hperiod : 0 < period) (ks : List K) :
    (tally limit period cells ks).size = ks.length % period := by
  induction ks using List.reverseRecOn with
  | nil => exact (Nat.zero_mod period).symm
  | append_singleton ks k ih =>
    have hlt : ks.length % period < period := Nat.mod_lt _ hperiod
    have hnext : (ks ++ [k]).length % period = (ks.length % period + 1) % period := by
      rw [List.length_append, List.length_singleton, Nat.mod_add_mod]
    rw [tally_snoc, Tally.add, hnext, ih]
    split_ifs with hfull
    · have hlast : ks.length % period + 1 = period := by omega
      simp only [hlast, Nat.mod_self]
    · have hkeep : (ks.length % period + 1) % period = ks.length % period + 1 :=
        Nat.mod_eq_of_lt (by omega)
      exact hkeep.symm

/-- **A key is never counted below its own count**, in any of its cells. -/
theorem ownTally_le (ks : List K) (k : K) {i : I} (hi : i ∈ cells k) :
    (ownTally limit period ks).counts k ≤ (tally limit period cells ks).counts i := by
  have hsize : ∀ ks : List K,
      (ownTally limit period ks).size = (tally limit period cells ks).size := by
    intro ks
    induction ks using List.reverseRecOn with
    | nil => rfl
    | append_singleton ks x ih =>
      rw [ownTally, tally_snoc, tally_snoc, Tally.add, Tally.add, ← ownTally, ih]
      split_ifs <;> rfl
  induction ks using List.reverseRecOn generalizing k i with
  | nil => exact le_rfl
  | append_singleton ks x ih =>
    have hraise : raise limit [x] (ownTally limit period ks).counts k ≤
        raise limit (cells x) (tally limit period cells ks).counts i := by
      by_cases hk : k = x
      · subst hk
        have hle := ih k hi
        simp only [raise, List.mem_singleton, if_true, if_pos hi]
        omega
      · have hsame : raise limit [x] (ownTally limit period ks).counts k =
            (ownTally limit period ks).counts k := by
          simp [raise, hk]
        rw [hsame]
        exact (ih k hi).trans (le_raise (counts_tally_le ks) i)
    rw [ownTally, tally_snoc, tally_snoc, Tally.add, Tally.add, ← ownTally, hsize ks]
    split_ifs
    · exact Nat.div_le_div_right hraise
    · exact hraise

end Kyria.Lib.CountMin
