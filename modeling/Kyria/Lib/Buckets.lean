import Mathlib

/-!
Counts of observations between fixed bounds.

Of every observation only the bucket it falls in is kept: the first bound it does not exceed, or the
one past the last bound. For ascending bounds the counts up to a bound say how many observations do
not exceed it, so a walk over the buckets finds the first bound that enough of them do not exceed.
-/

namespace Kyria.Lib.Buckets

variable {α : Type*} [LinearOrder α]

/-- The first bound the observation does not exceed, or the one past the last. -/
def bucket (bounds : List α) (x : α) : ℕ := bounds.findIdx fun b => x ≤ b

/-- How many observations fall in each bucket. -/
def tallies (bounds xs : List α) : List ℕ :=
  (List.range (bounds.length + 1)).map fun i => xs.countP fun x => bucket bounds x = i

/-- The first bound at which the running count passes the test. -/
def walk (reaches : ℕ → Bool) : List α → List ℕ → ℕ → Option α
  | b :: bounds, c :: counts, running =>
    if reaches (running + c) then some b else walk reaches bounds counts (running + c)
  | _, _, _ => none

variable {bounds : List α} {xs : List α} {x b : α} {j : ℕ}

lemma bucket_le_iff (hs : bounds.Pairwise (· < ·)) (hj : j < bounds.length) :
    bucket bounds x ≤ j ↔ x ≤ bounds[j] := by
  constructor
  · intro hle
    have hlt : bucket bounds x < bounds.length := hle.trans_lt hj
    have hx : x ≤ bounds[bucket bounds x] := of_decide_eq_true (List.findIdx_getElem (w := hlt))
    exact hx.trans (hs.sortedLT.monotone (Fin.mk_le_mk.mpr hle : (⟨_, hlt⟩ : Fin _) ≤ ⟨j, hj⟩))
  · intro hx
    by_contra hlt
    exact absurd (List.not_of_lt_findIdx (not_le.mp hlt)) (by simpa using hx)

@[simp] lemma length_tallies : (tallies bounds xs).length = bounds.length + 1 := by
  simp [tallies]

lemma getElem?_tallies (hj : j ≤ bounds.length) :
    (tallies bounds xs)[j]? = some (xs.countP fun x => bucket bounds x = j) := by
  simp [tallies, Nat.lt_succ_of_le hj]

@[simp] lemma tallies_nil : tallies bounds [] = List.replicate (bounds.length + 1) 0 := by
  simp [tallies]

lemma tallies_cons :
    tallies bounds (x :: xs) = (tallies bounds xs).modify (bucket bounds x) (· + 1) := by
  refine List.ext_getElem? fun j => ?_
  rw [List.getElem?_modify]
  by_cases hj : j ≤ bounds.length
  · rw [getElem?_tallies hj, getElem?_tallies hj]
    split_ifs with h <;> simp [h]
  · have hnone : ∀ xs : List α, (tallies bounds xs)[j]? = none := fun xs =>
      List.getElem?_eq_none (by simp; omega)
    rw [hnone, hnone]
    split_ifs <;> rfl

lemma tallies_of_perm (bounds : List α) {xs ys : List α} (h : xs.Perm ys) :
    tallies bounds xs = tallies bounds ys := by
  simp only [tallies, h.countP_eq]

lemma countP_lt_succ (j : ℕ) : xs.countP (fun x => bucket bounds x < j) +
    xs.countP (fun x => bucket bounds x = j) = xs.countP fun x => bucket bounds x < j + 1 := by
  induction xs with
  | nil => rfl
  | cons x xs ih =>
    simp only [List.countP_cons, decide_eq_true_eq]
    split_ifs <;> omega

/-- **The walk finds the first bound that enough observations do not exceed.** -/
theorem walk_tallies (hs : bounds.Pairwise (· < ·)) (reaches : ℕ → Bool) (xs : List α) :
    walk reaches bounds (tallies bounds xs) 0 =
      bounds.find? fun b => reaches (xs.countP fun x => x ≤ b) := by
  -- by induction on the buckets that are left, with what has been added up so far
  have key : ∀ n j, bounds.length - j = n →
      walk reaches (bounds.drop j) ((tallies bounds xs).drop j)
        (xs.countP fun x => bucket bounds x < j) =
      (bounds.drop j).find? fun b => reaches (xs.countP fun x => x ≤ b) := by
    intro n
    induction n with
    | zero =>
      intro j hj
      rw [List.drop_eq_nil_of_le (by omega)]
      rfl
    | succ n ih =>
      intro j hj
      have hlt : j < bounds.length := by omega
      have hlt' : j < (tallies bounds xs).length := by simp; omega
      have hcount : (tallies bounds xs)[j] = xs.countP fun x => bucket bounds x = j :=
        Option.some.inj ((List.getElem?_eq_getElem hlt').symm.trans (getElem?_tallies hlt.le))
      have hsum : (xs.countP fun x => bucket bounds x < j + 1) =
          xs.countP fun x => x ≤ bounds[j] := by
        refine List.countP_congr fun x _ => ?_
        simp only [decide_eq_true_eq, Nat.lt_succ_iff, bucket_le_iff hs hlt]
      rw [List.drop_eq_getElem_cons hlt, List.drop_eq_getElem_cons hlt', walk, hcount,
        countP_lt_succ, ih (j + 1) (by omega), hsum, List.find?_cons]
      split_ifs with h <;> simp [h]
  simpa using key bounds.length 0 rfl

end Kyria.Lib.Buckets
