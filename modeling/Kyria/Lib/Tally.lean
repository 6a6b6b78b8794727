import Mathlib

/-!
Tallies over a list of threads.

Each thread of a list is at some point of its program and counts for `f` of that point; the
tally is the sum. A thread moves by `set`, a new one comes in at the end. What one move does to
a tally is an equation without subtraction, so that `omega` can go on from it.
-/

namespace Kyria.Lib.Tally

variable {α : Type*} (f : α → ℕ)

/-- What the members of a list count for, together. -/
def tally (l : List α) : ℕ := (l.map f).sum

variable {f} {l : List α} {x y : α} {i : ℕ}

@[simp] lemma tally_nil : tally f [] = 0 := rfl

@[simp] lemma tally_cons : tally f (x :: l) = f x + tally f l := by
  simp [tally]

@[simp] lemma tally_append {l' : List α} : tally f (l ++ l') = tally f l + tally f l' := by
  simp [tally]

lemma tally_set (h : l[i]? = some x) : tally f (l.set i y) + f x = tally f l + f y := by
  induction l generalizing i with
  | nil => simp at h
  | cons z l ih =>
    cases i with
    | zero =>
      simp only [List.getElem?_cons_zero, Option.some.injEq] at h
      simp only [List.set_cons_zero, tally_cons, h]
      omega
    | succ i =>
      have := ih (i := i) (by simpa using h)
      simp only [List.set_cons_succ, tally_cons]
      omega

lemma le_tally (h : l[i]? = some x) : f x ≤ tally f l := by
  have hmem : x ∈ l := List.mem_of_getElem? h
  exact List.single_le_sum (by simp) _ (List.mem_map_of_mem hmem)

lemma tally_le_tally {g : α → ℕ} (h : ∀ x ∈ l, f x ≤ g x) : tally f l ≤ tally g l :=
  List.sum_le_sum h

lemma tally_sum {ι : Type*} (K : Finset ι) (f : ι → α → ℕ) (l : List α) :
    tally (fun x => ∑ k ∈ K, f k x) l = ∑ k ∈ K, tally (f k) l := by
  induction l with
  | nil => simp
  | cons x l ih => simp only [tally_cons, ih, Finset.sum_add_distrib]

/-! ### Counting by keys -/

lemma countP_le_sum {ι : Type*} [DecidableEq ι] (key : α → ι) {K : Finset ι} {p : α → Bool}
    (h : ∀ x ∈ l, p x → key x ∈ K) : l.countP p ≤ ∑ k ∈ K, l.countP (key · = k) := by
  induction l with
  | nil => simp
  | cons x l ih =>
    have hl := ih fun y hy => h y (List.mem_cons_of_mem x hy)
    simp only [List.countP_cons, Finset.sum_add_distrib, decide_eq_true_eq]
    refine Nat.add_le_add hl ?_
    split
    · rename_i hx
      rw [Finset.sum_ite_eq, if_pos (h x List.mem_cons_self hx)]
    · exact Nat.zero_le _

lemma card_places (p : α → Bool) (l : List α) :
    {k ∈ Finset.range l.length | l[k]?.any p}.card = l.countP p := by
  induction l using List.reverseRecOn with
  | nil => simp
  | append_singleton l x ih =>
    have hold : {k ∈ Finset.range l.length | (l ++ [x])[k]?.any p} =
        {k ∈ Finset.range l.length | l[k]?.any p} := by
      refine Finset.filter_congr fun k hk => ?_
      rw [List.getElem?_append_left (Finset.mem_range.mp hk)]
    rw [List.length_append, List.length_singleton, Finset.range_add_one, Finset.filter_insert,
      hold, List.countP_append, List.countP_singleton]
    by_cases hx : p x <;> simp [hx, ih]

end Kyria.Lib.Tally
