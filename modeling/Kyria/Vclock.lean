import Kyria.Lib.Cursor

/-!
Vector clocks (`internal/vclock`): a counter for each node, a node not present reading as
zero. Go visits a map in an arbitrary order; the loops here run in the order of the keys,
and their results do not depend on it.
-/

namespace Kyria.Vclock

open Std (ExtTreeMap LawfulEqOrd)
open Kyria.Lib.Cursor

abbrev Clock := ExtTreeMap Bytes UInt64

inductive Order
  | equal | before | after | concurrent
  deriving DecidableEq

/-- The counter wraps around at `2 ^ 64`. -/
def Clock.increment (c : Clock) (node : Bytes) : Clock := c.insert node (c.getD node 0 + 1)

def Clock.merge (c other : Clock) : Clock :=
  other.toList.foldl (fun clock e => clock.insert e.1 (max (clock.getD e.1 0) e.2)) c

def Clock.aheadOf (c other : Clock) : Bool := c.toList.any fun e => other.getD e.1 0 < e.2

def Clock.compare (c other : Clock) : Order :=
  let cAhead := Clock.aheadOf c other
  let otherAhead := Clock.aheadOf other c
  if cAhead && otherAhead then .concurrent
  else if cAhead then .after
  else if otherAhead then .before
  else .equal

/-- What a clock says about a node. Clocks are compared by this function, pointwise. -/
def counter (c : Clock) (n : Bytes) : ℕ := (c.getD n 0).toNat

@[simp] lemma counter_empty (n : Bytes) : counter ∅ n = 0 := by simp [counter]

lemma counter_insert (c : Clock) (n m : Bytes) (x : UInt64) :
    counter (c.insert n x) m = if n = m then x.toNat else counter c m := by
  unfold counter
  rw [ExtTreeMap.getD_insert]
  simp only [LawfulEqOrd.compare_eq_iff_eq]
  split_ifs <;> rfl

lemma mem_toList_iff {a : Clock} {n : Bytes} {x : UInt64} : (n, x) ∈ a.toList ↔ a[n]? = some x :=
  ExtTreeMap.mem_toList_iff_getElem?_eq_some

lemma counter_of_mem {a : Clock} {n : Bytes} {x : UInt64} (h : (n, x) ∈ a.toList) :
    counter a n = x.toNat := by
  unfold counter
  rw [ExtTreeMap.getD_eq_getD_getElem?, mem_toList_iff.mp h, Option.getD_some]

lemma exists_mem_of_counter_pos {a : Clock} {n : Bytes} (h : 0 < counter a n) :
    ∃ x, (n, x) ∈ a.toList ∧ x.toNat = counter a n := by
  rcases hn : a[n]? with _ | x
  · unfold counter at h
    rw [ExtTreeMap.getD_eq_getD_getElem?, hn] at h
    simp at h
  · exact ⟨x, mem_toList_iff.mpr hn, (counter_of_mem (mem_toList_iff.mpr hn)).symm⟩

lemma toNat_max (x y : UInt64) : (max x y).toNat = max x.toNat y.toNat := by
  show (if x ≤ y then y else x).toNat = _
  split_ifs with h
  · rw [max_eq_right (UInt64.le_iff_toNat_le.mp h)]
  · have hlt : y.toNat < x.toNat := by simpa [UInt64.le_iff_toNat_le] using h
    rw [max_eq_left hlt.le]

lemma counter_increment (c : Clock) (n m : Bytes) :
    counter (Clock.increment c n) m
      = if n = m then (counter c n + 1) % 2 ^ 64 else counter c m := by
  unfold Clock.increment
  rw [counter_insert, UInt64.toNat_add]
  rfl

lemma counter_foldl_max_le {l : List (Bytes × UInt64)} {c : Clock} {m : Bytes} {b : ℕ} :
    counter (l.foldl (fun clock e => clock.insert e.1 (max (clock.getD e.1 0) e.2)) c) m ≤ b ↔
      counter c m ≤ b ∧ ∀ e ∈ l, e.1 = m → e.2.toNat ≤ b := by
  induction l generalizing c with
  | nil => simp
  | cons e l ih =>
    have hmax : (max (c.getD e.1 0) e.2).toNat = max (counter c e.1) e.2.toNat := toNat_max _ _
    rw [List.foldl_cons, ih, counter_insert, hmax]
    by_cases he : e.1 = m
    · subst he
      simp [and_assoc]
    · simp [he]

/-- **Merging is the pointwise maximum.** -/
theorem counter_merge (c d : Clock) (m : Bytes) :
    counter (Clock.merge c d) m = max (counter c m) (counter d m) := by
  refine eq_of_forall_ge_iff fun b => ?_
  unfold Clock.merge
  rw [counter_foldl_max_le, max_le_iff]
  refine and_congr_right fun _ => ⟨fun h => ?_, fun h e he hm => ?_⟩
  · rcases Nat.eq_zero_or_pos (counter d m) with h0 | hpos
    · omega
    · obtain ⟨x, hx, hxm⟩ := exists_mem_of_counter_pos hpos
      exact hxm ▸ h (m, x) hx rfl
  · rw [← hm, counter_of_mem (n := e.1) (x := e.2) he] at h
    exact h

lemma size_merge_le (c d : Clock) : (Clock.merge c d).size ≤ c.size + d.size := by
  have h : ∀ (l : List (Bytes × UInt64)) (c : Clock),
      (l.foldl (fun clock e => clock.insert e.1 (max (clock.getD e.1 0) e.2)) c).size
        ≤ c.size + l.length := by
    intro l
    induction l with
    | nil => simp
    | cons e l ih =>
      intro c
      have hins := ExtTreeMap.size_insert_le (t := c) (k := e.1) (v := max (c.getD e.1 0) e.2)
      have hrest := ih (c.insert e.1 (max (c.getD e.1 0) e.2))
      rw [List.foldl_cons, List.length_cons]
      omega
  have := h d.toList c
  rwa [ExtTreeMap.length_toList] at this

lemma mem_of_mem_merge {c d : Clock} {n : Bytes} (h : n ∈ Clock.merge c d) : n ∈ c ∨ n ∈ d := by
  have hfold : ∀ (l : List (Bytes × UInt64)) (c : Clock),
      n ∈ l.foldl (fun clock e => clock.insert e.1 (max (clock.getD e.1 0) e.2)) c →
        n ∈ c ∨ ∃ x, (n, x) ∈ l := by
    intro l
    induction l with
    | nil => exact fun c hc => .inl hc
    | cons e l ih =>
      intro c hc
      rcases ih _ hc with hc | ⟨x, hx⟩
      · rcases ExtTreeMap.mem_insert.mp hc with he | hc
        · rw [LawfulEqOrd.compare_eq_iff_eq] at he
          exact .inr ⟨e.2, he ▸ List.mem_cons_self⟩
        · exact .inl hc
      · exact .inr ⟨x, List.mem_cons_of_mem e hx⟩
  refine (hfold d.toList c h).imp_right fun ⟨x, hx⟩ => ?_
  rw [← ExtTreeMap.isSome_getElem?_iff_mem, mem_toList_iff.mp hx]
  rfl

lemma aheadOf_iff {c d : Clock} :
    Clock.aheadOf c d = true ↔ ∃ n, counter d n < counter c n := by
  unfold Clock.aheadOf
  simp only [List.any_eq_true, decide_eq_true_eq, Prod.exists]
  constructor
  · rintro ⟨n, x, hx, hlt⟩
    exact ⟨n, by rw [counter_of_mem hx]; exact UInt64.lt_iff_toNat_lt.mp hlt⟩
  · rintro ⟨n, hlt⟩
    obtain ⟨x, hx, hxn⟩ := exists_mem_of_counter_pos (a := c) (n := n) (by omega)
    exact ⟨n, x, hx, UInt64.lt_iff_toNat_lt.mpr (by rw [hxn]; exact hlt)⟩

lemma aheadOf_eq_false_iff {c d : Clock} : Clock.aheadOf c d = false ↔ counter c ≤ counter d := by
  rw [← Bool.not_eq_true, aheadOf_iff]
  simp [Pi.le_def]

/-- **`Compare` decides the pointwise order of the counters.** -/
theorem compare_spec (c d : Clock) :
    match Clock.compare c d with
    | .equal => counter c = counter d
    | .before => counter c < counter d
    | .after => counter d < counter c
    | .concurrent => ¬ counter c ≤ counter d ∧ ¬ counter d ≤ counter c := by
  have hc := aheadOf_eq_false_iff (c := c) (d := d)
  have hd := aheadOf_eq_false_iff (c := d) (d := c)
  unfold Clock.compare
  rcases h1 : Clock.aheadOf c d <;> rcases h2 : Clock.aheadOf d c <;>
    simp only [h1, h2, true_iff, reduceCtorEq, false_iff] at hc hd <;> simp
  · exact le_antisymm hc hd
  · exact lt_of_le_not_ge hc hd
  · exact lt_of_le_not_ge hd hc
  · exact ⟨hc, hd⟩

/-! ### The causal order -/

section Compare

variable {c d : Clock}

lemma Clock.compare_eq_equal_iff : Clock.compare c d = .equal ↔ counter c = counter d := by
  have h := compare_spec c d
  rcases hc : Clock.compare c d <;> simp only [hc] at h <;> simp
  · exact h
  · exact h.ne
  · exact h.ne'
  · exact fun he => h.1 he.le

lemma Clock.compare_eq_before_iff : Clock.compare c d = .before ↔ counter c < counter d := by
  have h := compare_spec c d
  rcases hc : Clock.compare c d <;> simp only [hc] at h <;> simp
  · exact fun hlt => absurd h hlt.ne
  · exact h
  · exact fun hlt => absurd h hlt.asymm
  · exact fun hlt => h.1 hlt.le

lemma Clock.compare_eq_after_iff : Clock.compare c d = .after ↔ counter d < counter c := by
  have h := compare_spec c d
  rcases hc : Clock.compare c d <;> simp only [hc] at h <;> simp
  · exact fun hlt => absurd h hlt.ne'
  · exact fun hlt => absurd h hlt.asymm
  · exact h
  · exact fun hlt => h.2 hlt.le

lemma Clock.compare_eq_concurrent_iff :
    Clock.compare c d = .concurrent ↔ ¬ counter c ≤ counter d ∧ ¬ counter d ≤ counter c := by
  have h := compare_spec c d
  rcases hc : Clock.compare c d <;> simp only [hc] at h <;> simp
  · exact fun hnot => absurd h.le hnot
  · exact fun hnot => absurd h.le hnot
  · exact fun _ => h.le
  · exact h

lemma Clock.compare_eq_before_or_equal_iff :
    Clock.compare c d = .before ∨ Clock.compare c d = .equal ↔ counter c ≤ counter d := by
  rw [compare_eq_before_iff, compare_eq_equal_iff, le_iff_lt_or_eq]

end Compare

/-- A clock is below another one if `Compare` says `Before` or `Equal`. Clocks that are `Equal`
may still differ, in entries that are zero. -/
instance : Preorder Clock where
  le c d := Clock.compare c d = .before ∨ Clock.compare c d = .equal
  lt c d := Clock.compare c d = .before
  le_refl _ := Clock.compare_eq_before_or_equal_iff.mpr le_rfl
  le_trans _ _ _ hab hbc := Clock.compare_eq_before_or_equal_iff.mpr
    ((Clock.compare_eq_before_or_equal_iff.mp hab).trans
      (Clock.compare_eq_before_or_equal_iff.mp hbc))
  lt_iff_le_not_ge c d := by
    rw [Clock.compare_eq_before_or_equal_iff, Clock.compare_eq_before_or_equal_iff,
      Clock.compare_eq_before_iff]
    exact lt_iff_le_not_ge

lemma Clock.le_iff {c d : Clock} : c ≤ d ↔ counter c ≤ counter d :=
  Clock.compare_eq_before_or_equal_iff

lemma Clock.antisymmRel_iff {c d : Clock} :
    AntisymmRel (· ≤ ·) c d ↔ Clock.compare c d = .equal := by
  rw [AntisymmRel, Clock.le_iff, Clock.le_iff, Clock.compare_eq_equal_iff]
  exact ⟨fun h => le_antisymm h.1 h.2, fun h => ⟨h.le, h.ge⟩⟩

lemma counter_merge_eq_sup (c d : Clock) :
    counter (Clock.merge c d) = counter c ⊔ counter d := funext (counter_merge c d)

/-- **`Merge` is the join.** -/
lemma isLUB_merge (c d : Clock) : IsLUB {c, d} (Clock.merge c d) := by
  have hmax := counter_merge_eq_sup c d
  constructor
  · rintro e (rfl | rfl)
    · exact Clock.le_iff.mpr (hmax ▸ le_sup_left)
    · exact Clock.le_iff.mpr (hmax ▸ le_sup_right)
  · intro u hu
    rw [Clock.le_iff, hmax]
    exact sup_le (Clock.le_iff.mp (hu (by simp))) (Clock.le_iff.mp (hu (by simp)))

lemma lt_increment {c : Clock} {n : Bytes} (h : counter c n < 2 ^ 64 - 1) :
    counter c < counter (Clock.increment c n) := by
  have hself : counter (Clock.increment c n) n = counter c n + 1 := by
    rw [counter_increment, if_pos rfl, Nat.mod_eq_of_lt (by omega)]
  refine Pi.lt_def.mpr ⟨fun m => ?_, n, by omega⟩
  by_cases hm : n = m
  · subst hm
    rw [hself]
    exact Nat.le_succ _
  · rw [counter_increment, if_neg hm]

end Kyria.Vclock
