import Mathlib

/-!
Two binary heaps of labels, compared from the root down.

The nodes of a heap with `n` leaves are numbered from 1 to `2 * n - 1`: the children of node `i`
are `2 * i` and `2 * i + 1`, the leaves are the nodes from `n` on. In a hash tree the label of
an inner node is a function of the labels of its children. The walk does not descend below a
node at which the labels are equal, so that it finds the leaves that differ at each of their
ancestors; those are all that differ, if no node has equal labels above different ones.
-/

namespace Kyria.Lib.HashTree

variable {α : Type} {n : ℕ} {f g : ℕ → α}

/-- The labels of the inner nodes are computed from the leaves. -/
def Labelled (combine : α → α → α) (n : ℕ) (f : ℕ → α) : Prop :=
  ∀ i, 1 ≤ i → i < n → f i = combine (f (2 * i)) (f (2 * i + 1))

lemma Labelled.eq_of_leaves {combine : α → α → α} (hf : Labelled combine n f)
    (hg : Labelled combine n g) (hleaf : ∀ i, n ≤ i → i < 2 * n → f i = g i) :
    ∀ i, 1 ≤ i → i < 2 * n → f i = g i := by
  intro i h1 hlt
  -- from the last node to the first
  induction hm : 2 * n - i using Nat.strong_induction_on generalizing i with
  | _ m ih =>
    by_cases hin : n ≤ i
    · exact hleaf i hin hlt
    rw [hf i h1 (by omega), hg i h1 (by omega),
      ih (2 * n - 2 * i) (by omega) (2 * i) (by omega) (by omega) rfl,
      ih (2 * n - (2 * i + 1)) (by omega) (2 * i + 1) (by omega) (by omega) rfl]

lemma div_two_pow_succ (x h : ℕ) : x / 2 ^ (h + 1) = x / 2 ^ h / 2 := by
  rw [pow_succ, Nat.div_div_eq_div_mul]

lemma div_two_pow_lt {d h : ℕ} (hd : d < n) : (n + d) / 2 ^ (h + 1) < n := by
  rw [pow_succ', ← Nat.div_div_eq_div_mul]
  exact (Nat.div_le_self _ _).trans_lt (by omega)

/-- At a leaf and at its ancestors up to height `h`, the labels differ. -/
def DiffersUpTo (f g : ℕ → α) (n d h : ℕ) : Prop :=
  ∀ e ≤ h, f ((n + d) / 2 ^ e) ≠ g ((n + d) / 2 ^ e)

lemma exists_differs_iff {i d : ℕ} (hin : i < n) (hne : f i ≠ g i) :
    (∃ h, (n + d) / 2 ^ h = i ∧ DiffersUpTo f g n d h) ↔
      (∃ h, (n + d) / 2 ^ h = 2 * i ∧ DiffersUpTo f g n d h) ∨
        ∃ h, (n + d) / 2 ^ h = 2 * i + 1 ∧ DiffersUpTo f g n d h := by
  constructor
  · rintro ⟨h, hi, hdiff⟩
    cases h with
    | zero =>
      rw [pow_zero, Nat.div_one] at hi
      omega
    | succ h =>
      rw [div_two_pow_succ] at hi
      have hbelow : DiffersUpTo f g n d h := fun e he => hdiff e (by omega)
      rcases (by omega : (n + d) / 2 ^ h = 2 * i ∨ (n + d) / 2 ^ h = 2 * i + 1) with hc | hc
      · exact .inl ⟨h, hc, hbelow⟩
      · exact .inr ⟨h, hc, hbelow⟩
  · have hup : ∀ h, (n + d) / 2 ^ h / 2 = i → DiffersUpTo f g n d h →
        ∃ h, (n + d) / 2 ^ h = i ∧ DiffersUpTo f g n d h := by
      intro h hi hdiff
      rw [← div_two_pow_succ] at hi
      refine ⟨h + 1, hi, fun e he => ?_⟩
      rcases Nat.le_succ_iff.mp he with hle | rfl
      · exact hdiff e hle
      · rw [hi]
        exact hne
    rintro (⟨h, hi, hdiff⟩ | ⟨h, hi, hdiff⟩)
    · exact hup h (by omega) hdiff
    · exact hup h (by omega) hdiff

/-- Equal labels above different ones. -/
def Clash (f g : ℕ → α) (i : ℕ) : Prop :=
  f i = g i ∧ (f (2 * i) ≠ g (2 * i) ∨ f (2 * i + 1) ≠ g (2 * i + 1))

lemma differsUpTo_of_not_clash (hno : ∀ i, 1 ≤ i → i < n → ¬ Clash f g i) {d : ℕ} (hd : d < n)
    (hne : f (n + d) ≠ g (n + d)) {h : ℕ} (hroot : 1 ≤ (n + d) / 2 ^ h) :
    DiffersUpTo f g n d h := by
  intro e he
  induction e with
  | zero => simpa using hne
  | succ e ih =>
    intro heq
    have hpos : 1 ≤ (n + d) / 2 ^ (e + 1) :=
      hroot.trans (Nat.div_le_div_left (Nat.pow_le_pow_right (by norm_num) he) (by positivity))
    refine hno _ hpos (div_two_pow_lt hd) ⟨heq, ?_⟩
    have hbelow := ih (by omega)
    rw [div_two_pow_succ]
    rcases Nat.mod_two_eq_zero_or_one ((n + d) / 2 ^ e) with hmod | hmod
    · left
      rwa [show 2 * ((n + d) / 2 ^ e / 2) = (n + d) / 2 ^ e by omega]
    · right
      rwa [show 2 * ((n + d) / 2 ^ e / 2) + 1 = (n + d) / 2 ^ e by omega]

variable [DecidableEq α]

/-- The leaves that are found below a node, counted from 0; `fuel` bounds the depth. -/
def walk (f g : ℕ → α) (n : ℕ) : ℕ → ℕ → List ℕ
  | 0, _ => []
  | fuel + 1, i =>
    if f i = g i then []
    else if n ≤ i then [i - n]
    else walk f g n fuel (2 * i) ++ walk f g n fuel (2 * i + 1)

lemma walk_congr {f' g' : ℕ → α} (hf : ∀ i, 1 ≤ i → i < 2 * n → f i = f' i)
    (hg : ∀ i, 1 ≤ i → i < 2 * n → g i = g' i) (fuel : ℕ) {i : ℕ} (h1 : 1 ≤ i)
    (hlt : i < 2 * n) : walk f g n fuel i = walk f' g' n fuel i := by
  induction fuel generalizing i with
  | zero => rfl
  | succ fuel ih =>
    rw [walk, walk, hf i h1 hlt, hg i h1 hlt]
    by_cases hin : n ≤ i
    · simp only [hin, if_true]
    · rw [ih (i := 2 * i) (by omega) (by omega), ih (i := 2 * i + 1) (by omega) (by omega)]

lemma walk_of_leaf (fuel : ℕ) {i : ℕ} (hin : n ≤ i) :
    walk f g n (fuel + 1) i = if f i = g i then [] else [i - n] := by
  rw [walk, if_pos hin]

lemma mem_walk_of_leaf (fuel : ℕ) {i d : ℕ} (hin : n ≤ i) (hlt : i < 2 * n) :
    d ∈ walk f g n (fuel + 1) i ↔ d < n ∧ ∃ h, (n + d) / 2 ^ h = i ∧ DiffersUpTo f g n d h := by
  rw [walk_of_leaf fuel hin]
  constructor
  · intro hmem
    split_ifs at hmem with heq
    · cases hmem
    obtain rfl := List.mem_singleton.mp hmem
    have hi : (n + (i - n)) / 2 ^ 0 = i := by rw [pow_zero, Nat.div_one]; omega
    refine ⟨by omega, 0, hi, fun e he => ?_⟩
    rw [Nat.le_zero.mp he, hi]
    exact heq
  · rintro ⟨hd, h, hi, hdiff⟩
    cases h with
    | succ h =>
      have := div_two_pow_lt (h := h) hd
      omega
    | zero =>
      have hne := hdiff 0 le_rfl
      rw [hi] at hne
      rw [pow_zero, Nat.div_one] at hi
      rw [if_neg hne, List.mem_singleton]
      omega

/-- **A leaf is found below a node exactly if the labels differ all the way up to it.** -/
theorem mem_walk (fuel : ℕ) {i d : ℕ} (h1 : 1 ≤ i) (hlt : i < 2 * n)
    (hfuel : n ≤ i * 2 ^ fuel) :
    d ∈ walk f g n (fuel + 1) i ↔ d < n ∧ ∃ h, (n + d) / 2 ^ h = i ∧ DiffersUpTo f g n d h := by
  induction fuel generalizing i with
  | zero => exact mem_walk_of_leaf 0 (by simpa using hfuel) hlt
  | succ fuel ih =>
    by_cases hin : n ≤ i
    · exact mem_walk_of_leaf (fuel + 1) hin hlt
    have hleft : i * 2 ^ (fuel + 1) = 2 * i * 2 ^ fuel := by rw [pow_succ]; ring
    have hright : 2 * i * 2 ^ fuel ≤ (2 * i + 1) * 2 ^ fuel := Nat.mul_le_mul_right _ (by omega)
    rw [walk]
    split_ifs with heq
    · -- nothing is found below equal labels
      refine iff_of_false List.not_mem_nil ?_
      rintro ⟨-, h, hi, hdiff⟩
      exact hdiff h le_rfl (by rw [hi]; exact heq)
    rw [List.mem_append, ih (by omega) (by omega) (by omega), ih (by omega) (by omega) (by omega),
      ← and_or_left, exists_differs_iff (by omega) heq]

/-- **Without a clash the walk from the root finds every leaf that differs.** -/
theorem mem_walk_of_not_clash (hno : ∀ i, 1 ≤ i → i < n → ¬ Clash f g i) (hn : 1 ≤ n)
    {fuel d : ℕ} (hfuel : n ≤ 2 ^ fuel) :
    d ∈ walk f g n (fuel + 1) 1 ↔ d < n ∧ f (n + d) ≠ g (n + d) := by
  rw [mem_walk fuel le_rfl (by omega) (by simpa using hfuel)]
  refine and_congr_right fun hd => ⟨?_, fun hne => ?_⟩
  · rintro ⟨h, -, hdiff⟩
    simpa using hdiff 0 (Nat.zero_le h)
  · have hroot : (n + d) / 2 ^ Nat.log 2 (n + d) = 1 := by
      refine Nat.div_eq_of_lt_le ?_ ?_
      · rw [one_mul]
        exact Nat.pow_log_le_self 2 (by omega)
      · rw [one_add_one_eq_two, ← pow_succ']
        exact Nat.lt_pow_succ_log_self (by norm_num) _
    exact ⟨_, hroot, differsUpTo_of_not_clash hno hd hne hroot.ge⟩

lemma walk_sorted (k h : ℕ) {fuel i : ℕ} (hfuel : h ≤ fuel) (hlo : 2 ^ k ≤ i * 2 ^ h)
    (hhi : (i + 1) * 2 ^ h ≤ 2 ^ (k + 1)) :
    (walk f g (2 ^ k) (fuel + 1) i).Pairwise (· < ·) ∧
      ∀ d ∈ walk f g (2 ^ k) (fuel + 1) i,
        i * 2 ^ h ≤ 2 ^ k + d ∧ 2 ^ k + d < (i + 1) * 2 ^ h := by
  induction h generalizing fuel i with
  | zero =>
    rw [walk_of_leaf fuel (by simpa using hlo)]
    split_ifs
    · simp
    · simp at hlo
      simp
      omega
  | succ h ih =>
    obtain ⟨fuel, rfl⟩ : ∃ m, fuel = m + 1 := ⟨fuel - 1, by omega⟩
    have hfirst : i * 2 ^ (h + 1) = 2 * i * 2 ^ h := by rw [pow_succ']; ring
    have hlast : (i + 1) * 2 ^ (h + 1) = (2 * i + 1 + 1) * 2 ^ h := by rw [pow_succ']; ring
    rw [hfirst] at hlo ⊢
    rw [hlast] at hhi ⊢
    have hmid : (2 * i + 1) * 2 ^ h ≤ (2 * i + 1 + 1) * 2 ^ h := Nat.mul_le_mul_right _ (by omega)
    have hmid' : 2 * i * 2 ^ h ≤ (2 * i + 1) * 2 ^ h := Nat.mul_le_mul_right _ (by omega)
    obtain ⟨hl, hlm⟩ := ih (by omega : h ≤ fuel) hlo (hmid.trans hhi)
    obtain ⟨hr, hrm⟩ := ih (by omega : h ≤ fuel) (hlo.trans hmid') hhi
    have hinner : ¬ 2 ^ k ≤ i := by
      intro hk
      have : 2 * i + 2 ≤ 2 * 2 ^ k :=
        (Nat.le_mul_of_pos_right _ (by positivity)).trans (hhi.trans_eq (pow_succ' 2 k))
      omega
    rw [walk, if_neg hinner]
    split_ifs
    · simp
    refine ⟨List.pairwise_append.mpr ⟨hl, hr, fun x hx y hy => ?_⟩, fun d hd => ?_⟩
    · have := hlm x hx
      have := hrm y hy
      omega
    · rcases List.mem_append.mp hd with hd | hd
      · have := hlm d hd
        omega
      · have := hrm d hd
        omega

end Kyria.Lib.HashTree
