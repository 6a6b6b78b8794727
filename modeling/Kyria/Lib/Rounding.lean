import Mathlib

/-!
Rounding of natural numbers to `p` significant bits, to nearest with ties to even.

This is what a binary floating-point format of precision `p` does to an integer that is not too
large for it, and to a product of such integers.
-/

namespace Kyria.Lib.Rounding

/-- The unit in the last place: what separates the numbers with `p` bits around `n`. -/
def unit (p n : ℕ) : ℕ := 2 ^ (n.log2 + 1 - p)

def round (p n : ℕ) : ℕ :=
  let q := n / unit p n
  let r := n % unit p n
  if 2 * r < unit p n ∨ 2 * r = unit p n ∧ q % 2 = 0 then q * unit p n else (q + 1) * unit p n

variable {p n k : ℕ}

lemma unit_pos (p n : ℕ) : 0 < unit p n := Nat.two_pow_pos _

lemma round_of_dvd (h : unit p n ∣ n) : round p n = n := by
  have hpos := unit_pos p n
  have hr : n % unit p n = 0 := Nat.mod_eq_zero_of_dvd h
  simp only [round, hr, mul_zero]
  rw [if_pos (.inl hpos), Nat.div_mul_cancel h]

lemma round_le_of_dvd (hle : n ≤ k) (hd : unit p n ∣ k) : round p n ≤ k := by
  by_cases h : unit p n ∣ n
  · rwa [round_of_dvd h]
  · obtain ⟨c, rfl⟩ := hd
    -- the next multiple of the unit above `n` is still at most `k`
    have hlt : n / unit p n < c := by
      rw [Nat.div_lt_iff_lt_mul (unit_pos p n), mul_comm]
      exact lt_of_le_of_ne hle fun he => h ⟨c, he⟩
    have hup : (n / unit p n + 1) * unit p n ≤ unit p n * c := by
      rw [mul_comm]
      exact Nat.mul_le_mul_left _ hlt
    simp only [round]
    split_ifs
    · exact (Nat.mul_le_mul_right _ (Nat.le_succ _)).trans hup
    · exact hup

lemma le_round_add (p n : ℕ) : 2 * n ≤ 2 * round p n + unit p n := by
  have hdiv := Nat.div_add_mod n (unit p n)
  have hlt := Nat.mod_lt n (unit_pos p n)
  rw [mul_comm] at hdiv
  simp only [round]
  split_ifs with h
  · rcases h with h | h <;> omega
  · have hsucc : (n / unit p n + 1) * unit p n = n / unit p n * unit p n + unit p n :=
      Nat.succ_mul _ _
    omega

/-- **The error of rounding down** is at most one part in `2 ^ p`. -/
lemma le_round_mul (p n : ℕ) : n * 2 ^ p ≤ round p n * 2 ^ p + n := by
  rcases Nat.lt_or_ge n.log2 p with hsmall | hlarge
  · have hunit : unit p n = 1 := by
      rw [unit, Nat.sub_eq_zero_of_le hsmall, pow_zero]
    rw [round_of_dvd (hunit ▸ one_dvd n)]
    exact Nat.le_add_right _ _
  · rcases ne_or_eq n 0 with hne | rfl
    · have hunit : unit p n * 2 ^ p ≤ 2 * n := by
        rw [unit, ← pow_add, Nat.sub_add_cancel (by omega), pow_succ, mul_comm]
        exact Nat.mul_le_mul_left 2 (Nat.log2_self_le hne)
      have herr := Nat.mul_le_mul_right (2 ^ p) (le_round_add p n)
      rw [add_mul] at herr
      nlinarith
    · simp

lemma unit_dvd {m : ℕ} (hp : 1 ≤ p) (h : n < 2 ^ m) : unit p n ∣ 2 ^ (m - p) := by
  refine pow_dvd_pow 2 ?_
  rcases ne_or_eq n 0 with hne | rfl
  · have := (Nat.log2_lt hne).mpr h
    omega
  · rw [Nat.log2_zero]
    omega

lemma round_of_lt (hp : 1 ≤ p) (h : n < 2 ^ p) : round p n = n := by
  refine round_of_dvd ?_
  have hd : unit p n ∣ 2 ^ (p - p) := unit_dvd hp h
  rw [Nat.sub_self, pow_zero, Nat.dvd_one] at hd
  rw [hd]
  exact one_dvd n

end Kyria.Lib.Rounding
