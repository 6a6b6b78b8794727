import Kyria.Lib.Cursor

/-!
The functions of `strconv` and `strings` that the server uses.
-/

namespace Kyria.Text

open Kyria.Lib.Cursor

def digit (n : ℕ) : UInt8 := UInt8.ofNat (48 + n % 10)

/-- The decimal digits of `n`, read off from the last one; there are fewer than `fuel`. -/
def digits : ℕ → ℕ → Bytes
  | 0, _ => []
  | fuel + 1, n => (if n < 10 then [] else digits fuel (n / 10)) ++ [digit n]

/-- `strconv.Itoa`. -/
def itoa (n : ℤ) : Bytes :=
  if n < 0 then 45 :: digits (n.natAbs + 1) n.natAbs else digits (n.natAbs + 1) n.natAbs

def isDigit (c : UInt8) : Bool := 48 ≤ c && c ≤ 57

/-- The value of a string of digits. -/
def numeral (ds : Bytes) : ℕ := ds.foldl (fun acc c => acc * 10 + (c.toNat - 48)) 0

/-- The sign in front of a number, taken off. -/
def splitSign : Bytes → Bool × Bytes
  | 45 :: ds => (true, ds)
  | 43 :: ds => (false, ds)
  | ds => (false, ds)

/-- `strconv.Atoi`: `none` where it returns an error. -/
def atoi (s : Bytes) : Option ℤ :=
  let (neg, ds) := splitSign s
  if ds = [] ∨ ¬ ds.all isDigit then none
  else
    let n : ℤ := if neg then -(numeral ds : ℤ) else numeral ds
    if -2 ^ 63 ≤ n ∧ n < 2 ^ 63 then some n else none

def upperByte (c : UInt8) : UInt8 := if 97 ≤ c && c ≤ 122 then c - 32 else c

/-- `strings.ToUpper`, as far as it can be observed: its result is compared with words of
ASCII letters only. Of the other letters just `ſ` and `ı` have an ASCII capital. -/
def toUpper : Bytes → Bytes
  | [] => []
  | 0xC5 :: 0xBF :: rest => 83 :: toUpper rest
  | 0xC4 :: 0xB1 :: rest => 73 :: toUpper rest
  | c :: rest => upperByte c :: toUpper rest

lemma atoi_lt {s : Bytes} {n : ℤ} (h : atoi s = some n) : n < 2 ^ 63 := by
  simp only [atoi, Option.ite_none_left_eq_some, Option.ite_none_right_eq_some,
    Option.some.injEq] at h
  obtain ⟨-, hrange, rfl⟩ := h
  exact hrange.2

/-! ### Reading back what was printed -/

lemma toNat_digit (n : ℕ) : (digit n).toNat = 48 + n % 10 := by
  unfold digit
  rw [UInt8.toNat_ofNat']
  exact Nat.mod_eq_of_lt (by omega)

lemma isDigit_digit (n : ℕ) : isDigit (digit n) = true := by
  have h := toNat_digit n
  simp only [isDigit, Bool.and_eq_true, decide_eq_true_eq, UInt8.le_iff_toNat_le, h]
  constructor
  · exact Nat.le_add_right 48 _
  · have := Nat.mod_lt n (show 10 > 0 by norm_num)
    change 48 + n % 10 ≤ 57
    omega

lemma digits_spec {fuel n : ℕ} (h : n < fuel) :
    digits fuel n ≠ [] ∧ (digits fuel n).all isDigit = true ∧ numeral (digits fuel n) = n := by
  induction fuel generalizing n with
  | zero => omega
  | succ fuel ih =>
    have hd := isDigit_digit n
    refine ⟨by simp [digits], ?_, ?_⟩
    · by_cases hn : n < 10
      · simp [digits, hn, hd]
      · simp [digits, hn, hd, (ih (n := n / 10) (by omega)).2.1]
    · by_cases hn : n < 10
      · simp only [digits, hn, if_true, List.nil_append, numeral, List.foldl_cons, List.foldl_nil,
          toNat_digit]
        omega
      · have hval := (ih (n := n / 10) (by omega)).2.2
        simp only [digits, hn, if_false, numeral, List.foldl_append, List.foldl_cons,
          List.foldl_nil, toNat_digit] at hval ⊢
        rw [hval]
        omega

lemma splitSign_of_all {ds : Bytes} (h : ds.all isDigit = true) : splitSign ds = (false, ds) := by
  unfold splitSign
  split
  · simp [isDigit] at h
  · simp [isDigit] at h
  · rfl

/-- **A count survives being printed and parsed.** -/
theorem atoi_itoa {n : ℤ} (h : 0 ≤ n) (h' : n < 2 ^ 63) : atoi (itoa n) = some n := by
  obtain ⟨hne, hall, hval⟩ := digits_spec (Nat.lt_succ_self n.natAbs)
  have hn : (n.natAbs : ℤ) = n := Int.natAbs_of_nonneg h
  unfold atoi itoa
  rw [if_neg (by omega)]
  simp only [splitSign_of_all hall, hall, hne, hval, hn, not_true, or_self, if_false,
    Bool.false_eq_true]
  rw [if_pos (by omega)]

lemma length_digits_le (fuel : ℕ) {n k : ℕ} (h : n < 10 ^ (k + 1)) :
    (digits fuel n).length ≤ k + 1 := by
  induction fuel generalizing n k with
  | zero => simp [digits]
  | succ fuel ih =>
    by_cases hn : n < 10
    · simp [digits, hn]
    · cases k with
      | zero => exact absurd h (by simpa using hn)
      | succ k =>
        have hdiv : n / 10 < 10 ^ (k + 1) := Nat.div_lt_of_lt_mul (by rw [← pow_succ']; exact h)
        have := ih hdiv
        simp only [digits, hn, if_false, List.length_append, List.length_singleton]
        omega

lemma length_itoa_le {n : ℤ} {k : ℕ} (h : 0 ≤ n) (h' : n < 10 ^ (k + 1)) :
    (itoa n).length ≤ k + 1 := by
  have hlt : n.natAbs < 10 ^ (k + 1) := by
    have : ((n.natAbs : ℕ) : ℤ) < ((10 ^ (k + 1) : ℕ) : ℤ) := by
      rw [Int.natAbs_of_nonneg h]
      push_cast
      exact h'
    exact_mod_cast this
  unfold itoa
  rw [if_neg (by omega)]
  exact length_digits_le _ hlt

end Kyria.Text
