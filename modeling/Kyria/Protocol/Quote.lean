import Kyria.Protocol

/-!
What `fmt` makes of a byte and of a byte string under `%q` (`strconv.AppendQuoteRune`,
`strconv.AppendQuote`).

Runes that can be printed stand for themselves. Up to U+00FF these are spelled out in `IsPrint`;
from there on they are a table of Unicode's, which the releases of Go bring up to date, and which
is a parameter here.
-/

namespace Kyria.Protocol

open Kyria.Lib.Cursor

/-- The runes from U+0100 on that a release of Go can print. -/
abbrev Printable := Char → Bool

def isPrint (table : Printable) (r : Char) : Bool :=
  if r.toNat ≤ 0xFF then
    (0x20 ≤ r.toNat && r.toNat < 0x7F) || (0xA1 ≤ r.toNat && r.toNat ≠ 0xAD)
  else table r

def lowerhex (n : ℕ) : UInt8 := UInt8.ofNat (if n < 10 then 48 + n else 87 + n)

/-- The last `k` hexadecimal digits of a number. -/
def hexDigits : ℕ → ℕ → Bytes
  | 0, _ => []
  | k + 1, n => hexDigits k (n / 16) ++ [lowerhex (n % 16)]

/-- What a rune is replaced by that cannot be printed. -/
def escapeSequence (r : ℕ) : Bytes :=
  match r with
  | 7 => ascii "\\a"
  | 8 => ascii "\\b"
  | 12 => ascii "\\f"
  | 10 => ascii "\\n"
  | 13 => ascii "\\r"
  | 9 => ascii "\\t"
  | 11 => ascii "\\v"
  | r =>
    if r < 0x20 ∨ r = 0x7F then ascii "\\x" ++ hexDigits 2 r
    else if r < 0x10000 then ascii "\\u" ++ hexDigits 4 r
    else ascii "\\U" ++ hexDigits 8 r

def appendEscapedRune (table : Printable) (quote : UInt8) (r : Char) : Bytes :=
  if r.toNat = quote.toNat ∨ r.toNat = 92 then [92, UInt8.ofNat r.toNat]
  else if isPrint table r then String.utf8EncodeChar r
  else escapeSequence r.toNat

/-- The loop of `appendQuotedWith`: rune after rune, and byte after byte where the bytes are not
UTF-8. -/
def appendQuoted (table : Printable) (quote : UInt8) (s : Bytes) : Bytes :=
  match s with
  | [] => []
  | c :: rest =>
    match (ByteArray.mk s.toArray).utf8DecodeChar? 0 with
    | none => ascii "\\x" ++ hexDigits 2 c.toNat ++ appendQuoted table quote rest
    | some r =>
      appendEscapedRune table quote r ++ appendQuoted table quote (rest.drop (r.utf8Size - 1))
  termination_by s.length

/-- `%q` of a byte. -/
def quoteByte (table : Printable) (c : UInt8) : Bytes :=
  39 :: appendEscapedRune table 39 (Char.ofNat c.toNat) ++ [39]

/-- `%q` of a byte string. -/
def quoteBytes (table : Printable) (s : Bytes) : Bytes := 34 :: appendQuoted table 34 s ++ [34]

example : quoteByte (fun _ => false) 33 = [39, 33, 39] := by decide
example : quoteByte (fun _ => false) 0xAD = ascii "'\\u00ad'" := by decide
example : quoteBytes (fun _ => false) [0xC3, 0xA4, 0xC3, 34] =
  [34, 0xC3, 0xA4] ++ ascii "\\xc3\\\"\"" := by decide +kernel

/-! ### No line ends within quotes -/

lemma le_lowerhex {n : ℕ} (h : n < 16) : 32 ≤ lowerhex n := by
  decide +revert

lemma le_of_mem_hexDigits {k n : ℕ} {b : UInt8} (h : b ∈ hexDigits k n) : 32 ≤ b := by
  induction k generalizing n with
  | zero => cases h
  | succ k ih =>
    rcases List.mem_append.mp h with h | h
    · exact ih h
    · rw [List.mem_singleton.mp h]
      exact le_lowerhex (Nat.mod_lt _ (by decide))

lemma le_of_mem_utf8EncodeChar {r : Char} (hr : 32 ≤ r.toNat) {b : UInt8}
    (h : b ∈ String.utf8EncodeChar r) : 32 ≤ b := by
  have hval : r.val.toNat = r.toNat := rfl
  rw [UInt8.le_iff_toNat_le]
  simp only [String.utf8EncodeChar, hval] at h
  split_ifs at h <;> simp only [List.mem_cons, List.not_mem_nil, or_false] at h <;>
    rcases h with rfl | rfl | rfl | rfl <;> simp <;> omega

lemma le_of_mem_escapeSequence {r : ℕ} {b : UInt8} (h : b ∈ escapeSequence r) : 32 ≤ b := by
  have happend : ∀ {s : Bytes} {k : ℕ}, b ∈ s ++ hexDigits k r → (∀ c ∈ s, 32 ≤ c) → 32 ≤ b :=
    fun hb hs => (List.mem_append.mp hb).elim (hs b) le_of_mem_hexDigits
  unfold escapeSequence at h
  split at h
  case h_8 => split_ifs at h <;> exact happend h (by decide +kernel)
  all_goals
    clear happend
    revert b
    decide +kernel

lemma le_of_mem_appendEscapedRune {table : Printable} {quote : UInt8} (hq : 32 ≤ quote) {r : Char}
    {b : UInt8} (h : b ∈ appendEscapedRune table quote r) : 32 ≤ b := by
  unfold appendEscapedRune at h
  split_ifs at h with hback hprint
  · rcases List.mem_pair.mp h with rfl | rfl
    · decide
    · rcases hback with hback | hback <;> rw [hback]
      · rwa [UInt8.ofNat_toNat]
      · decide
  · refine le_of_mem_utf8EncodeChar ?_ h
    by_contra hlt
    simp only [isPrint, if_pos (show r.toNat ≤ 0xFF by omega), Bool.or_eq_true, Bool.and_eq_true,
      decide_eq_true_eq] at hprint
    omega
  · exact le_of_mem_escapeSequence h

lemma le_of_mem_appendQuoted {table : Printable} {quote : UInt8} (hq : 32 ≤ quote) {s : Bytes}
    {b : UInt8} (h : b ∈ appendQuoted table quote s) : 32 ≤ b := by
  fun_induction appendQuoted table quote s with
  | case1 => cases h
  | case2 c rest hnone ih =>
    rw [hnone] at h
    rcases List.mem_append.mp h with h | h
    · rcases List.mem_append.mp h with h | h
      · exact (by decide +kernel : ∀ c ∈ ascii "\\x", 32 ≤ c) b h
      · exact le_of_mem_hexDigits h
    · exact ih h
  | case3 c rest r hr ih =>
    rw [hr] at h
    rcases List.mem_append.mp h with h | h
    · exact le_of_mem_appendEscapedRune hq h
    · exact ih h

lemma lf_notMem_quoteByte (table : Printable) (c : UInt8) : 10 ∉ quoteByte table c := by
  intro h
  rcases List.mem_append.mp h with h | h
  · rcases List.mem_cons.mp h with h | h
    · cases h
    · exact absurd (le_of_mem_appendEscapedRune (by decide) h) (by decide)
  · cases List.mem_singleton.mp h

lemma lf_notMem_quoteBytes (table : Printable) (s : Bytes) : 10 ∉ quoteBytes table s := by
  intro h
  rcases List.mem_append.mp h with h | h
  · rcases List.mem_cons.mp h with h | h
    · cases h
    · exact absurd (le_of_mem_appendQuoted (by decide) h) (by decide)
  · cases List.mem_singleton.mp h

end Kyria.Protocol
