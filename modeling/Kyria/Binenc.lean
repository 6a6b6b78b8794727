import Kyria.Lib.Cursor

/-!
The big-endian primitives the codecs share (`internal/binenc`). An encoder appends to a
buffer, so it is modelled by the bytes it appends; a decoder reads at an offset and returns
the advanced one.
-/

namespace Kyria.Binenc

open Kyria.Lib.Cursor

/-- `ErrMalformed`: the input is shorter than declared, or corrupt. -/
inductive Malformed
  | errMalformed
  deriving DecidableEq

def maxUint16 : ℕ := 65535

def putUint16 (v : UInt16) : Bytes := bigEndian 2 v.toNat
def putUint32 (v : UInt32) : Bytes := bigEndian 4 v.toNat
def putUint64 (v : UInt64) : Bytes := bigEndian 8 v.toNat

/-- The string with its length in front, or nothing written and an error: the length. -/
def putString (value : Bytes) : Except ℕ Bytes :=
  if value.length > maxUint16 then .error value.length
  else .ok (putUint16 (UInt16.ofNat value.length) ++ value)

/-- What a call leaves in the buffer when its error is dropped. -/
def written (r : Except ℕ Bytes) : Bytes :=
  match r with
  | .ok b => b
  | .error _ => []

def putBool (value : Bool) : Bytes := [if value then 1 else 0]

/-- The `w` bytes at the cursor. -/
def slice (w : ℕ) : Reader Malformed Bytes := fun data off =>
  if data.length - off < w then .error .errMalformed
  else .ok ((data.drop off).take w, off + w)

def uint16 : Reader Malformed UInt16 := do
  let b ← slice 2
  return UInt16.ofNat (ofBigEndian b)

def uint32 : Reader Malformed UInt32 := do
  let b ← slice 4
  return UInt32.ofNat (ofBigEndian b)

def uint64 : Reader Malformed UInt64 := do
  let b ← slice 8
  return UInt64.ofNat (ofBigEndian b)

def string : Reader Malformed Bytes := do
  let n ← uint16
  slice n.toNat

def bytes (n : ℕ) : Reader Malformed Bytes := slice n

/-- A byte that is neither 0 nor 1 is refused, where it stands. -/
def bool : Reader Malformed Bool := fun data off =>
  if data.length - off < 1 then .error .errMalformed
  else
    let b := data.getD off 0
    if b ≠ 0 ∧ b ≠ 1 then .error .errMalformed else .ok (b = 1, off + 1)

/-! ### Reading back what was written -/

lemma exact_slice (b : Bytes) : Exact (slice b.length) b b where
  recovers before after := by simp [slice]
  truncated before cut after he hne := by
    have hlen : cut.length < b.length := by
      have := List.length_pos_iff.mpr hne
      rw [he, List.length_append]
      omega
    exact ⟨.errMalformed, by simp [slice, hlen]⟩

lemma consumes_slice (n : ℕ) : Consumes (slice n) fun b e => e = b ∧ b.length = n := by
  intro data off b off' h
  simp only [slice] at h
  split_ifs at h with hshort
  cases h
  have hlen : ((data.drop off).take n).length = n := by
    rw [List.length_take, List.length_drop]
    omega
  refine ⟨_, ⟨rfl, hlen⟩, ?_, by rw [hlen]⟩
  rw [← List.drop_drop, List.take_append_drop]

lemma recovers_slice (b : Bytes) : Recovers (slice b.length) b b := (exact_slice b).recovers

lemma exact_fixed {α : Type} (w n : ℕ) (conv : ℕ → α) :
    Exact (do let b ← slice w; return conv (ofBigEndian b)) (conv (n % 256 ^ w))
      (bigEndian w n) := by
  have hs : Exact (slice w) (bigEndian w n) (bigEndian w n) := by
    simpa using exact_slice (bigEndian w n)
  rw [← List.append_nil (bigEndian w n)]
  refine hs.bind ?_
  rw [ofBigEndian_bigEndian]
  exact Exact.pure _

lemma exact_uint16 (v : UInt16) : Exact uint16 v (putUint16 v) := by
  have h := exact_fixed 2 v.toNat UInt16.ofNat
  rwa [Nat.mod_eq_of_lt (by simpa using v.toNat_lt), UInt16.ofNat_toNat] at h

lemma exact_uint32 (v : UInt32) : Exact uint32 v (putUint32 v) := by
  have h := exact_fixed 4 v.toNat UInt32.ofNat
  rwa [Nat.mod_eq_of_lt (by simpa using v.toNat_lt), UInt32.ofNat_toNat] at h

lemma exact_uint64 (v : UInt64) : Exact uint64 v (putUint64 v) := by
  have h := exact_fixed 8 v.toNat UInt64.ofNat
  rwa [Nat.mod_eq_of_lt (by simpa using v.toNat_lt), UInt64.ofNat_toNat] at h

lemma recovers_uint32 (v : UInt32) : Recovers uint32 v (putUint32 v) := (exact_uint32 v).recovers

lemma toNat_ofNat_of_lt {n : ℕ} (h : n < 2 ^ 32) : (UInt32.ofNat n).toNat = n := by
  rw [UInt32.toNat_ofNat']
  exact Nat.mod_eq_of_lt h

lemma toNat_ofNat_of_le {n : ℕ} (h : n ≤ maxUint16) : (UInt16.ofNat n).toNat = n := by
  rw [UInt16.toNat_ofNat']
  exact Nat.mod_eq_of_lt (by unfold maxUint16 at h; omega)

lemma putString_of_le {s : Bytes} (h : s.length ≤ maxUint16) :
    putString s = .ok (putUint16 (UInt16.ofNat s.length) ++ s) := if_neg (not_lt.mpr h)

lemma putString_of_gt {s : Bytes} (h : maxUint16 < s.length) : putString s = .error s.length :=
  if_pos h

lemma exact_string {s : Bytes} (h : s.length ≤ maxUint16) :
    Exact string s (written (putString s)) := by
  rw [putString_of_le h]
  refine (exact_uint16 _).bind ?_
  rw [toNat_ofNat_of_le h]
  exact exact_slice s

lemma exact_bool (v : Bool) : Exact bool v (putBool v) where
  recovers before after := by cases v <;> simp [bool, putBool]
  truncated before cut after he hne := by
    rcases List.append_eq_singleton_iff.mp he.symm with ⟨hcut, -⟩ | ⟨-, hnil⟩
    · exact ⟨.errMalformed, by simp [bool, hcut]⟩
    · exact absurd hnil hne

lemma ensures_slice (w : ℕ) : Ensures (slice w) fun b => b.length ≤ w := by
  intro data off b off' h
  unfold slice at h
  split at h
  · simp at h
  · simp only [Except.ok.injEq, Prod.mk.injEq] at h
    rw [← h.1]
    exact List.length_take_le _ _

lemma ensures_string : Ensures string fun s => s.length ≤ maxUint16 := by
  refine (Ensures.trivial _).bind fun n _ data off s off' h => ?_
  have hs := ensures_slice n.toNat data off s off' h
  have hn := n.toNat_lt
  unfold maxUint16
  omega

end Kyria.Binenc
