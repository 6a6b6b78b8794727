import Kyria.Binenc
import Kyria.Protocol
import Kyria.Text

/-!
The wire format of RESP values (`internal/protocol/resp.go`).

The stream of a `bufio.Reader` is the whole of its bytes with a cursor into them. A line is
looked for in the next buffer's worth of them.
-/

namespace Kyria.Protocol

open Kyria.Lib.Cursor Kyria.Binenc Kyria.Text

def maxArrayCount : ℕ := 2 ^ 20

/-- The buffer of a `bufio.Reader` made without a size. -/
def bufferSize : ℕ := 4096

def crlf : Bytes := [13, 10]

/-- The `ProtocolError` values, with what their texts quote. -/
inductive ProtocolError
  | unknownType (typeTag : UInt8)
  | lineMissingTerminator
  | emptyInteger
  | invalidInteger (b : Bytes)
  | bulkTooLarge (lineLen : Int64)
  | arrayTooLarge (lineLen : Int64)
  deriving DecidableEq

/-- The stream ended, a line did not fit into the buffer, or the input is not RESP. -/
inductive DecodeError
  | eof
  | bufferFull
  | protocol (e : ProtocolError)
  deriving DecidableEq

/-! ### Reading -/

def readFull (n : ℕ) : Reader DecodeError Bytes := (slice n).mapError fun _ => .eof

def readByte : Reader DecodeError UInt8 := do
  let b ← readFull 1
  return b.headD 0

def readSlice (delim : UInt8) : Reader DecodeError Bytes := fun data off =>
  let buffer := (data.drop off).take bufferSize
  let i := buffer.findIdx (· = delim)
  if i < buffer.length then .ok (buffer.take (i + 1), off + (i + 1))
  else if buffer.length < bufferSize then .error .eof
  else .error .bufferFull

/-- A line without its terminator. -/
def chomp (line : Bytes) : Except DecodeError Bytes :=
  if line.length < 2 ∨ line.getD (line.length - 2) 0 ≠ 13 then
    .error (.protocol .lineMissingTerminator)
  else .ok (line.take (line.length - 2))

def readLine : Reader DecodeError Bytes := do
  let line ← readSlice 10
  Reader.lift (chomp line)

/-- The loop of `parseInt`, which wraps around like the machine integers it computes with. -/
def parseDigits (b : Bytes) : Bytes → Int64 → Except DecodeError Int64
  | [], n => .ok n
  | c :: digits, n =>
    if c < 48 ∨ c > 57 then .error (.protocol (.invalidInteger b))
    else parseDigits b digits (n * 10 + Int64.ofNat (c - 48).toNat)

def parseInt (b : Bytes) : Except DecodeError Int64 :=
  match b with
  | [] => .error (.protocol .emptyInteger)
  | 45 :: [] => .error (.protocol (.invalidInteger b))
  | 45 :: digits => (parseDigits b digits 0).map fun n => -n
  | digits => parseDigits b digits 0

/-- A bulk string of the length on the line. -/
def decodeBulk (lineLen : Int64) : Reader DecodeError Value :=
  if lineLen < 0 then return .bulkString none
  else if lineLen.toInt > maxBulkSize then Reader.fail (.protocol (.bulkTooLarge lineLen))
  else do
    let buf ← readFull lineLen.toInt.toNat
    -- the trailing CRLF is skipped unseen
    let _ ← readFull crlf.length
    return .bulkString (some buf)

/-- An array of the length on the line; `elem` reads one element. -/
def decodeArray (elem : Reader DecodeError Value) (lineLen : Int64) : Reader DecodeError Value :=
  if lineLen < 0 then return .nullArray
  else if lineLen.toInt > maxArrayCount then Reader.fail (.protocol (.arrayTooLarge lineLen))
  else do
    let elems ← Reader.loop (fun elems => do let value ← elem; return elems ++ [value])
      lineLen.toInt.toNat []
    return .array elems

/-- The switch of `Decode`, on the type byte and the line behind it. -/
def decodeSwitch (elem : Reader DecodeError Value) (typeTag : UInt8) (line : Bytes) :
    Reader DecodeError Value :=
  if typeTag = 43 then return .simpleString line
  else if typeTag = 45 then return .error line
  else if typeTag = 58 then do
    let parsedInt ← Reader.lift (parseInt line)
    return .integer parsedInt
  else if typeTag = 36 then do
    let lineLen ← Reader.lift (parseInt line)
    decodeBulk lineLen
  else if typeTag = 42 then do
    let lineLen ← Reader.lift (parseInt line)
    decodeArray elem lineLen
  else Reader.fail (.protocol (.unknownType typeTag))

/-- The text of `Decode`, which calls itself for the elements of an array. -/
def decodeBody (elem : Reader DecodeError Value) : Reader DecodeError Value := do
  let typeTag ← readByte
  let line ← readLine
  decodeSwitch elem typeTag line

/-- `Decode` to a depth of nesting. -/
def decodeWith : ℕ → Reader DecodeError Value
  | 0 => Reader.fail .eof
  | fuel + 1 => decodeBody (decodeWith fuel)

/-- `Decode`: every level of nesting takes up some of the stream. -/
protected def decode : Reader DecodeError Value := fun data off =>
  decodeWith (data.length - off + 1) data off

/-! ### Writing -/

mutual

def Value.encode : Value → Bytes
  | .simpleString s => 43 :: s ++ crlf
  | .error msg => 45 :: msg ++ crlf
  | .integer i => 58 :: itoa i.toInt ++ crlf
  | .bulkString none => ascii "$-1" ++ crlf
  | .bulkString (some b) => 36 :: itoa b.length ++ crlf ++ b ++ crlf
  | .nullArray => ascii "*-1" ++ crlf
  | .array elems => 42 :: itoa elems.length ++ crlf ++ Value.encodeElems elems

def Value.encodeElems : List Value → Bytes
  | [] => []
  | v :: elems => Value.encode v ++ Value.encodeElems elems

end

lemma encodeElems_eq (elems : List Value) :
    Value.encodeElems elems = elems.flatMap Value.encode := by
  induction elems with
  | nil => rfl
  | cons v elems ih => rw [Value.encodeElems, ih, List.flatMap_cons]

/-! ### Requests -/

inductive CommandError
  | notANonEmptyArray
  | nameNotABulkString (v : Value)
  | argumentNotABulkString (v : Value)

/-- The bytes of a bulk string; a null one reads as an empty one. -/
def Value.bulk : Value → Option Bytes
  | .bulkString b => some (b.getD [])
  | _ => none

def commandArgs : List Value → Except CommandError (List Bytes)
  | [] => .ok []
  | v :: elems =>
    match v.bulk with
    | none => .error (.argumentNotABulkString v)
    | some b => (commandArgs elems).map fun args => b :: args

def Value.command : Value → Except CommandError Command
  | .array (v :: elems) =>
    match v.bulk with
    | none => .error (.nameNotABulkString v)
    | some name => (commandArgs elems).map fun args => { name, args }
  | _ => .error .notANonEmptyArray

/-! ### Lines and numbers -/

lemma exact_readFull (b : Bytes) : Exact (readFull b.length) b b :=
  (exact_slice b).mapError _

lemma consumes_readFull (n : ℕ) : Consumes (readFull n) fun b e => e = b ∧ b.length = n :=
  (consumes_slice n).mapError _

lemma exact_readByte (c : UInt8) : Exact readByte c [c] :=
  (exact_readFull [c]).bind (Exact.pure c)

lemma consumes_readByte : Consumes readByte fun c e => e = [c] := by
  refine ((consumes_readFull 1).bind fun b => Consumes.pure (b.headD 0)).mono ?_
  rintro c e ⟨b, e₁, e₂, rfl, ⟨rfl, hb⟩, rfl, rfl⟩
  obtain ⟨c, rfl⟩ := List.length_eq_one_iff.mp hb
  rfl

lemma findIdx_of_not_mem {t : Bytes} {c : UInt8} (h : c ∉ t) :
    t.findIdx (· = c) = t.length := by
  refine List.findIdx_eq_length.mpr fun x hx => ?_
  have hne : x ≠ c := fun heq => h (heq ▸ hx)
  simpa using hne

lemma findIdx_append_cons {t : Bytes} {c : UInt8} (h : c ∉ t) (rest : Bytes) :
    (t ++ c :: rest).findIdx (· = c) = t.length := by
  rw [List.findIdx_append, List.findIdx_cons, findIdx_of_not_mem h]
  simp

lemma exact_readSlice {t : Bytes} {c : UInt8} (h : c ∉ t) (hlen : t.length < bufferSize) :
    Exact (readSlice c) (t ++ [c]) (t ++ [c]) where
  recovers before after := by
    have hbuf : (List.drop before.length (before ++ (t ++ [c]) ++ after)).take bufferSize =
        t ++ c :: after.take (bufferSize - (t.length + 1)) := by
      rw [List.append_assoc, List.drop_left, List.take_append, List.take_of_length_le (by simpa)]
      simp
    simp only [readSlice, hbuf, findIdx_append_cons h]
    rw [if_pos (by simp), List.take_append, List.take_of_length_le (by omega)]
    simp
  truncated before cut after he hne := by
    have hcut : cut.length < (t ++ [c]).length := by
      have := List.length_pos_iff.mpr hne
      rw [he, List.length_append]
      omega
    have hpre : cut <+: t := by
      have hprefix : cut <+: t ++ [c] := ⟨after, he.symm⟩
      rw [List.length_append, List.length_singleton] at hcut
      exact List.prefix_of_prefix_length_le hprefix (List.prefix_append t [c]) (by omega)
    have hbuf : (List.drop before.length (before ++ cut)).take bufferSize = cut := by
      rw [List.drop_left, List.take_of_length_le (hpre.length_le.trans (by omega))]
    have hnone := findIdx_of_not_mem (t := cut) fun hmem => h (hpre.subset hmem)
    have hlt : cut.length < bufferSize := hpre.length_le.trans_lt hlen
    exact ⟨.eof, by simp only [readSlice, hbuf, hnone, lt_irrefl, if_false, if_pos hlt]⟩

lemma consumes_readSlice (c : UInt8) :
    Consumes (readSlice c) fun line e => e = line ∧ ∃ t, line = t ++ [c] ∧ c ∉ t ∧
      t.length < bufferSize := by
  intro data off line off' h
  simp only [readSlice] at h
  obtain ⟨buffer, hbuf⟩ : ∃ buffer, buffer = (data.drop off).take bufferSize := ⟨_, rfl⟩
  rw [← hbuf] at h
  obtain ⟨i, hi⟩ : ∃ i, i = buffer.findIdx (· = c) := ⟨_, rfl⟩
  rw [← hi] at h
  split_ifs at h with hlt
  · cases h
    have hfound : buffer[i] = c := by
      have := List.findIdx_getElem (p := (· = c)) (w := hi ▸ hlt)
      simpa [← hi] using this
    have hle : buffer.length ≤ bufferSize := by rw [hbuf]; exact List.length_take_le _ _
    have htake : buffer.take (i + 1) = buffer.take i ++ [c] := by
      rw [List.take_succ_eq_append_getElem hlt, hfound]
    have hpre : buffer.take (i + 1) <+: data.drop off :=
      (List.take_prefix _ _).trans (hbuf ▸ List.take_prefix _ _)
    have hlen : (buffer.take (i + 1)).length = i + 1 := by
      rw [List.length_take]
      omega
    refine ⟨buffer.take (i + 1), ⟨rfl, buffer.take i, htake, ?_, ?_⟩, ?_, by rw [hlen]⟩
    · intro hmem
      obtain ⟨j, hj, hjc⟩ := List.getElem_of_mem hmem
      rw [List.length_take] at hj
      have hlt' : j < buffer.findIdx (· = c) := by omega
      have hnot := List.not_of_lt_findIdx hlt'
      rw [List.getElem_take] at hjc
      exact absurd hjc (by simpa using hnot)
    · rw [List.length_take]
      omega
    · obtain ⟨rest, hrest⟩ := hpre
      have hdrop : data.drop (off + (i + 1)) = rest := by
        rw [← List.drop_drop, ← hrest]
        exact List.drop_left' hlen
      rw [hdrop, hrest]

lemma chomp_append (t : Bytes) : chomp (t ++ crlf) = .ok t := by
  have hlen : (t ++ crlf).length - 2 = t.length := by simp [crlf]
  unfold chomp
  rw [hlen, if_neg (by simp [crlf])]
  simp

lemma append_crlf_of_chomp {line t : Bytes} (hline : ∃ u, line = u ++ [10])
    (h : chomp line = .ok t) : line = t ++ crlf := by
  obtain ⟨u, rfl⟩ := hline
  unfold chomp at h
  split_ifs at h with hbad
  cases h
  simp only [List.length_append, List.length_singleton, not_or, not_lt, ne_eq, not_not] at hbad
  obtain ⟨hlen, hcr⟩ := hbad
  obtain ⟨w, c, rfl⟩ : ∃ w c, u = w ++ [c] := by
    rcases List.eq_nil_or_concat u with rfl | ⟨w, c, rfl⟩
    · simp at hlen
    · exact ⟨w, c, List.concat_eq_append⟩
  simp at hcr
  simp [crlf, hcr]

/-- The most a line can hold besides its terminator. -/
def maxLine : ℕ := bufferSize - 2

lemma exact_readLine {t : Bytes} (h : 10 ∉ t) (hlen : t.length ≤ maxLine) :
    Exact readLine t (t ++ crlf) := by
  have hslice : Exact (readSlice 10) (t ++ crlf) (t ++ crlf) := by
    have hcr : (10 : UInt8) ∉ t ++ [13] := by simpa using h
    have hsize : (t ++ [13]).length < bufferSize := by
      simp only [maxLine, bufferSize, List.length_append, List.length_singleton] at hlen ⊢
      omega
    simpa [crlf] using exact_readSlice hcr hsize
  have hline : Exact readLine t (t ++ crlf ++ []) := hslice.bind (Exact.lift (chomp_append t))
  rwa [List.append_nil] at hline

lemma consumes_readLine :
    Consumes readLine fun t e => e = t ++ crlf ∧ 10 ∉ t ∧ t.length ≤ maxLine := by
  refine ((consumes_readSlice 10).bind fun line => Consumes.lift (chomp line)).mono ?_
  rintro t e ⟨line, e₁, e₂, rfl, ⟨rfl, u, rfl, hu, hlen⟩, hchomp, rfl⟩
  have heq := append_crlf_of_chomp ⟨u, rfl⟩ hchomp
  have hut : u = t ++ [13] := by
    have hcr : t ++ crlf = (t ++ [13]) ++ [10] := by simp [crlf]
    exact List.append_cancel_right (heq.trans hcr)
  subst hut
  refine ⟨by rw [List.append_nil, heq], fun hmem => hu (List.mem_append_left _ hmem), ?_⟩
  rw [List.length_append, List.length_singleton] at hlen
  simp only [maxLine]
  omega

/-- The number that an optional minus sign and some digits stand for. -/
def literal (b : Bytes) : Option ℤ :=
  match b with
  | 45 :: ds => if ds = [] ∨ ¬ ds.all isDigit then none else some (-(numeral ds : ℤ))
  | ds => if ds = [] ∨ ¬ ds.all isDigit then none else some (numeral ds)

lemma parseDigits_eq (b ds : Bytes) (acc : ℕ) :
    parseDigits b ds (Int64.ofInt acc) =
      if ds.all isDigit then
        .ok (Int64.ofInt (ds.foldl (fun acc c => acc * 10 + (c.toNat - 48)) acc : ℕ))
      else .error (.protocol (.invalidInteger b)) := by
  induction ds generalizing acc with
  | nil => rfl
  | cons c ds ih =>
    by_cases hc : isDigit c = true
    · have hrange : ¬ (c < 48 ∨ c > 57) := by
        simp only [isDigit, Bool.and_eq_true, decide_eq_true_eq] at hc
        simpa [not_or, UInt8.not_lt] using hc
      have hsub : (c - 48).toNat = c.toNat - 48 := by
        rw [UInt8.toNat_sub_of_le]
        · rfl
        · exact UInt8.not_lt.mp fun h => hrange (.inl h)
      have hstep : Int64.ofInt (acc : ℤ) * 10 + Int64.ofNat (c - 48).toNat =
          Int64.ofInt ((acc * 10 + (c.toNat - 48) : ℕ) : ℤ) := by
        rw [hsub, Nat.cast_add, Nat.cast_mul, Int64.ofInt_add, Int64.ofInt_mul]
        rfl
      rw [parseDigits, if_neg hrange, hstep, ih, List.all_cons, hc, Bool.true_and, List.foldl_cons]
    · have hrange : c < 48 ∨ c > 57 := by
        simp only [isDigit, Bool.and_eq_true, decide_eq_true_eq, not_and_or, UInt8.not_le] at hc
        exact hc
      rw [parseDigits, if_pos hrange, List.all_cons, if_neg (by simp [hc])]

lemma literal_of_unsigned {b : Bytes} (h : ∀ ds, b ≠ 45 :: ds) :
    literal b = if b = [] ∨ ¬ b.all isDigit then none else some (numeral b : ℤ) := by
  unfold literal
  split
  · exact absurd rfl (h _)
  · rfl

/-- **What `parseInt` reads**: the number on the line, modulo the size of a machine integer. -/
lemma parseInt_eq (b : Bytes) :
    parseInt b = match literal b with
      | some z => .ok (Int64.ofInt z)
      | none => .error (.protocol (if b = [] then .emptyInteger else .invalidInteger b)) := by
  have hzero : (0 : Int64) = Int64.ofInt ((0 : ℕ) : ℤ) := rfl
  unfold parseInt
  split
  · simp [literal]
  · simp [literal]
  · rename_i ds hne
    have hds : ds ≠ [] := fun h => hne (by rw [h])
    rw [hzero, parseDigits_eq]
    by_cases hall : ds.all isDigit = true
    · simp only [literal, hall, hds, if_true, not_true, or_self, if_false, Except.map, numeral,
        Int64.ofInt_neg]
    · simp [literal, hall, Except.map]
  · rename_i hnil _ hneg
    rw [hzero, parseDigits_eq, literal_of_unsigned fun ds h => hneg ds h]
    by_cases hall : b.all isDigit = true
    · simp only [hall, if_true, not_true, or_false, if_neg hnil, numeral]
    · simp only [hall, if_false, not_false_iff, or_true, if_true, if_neg hnil, Bool.false_eq_true]

lemma literal_itoa (z : ℤ) : literal (itoa z) = some z := by
  obtain ⟨hne, hall, hval⟩ := digits_spec (Nat.lt_succ_self z.natAbs)
  unfold itoa
  split_ifs with hneg
  · simp only [literal, hne, hall, hval, not_true, or_self, if_false]
    congr 1
    omega
  · have hunsigned : ∀ ds, digits (z.natAbs + 1) z.natAbs ≠ 45 :: ds := by
      intro ds heq
      rw [heq] at hall
      simp [isDigit] at hall
    rw [literal_of_unsigned hunsigned]
    simp only [hne, hall, hval, not_true, or_self, if_false]
    congr 1
    omega

lemma parseInt_itoa (z : ℤ) : parseInt (itoa z) = .ok (Int64.ofInt z) := by
  rw [parseInt_eq, literal_itoa]

lemma itoa_line (i : Int64) : 10 ∉ itoa i.toInt ∧ (itoa i.toInt).length ≤ maxLine := by
  have hrange : i.toInt.natAbs < 10 ^ (19 + 1) := by
    have hlo := i.le_toInt
    have hhi := i.toInt_lt
    omega
  obtain ⟨-, hall, -⟩ := digits_spec (Nat.lt_succ_self i.toInt.natAbs)
  have hlen := length_digits_le (i.toInt.natAbs + 1) hrange
  have hlf : (10 : UInt8) ∉ digits (i.toInt.natAbs + 1) i.toInt.natAbs := by
    intro hmem
    have := List.all_eq_true.mp hall 10 hmem
    simp [isDigit] at this
  simp only [maxLine, bufferSize]
  unfold itoa
  split_ifs
  · refine ⟨?_, ?_⟩
    · simpa using hlf
    · rw [List.length_cons]
      omega
  · exact ⟨hlf, by omega⟩

/-! ### What one call reads -/

/-- A line that fits into the buffer. -/
structure Line (t : Bytes) : Prop where
  noFeed : 10 ∉ t
  fits : t.length ≤ maxLine

/-- What `Decode` reads off the stream for a value; `P` says it for the elements of an array. -/
inductive Read (P : Value → Bytes → Prop) : Value → Bytes → Prop where
  | simpleString {t : Bytes} : Line t → Read P (.simpleString t) (43 :: (t ++ crlf))
  | error {t : Bytes} : Line t → Read P (.error t) (45 :: (t ++ crlf))
  | integer {t : Bytes} {z : ℤ} : Line t → literal t = some z →
      Read P (.integer (Int64.ofInt z)) (58 :: (t ++ crlf))
  | nullBulk {t : Bytes} {z : ℤ} : Line t → literal t = some z → (Int64.ofInt z).toInt < 0 →
      Read P (.bulkString none) (36 :: (t ++ crlf))
  | bulk {t b w : Bytes} {z : ℤ} : Line t → literal t = some z →
      (Int64.ofInt z).toInt = b.length → b.length ≤ maxBulkSize → w.length = 2 →
      Read P (.bulkString (some b)) (36 :: (t ++ crlf) ++ (b ++ w))
  | nullArray {t : Bytes} {z : ℤ} : Line t → literal t = some z → (Int64.ofInt z).toInt < 0 →
      Read P .nullArray (42 :: (t ++ crlf))
  | array {t : Bytes} {z : ℤ} {parts : List (Value × Bytes)} : Line t → literal t = some z →
      (Int64.ofInt z).toInt = parts.length → parts.length ≤ maxArrayCount →
      (∀ p ∈ parts, P p.1 p.2) →
      Read P (.array (parts.map Prod.fst)) (42 :: (t ++ crlf) ++ parts.flatMap Prod.snd)

lemma literal_of_parseInt {t : Bytes} {n : Int64} (h : parseInt t = .ok n) :
    ∃ z, literal t = some z ∧ n = Int64.ofInt z := by
  rw [parseInt_eq] at h
  split at h
  · rename_i z hz
    exact ⟨z, hz, (Except.ok.inj h).symm⟩
  · cases h

lemma consumes_decodeBulk (n : Int64) :
    Consumes (decodeBulk n) fun v e => n.toInt < 0 ∧ v = .bulkString none ∧ e = [] ∨
      ∃ b w : Bytes, n.toInt = b.length ∧ b.length ≤ maxBulkSize ∧ w.length = 2 ∧
        v = .bulkString (some b) ∧ e = b ++ w := by
  unfold decodeBulk
  split_ifs with hneg hbig
  · refine (Consumes.pure _).mono ?_
    rintro v e ⟨rfl, rfl⟩
    exact .inl ⟨Int64.lt_iff_toInt_lt.mp hneg, rfl, rfl⟩
  · exact Consumes.fail _ _
  · refine ((consumes_readFull _).bind fun b => (consumes_readFull _).bind fun _ =>
      Consumes.pure _).mono ?_
    rintro v e ⟨b, e₁, e₂, rfl, ⟨rfl, hb⟩, w, e₃, e₄, rfl, ⟨rfl, hw⟩, rfl, rfl⟩
    have hnonneg : ¬ n.toInt < 0 := fun h => hneg (Int64.lt_iff_toInt_lt.mpr h)
    refine .inr ⟨e₁, e₃, by omega, by omega, hw, rfl, by rw [List.append_nil]⟩

lemma consumes_decodeArray {elem : Reader DecodeError Value} {P : Value → Bytes → Prop}
    (h : Consumes elem P) (n : Int64) :
    Consumes (decodeArray elem n) fun v e => n.toInt < 0 ∧ v = .nullArray ∧ e = [] ∨
      ∃ parts : List (Value × Bytes), n.toInt = parts.length ∧ parts.length ≤ maxArrayCount ∧
        (∀ p ∈ parts, P p.1 p.2) ∧ v = .array (parts.map Prod.fst) ∧
        e = parts.flatMap Prod.snd := by
  unfold decodeArray
  split_ifs with hneg hbig
  · refine (Consumes.pure _).mono ?_
    rintro v e ⟨rfl, rfl⟩
    exact .inl ⟨Int64.lt_iff_toInt_lt.mp hneg, rfl, rfl⟩
  · exact Consumes.fail _ _
  · refine ((h.collect _ []).bind fun _ => Consumes.pure _).mono ?_
    rintro v e ⟨vs, e₁, e₂, rfl, ⟨parts, hlen, rfl, rfl, hparts⟩, rfl, rfl⟩
    have hnonneg : ¬ n.toInt < 0 := fun h => hneg (Int64.lt_iff_toInt_lt.mpr h)
    refine .inr ⟨parts, by omega, by omega, hparts, by rw [List.nil_append], ?_⟩
    rw [List.append_nil]

lemma consumes_decodeSwitch {elem : Reader DecodeError Value} {P : Value → Bytes → Prop}
    (h : Consumes elem P) (typeTag : UInt8) (line : Bytes) :
    Consumes (decodeSwitch elem typeTag line) fun v e =>
      Line line → Read P v (typeTag :: (line ++ crlf) ++ e) := by
  unfold decodeSwitch
  split_ifs with htag htag htag htag htag
  · refine (Consumes.pure _).mono ?_
    rintro v e ⟨rfl, rfl⟩ hline
    rw [htag, List.append_nil]
    exact .simpleString hline
  · refine (Consumes.pure _).mono ?_
    rintro v e ⟨rfl, rfl⟩ hline
    rw [htag, List.append_nil]
    exact .error hline
  · refine ((Consumes.lift _).bind fun n => Consumes.pure (Value.integer n)).mono ?_
    rintro v e ⟨n, e₁, e₂, rfl, ⟨hn, rfl⟩, rfl, rfl⟩ hline
    obtain ⟨z, hz, rfl⟩ := literal_of_parseInt hn
    rw [htag, List.append_nil, List.append_nil]
    exact .integer hline hz
  · refine ((Consumes.lift _).bind fun n => consumes_decodeBulk n).mono ?_
    rintro v e ⟨n, e₁, e₂, rfl, ⟨hn, rfl⟩, hbulk⟩ hline
    obtain ⟨z, hz, rfl⟩ := literal_of_parseInt hn
    rw [htag, List.nil_append]
    rcases hbulk with ⟨hneg, rfl, rfl⟩ | ⟨b, w, hlen, hmax, hw, rfl, rfl⟩
    · rw [List.append_nil]
      exact .nullBulk hline hz hneg
    · exact .bulk hline hz hlen hmax hw
  · refine ((Consumes.lift _).bind fun n => consumes_decodeArray h n).mono ?_
    rintro v e ⟨n, e₁, e₂, rfl, ⟨hn, rfl⟩, harray⟩ hline
    obtain ⟨z, hz, rfl⟩ := literal_of_parseInt hn
    rw [htag, List.nil_append]
    rcases harray with ⟨hneg, rfl, rfl⟩ | ⟨parts, hlen, hmax, hparts, rfl, rfl⟩
    · rw [List.append_nil]
      exact .nullArray hline hz hneg
    · exact .array hline hz hlen hmax hparts
  · exact Consumes.fail _ _

lemma consumes_decodeBody {elem : Reader DecodeError Value} {P : Value → Bytes → Prop}
    (h : Consumes elem P) : Consumes (decodeBody elem) (Read P) := by
  refine (consumes_readByte.bind fun typeTag => consumes_readLine.bind fun line =>
    consumes_decodeSwitch h typeTag line).mono ?_
  rintro v e ⟨typeTag, e₁, e₂, rfl, rfl, line, e₃, e₄, rfl, ⟨rfl, hlf, hlen⟩, hread⟩
  exact hread ⟨hlf, hlen⟩

/-! ### The recursion -/

lemma consumes_decodeWith (fuel : ℕ) : Consumes (decodeWith fuel) fun _ _ => True := by
  induction fuel with
  | zero => exact Consumes.fail _ _
  | succ fuel ih => exact (consumes_decodeBody ih).mono fun _ _ _ => trivial

lemma decodeBody_congr {elem elem' : Reader DecodeError Value} {P : Value → Bytes → Prop}
    (helem : Consumes elem P) {data : Bytes} {off : ℕ}
    (h : ∀ off', off < off' → elem data off' = elem' data off') :
    decodeBody elem data off = decodeBody elem' data off := by
  refine Reader.bind_congr fun typeTag off₁ h₁ => Reader.bind_congr fun line off₂ h₂ => ?_
  have hlt : off < off₂ := by
    obtain ⟨e, rfl, -, rfl⟩ := consumes_readByte data off typeTag off₁ h₁
    exact Nat.lt_of_lt_of_le (Nat.lt_succ_self off) (consumes_readLine.le h₂)
  unfold decodeSwitch
  split_ifs
  · rfl
  · rfl
  · rfl
  · rfl
  · refine Reader.bind_congr fun n off₃ h₃ => ?_
    have hlt₃ : off < off₃ := hlt.trans_le ((Consumes.lift (parseInt line)).le h₃)
    unfold decodeArray
    split_ifs
    · rfl
    · rfl
    · have hloop := Reader.collect_congr helem n.toInt.toNat
        (fun off' hle => h off' (hlt₃.trans_le hle)) []
      simp only [Bind.bind] at hloop ⊢
      rw [hloop]
  · rfl

lemma decodeWith_of_end {data : Bytes} {off : ℕ} (h : data.length ≤ off) (fuel : ℕ) :
    decodeWith fuel data off = .error .eof := by
  cases fuel with
  | zero => rfl
  | succ fuel =>
    have hbyte : readByte data off = .error .eof := by
      have hshort : data.length - off < 1 := by omega
      simp only [readByte, readFull, Reader.mapError, slice, Bind.bind, if_pos hshort]
      rfl
    simp only [decodeWith, decodeBody, Bind.bind, hbyte]

lemma decodeWith_congr {fuel fuel' : ℕ} {data : Bytes} {off : ℕ} (h : data.length - off ≤ fuel)
    (h' : data.length - off ≤ fuel') : decodeWith fuel data off = decodeWith fuel' data off := by
  induction fuel generalizing fuel' off with
  | zero => rw [decodeWith_of_end (by omega), decodeWith_of_end (by omega)]
  | succ fuel ih =>
    by_cases hend : data.length ≤ off
    · rw [decodeWith_of_end hend, decodeWith_of_end hend]
    · obtain ⟨fuel', rfl⟩ := Nat.exists_eq_succ_of_ne_zero (by omega : fuel' ≠ 0)
      exact decodeBody_congr (consumes_decodeWith fuel) fun off' hlt => ih (by omega) (by omega)

/-- **`Decode` calls itself**: the fuel of the model is never missed. -/
lemma decode_eq : Protocol.decode = decodeBody Protocol.decode := by
  funext data off
  exact decodeBody_congr (consumes_decodeWith _) fun off' hlt =>
    decodeWith_congr (by omega) (by omega)

/-! ### Reading back what was written -/

/-- What the decoder takes: lines that fit into the buffer, and sizes within the limits. -/
inductive Value.Sendable : Value → Prop
  | simpleString {s : Bytes} : 10 ∉ s → s.length ≤ 4094 → Sendable (.simpleString s)
  | error {msg : Bytes} : 10 ∉ msg → msg.length ≤ 4094 → Sendable (.error msg)
  | integer (i : Int64) : Sendable (.integer i)
  | nullBulk : Sendable (.bulkString none)
  | bulk {b : Bytes} : b.length ≤ maxBulkSize → Sendable (.bulkString (some b))
  | nullArray : Sendable .nullArray
  | array {elems : List Value} : elems.length ≤ maxArrayCount → (∀ v ∈ elems, Sendable v) →
      Sendable (.array elems)

lemma exact_decodeBody {elem : Reader DecodeError Value} {typeTag : UInt8} {t e : Bytes} {v : Value}
    (hlf : 10 ∉ t) (hlen : t.length ≤ maxLine) (h : Exact (decodeSwitch elem typeTag t) v e) :
    Exact (decodeBody elem) v (typeTag :: t ++ crlf ++ e) := by
  have hbody : Exact (decodeBody elem) v ([typeTag] ++ ((t ++ crlf) ++ e)) :=
    (exact_readByte typeTag).bind ((exact_readLine hlf hlen).bind h)
  simpa using hbody

lemma toInt_ofInt_count {n limit : ℕ} (h : n ≤ limit) (hlimit : limit < 2 ^ 63) :
    (Int64.ofInt n).toInt = n :=
  Int64.toInt_ofInt_of_le (by omega) (by omega)

lemma not_neg_of_count {n : Int64} {k : ℕ} (h : n.toInt = k) : ¬ n < 0 := by
  rw [Int64.lt_iff_toInt_lt, h]
  change ¬ (k : ℤ) < 0
  omega

lemma exact_decodeBulk {b : Bytes} (h : b.length ≤ maxBulkSize) :
    Exact (decodeBulk (Int64.ofInt b.length)) (.bulkString (some b)) (b ++ crlf) := by
  have hlen := toInt_ofInt_count h (by decide)
  have hread : Exact (do
      let buf ← readFull b.length
      let _ ← readFull crlf.length
      return .bulkString (some buf) : Reader DecodeError Value) (.bulkString (some b))
      (b ++ (crlf ++ [])) :=
    (exact_readFull b).bind ((exact_readFull crlf).bind (Exact.pure _))
  unfold decodeBulk
  rw [if_neg (not_neg_of_count hlen), hlen, if_neg (by omega), Int.toNat_natCast]
  simpa using hread

lemma exact_decodeArray {elem : Reader DecodeError Value} {elems : List Value} {e : Value → Bytes}
    (h : elems.length ≤ maxArrayCount) (helem : ∀ v ∈ elems, Exact elem v (e v)) :
    Exact (decodeArray elem (Int64.ofInt elems.length)) (.array elems) (elems.flatMap e) := by
  have hlen := toInt_ofInt_count h (by decide)
  have hitem : ∀ acc, ∀ v ∈ elems,
      Exact (do let value ← elem; return acc ++ [value] : Reader DecodeError (List Value))
        (acc ++ [v]) (e v) := by
    intro acc v hv
    have hbind := (helem v hv).bind (f := fun value => Pure.pure (acc ++ [value])) (Exact.pure _)
    rwa [List.append_nil] at hbind
  have hread := (Exact.collect elems hitem).bind (f := fun elems => Pure.pure (Value.array elems))
    (Exact.pure _)
  unfold decodeArray
  rw [if_neg (not_neg_of_count hlen), hlen, if_neg (by omega), Int.toNat_natCast]
  rwa [List.append_nil] at hread

lemma exact_decode_of {typeTag : UInt8} {t e : Bytes} {v : Value} (hlf : 10 ∉ t)
    (hlen : t.length ≤ maxLine) (h : Exact (decodeSwitch Protocol.decode typeTag t) v e) :
    Exact Protocol.decode v (typeTag :: t ++ crlf ++ e) := by
  have hbody := exact_decodeBody hlf hlen h
  rwa [← decode_eq] at hbody

lemma exact_lift_itoa {f : Int64 → Reader DecodeError Value} {i : Int64} {v : Value} {e : Bytes}
    (h : Exact (f i) v e) : Exact (Reader.lift (parseInt (itoa i.toInt)) >>= f) v e := by
  have hnum : parseInt (itoa i.toInt) = .ok i := by rw [parseInt_itoa, Int64.ofInt_toInt]
  exact (Exact.lift hnum).bind h

/-- **A value is read back, and only as a whole.** -/
lemma exact_decode {v : Value} (hv : v.Sendable) : Exact Protocol.decode v v.encode := by
  induction hv with
  | @simpleString s hlf hlen =>
    have h : Exact Protocol.decode (.simpleString s) (43 :: s ++ crlf ++ []) :=
      exact_decode_of hlf hlen (Exact.pure _)
    simpa [Value.encode] using h
  | @error msg hlf hlen =>
    have h : Exact Protocol.decode (.error msg) (45 :: msg ++ crlf ++ []) :=
      exact_decode_of hlf hlen (Exact.pure _)
    simpa [Value.encode] using h
  | integer i =>
    have h : Exact Protocol.decode (.integer i) (58 :: itoa i.toInt ++ crlf ++ []) :=
      exact_decode_of (itoa_line i).1 (itoa_line i).2 (exact_lift_itoa (Exact.pure _))
    simpa [Value.encode] using h
  | nullBulk =>
    have h : Exact Protocol.decode (.bulkString none) (36 :: [45, 49] ++ crlf ++ []) :=
      exact_decode_of (by decide) (by decide) ((Exact.lift rfl).bind (Exact.pure _))
    exact h
  | @bulk b hlen =>
    have hcount := toInt_ofInt_count hlen (by decide)
    have h : Exact Protocol.decode (.bulkString (some b))
        (36 :: itoa (Int64.ofInt b.length).toInt ++ crlf ++ (b ++ crlf)) :=
      exact_decode_of (itoa_line _).1 (itoa_line _).2 (exact_lift_itoa (exact_decodeBulk hlen))
    simpa [Value.encode, hcount] using h
  | nullArray =>
    have h : Exact Protocol.decode .nullArray (42 :: [45, 49] ++ crlf ++ []) :=
      exact_decode_of (by decide) (by decide) ((Exact.lift rfl).bind (Exact.pure _))
    exact h
  | @array elems hlen _ ih =>
    have hcount := toInt_ofInt_count hlen (by decide)
    have h : Exact Protocol.decode (.array elems)
        (42 :: itoa (Int64.ofInt elems.length).toInt ++ crlf ++ elems.flatMap Value.encode) :=
      exact_decode_of (itoa_line _).1 (itoa_line _).2 (exact_lift_itoa (exact_decodeArray hlen ih))
    simpa [Value.encode, hcount, encodeElems_eq] using h

/-- So many calls of `Decode` in a row. -/
def decodeMany (n : ℕ) : Reader DecodeError (List Value) :=
  Reader.loop (fun values => do let v ← Protocol.decode; return values ++ [v]) n []

lemma exact_decodeMany {vs : List Value} (hvs : ∀ v ∈ vs, v.Sendable) :
    Exact (decodeMany vs.length) vs (vs.flatMap Value.encode) := by
  refine Exact.collect vs fun acc w hw => ?_
  have hitem := (exact_decode (hvs w hw)).bind (f := fun w => Pure.pure (acc ++ [w])) (Exact.pure _)
  rwa [List.append_nil] at hitem

/-- **The wire format round-trips**: a value is read back off its encoding, wherever that stands
in the stream, and what follows it is left unread; values sent one after the other come out in
order; and a stream that ends inside an encoding is answered with an error. -/
theorem resp_round_trip {v : Value} (hv : v.Sendable) (vs : List Value)
    (hvs : ∀ v ∈ vs, v.Sendable) :
    (∀ before rest, Protocol.decode (before ++ v.encode ++ rest) before.length =
      .ok (v, (before ++ v.encode).length)) ∧
    (∀ before rest, decodeMany vs.length (before ++ vs.flatMap Value.encode ++ rest) before.length =
      .ok (vs, (before ++ vs.flatMap Value.encode).length)) ∧
    ∀ cut rest, v.encode = cut ++ rest → rest ≠ [] → ∃ err, Protocol.decode cut 0 = .error err := by
  refine ⟨(exact_decode hv).recovers, (exact_decodeMany hvs).recovers,
    fun cut rest hcut hne => ?_⟩
  obtain ⟨err, herr⟩ := (exact_decode hv).truncated [] cut rest hcut hne
  exact ⟨err, by simpa using herr⟩

/-- The smallest integer, a bulk string with a line break in it, the two nulls and an empty
array, nested. -/
def assorted : Value :=
  .array [.integer Int64.minValue, .bulkString (some (ascii "a\r\nb")), .bulkString none,
    .array [.nullArray, .array []], .error (ascii "ERR no")]

theorem resp_round_trip_assorted :
    Protocol.decode (assorted.encode ++ ascii "+PONG") 0 = .ok (assorted, assorted.encode.length) ∧
    ∃ err, Protocol.decode (assorted.encode.take 40) 0 = .error err := by
  have hassorted : assorted.Sendable := by
    refine .array (by decide) fun v hv => ?_
    simp only [List.mem_cons, List.not_mem_nil, or_false] at hv
    rcases hv with rfl | rfl | rfl | rfl | rfl
    · exact .integer _
    · exact .bulk (by decide +kernel)
    · exact .nullBulk
    · refine .array (by decide) fun v hv => ?_
      simp only [List.mem_cons, List.not_mem_nil, or_false] at hv
      rcases hv with rfl | rfl
      · exact .nullArray
      · exact .array (by decide) (by simp)
    · exact .error (by decide) (by decide)
  obtain ⟨hwhole, -, hcut⟩ := resp_round_trip hassorted [] (by simp)
  exact ⟨hwhole [] _, hcut _ (assorted.encode.drop 40) (List.take_append_drop 40 _).symm
    (by decide +kernel)⟩

end Kyria.Protocol
