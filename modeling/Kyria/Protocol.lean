import Kyria.Lib.Cursor

/-!
RESP values and commands, as the server's handlers see them (`internal/protocol`).
-/

namespace Kyria.Protocol

open Kyria.Lib.Cursor

def maxBulkSize : ℕ := 512 * 2 ^ 20

/-- The bytes of a text literal of the source, all of which are ASCII. -/
def ascii (s : String) : Bytes := s.toList.map fun c => UInt8.ofNat c.toNat

lemma ascii_append (s t : String) : ascii (s ++ t) = ascii s ++ ascii t := by
  simp [ascii]

/-- A bulk string is null or holds bytes; a null array is a value of its own. -/
inductive Value
  | simpleString (s : Bytes)
  | error (msg : Bytes)
  | integer (i : Int64)
  | bulkString (b : Option Bytes)
  | array (elems : List Value)
  | nullArray

mutual

def Value.decEq : (a b : Value) → Decidable (a = b)
  | .simpleString s, .simpleString t => decidable_of_iff (s = t) (by simp)
  | .error s, .error t => decidable_of_iff (s = t) (by simp)
  | .integer i, .integer j => decidable_of_iff (i = j) (by simp)
  | .bulkString s, .bulkString t => decidable_of_iff (s = t) (by simp)
  | .array as, .array bs =>
    have := Value.decEqList as bs
    decidable_of_iff (as = bs) (by simp)
  | .nullArray, .nullArray => isTrue rfl
  | .simpleString _, .error _ | .simpleString _, .integer _ | .simpleString _, .bulkString _
  | .simpleString _, .array _ | .simpleString _, .nullArray
  | .error _, .simpleString _ | .error _, .integer _ | .error _, .bulkString _
  | .error _, .array _ | .error _, .nullArray
  | .integer _, .simpleString _ | .integer _, .error _ | .integer _, .bulkString _
  | .integer _, .array _ | .integer _, .nullArray
  | .bulkString _, .simpleString _ | .bulkString _, .error _ | .bulkString _, .integer _
  | .bulkString _, .array _ | .bulkString _, .nullArray
  | .array _, .simpleString _ | .array _, .error _ | .array _, .integer _
  | .array _, .bulkString _ | .array _, .nullArray
  | .nullArray, .simpleString _ | .nullArray, .error _ | .nullArray, .integer _
  | .nullArray, .bulkString _ | .nullArray, .array _ => isFalse (by simp)

def Value.decEqList : (as bs : List Value) → Decidable (as = bs)
  | [], [] => isTrue rfl
  | [], _ :: _ => isFalse (by simp)
  | _ :: _, [] => isFalse (by simp)
  | a :: as, b :: bs =>
    have := Value.decEq a b
    have := Value.decEqList as bs
    decidable_of_iff (a = b ∧ as = bs) (by simp)

end

instance : DecidableEq Value := Value.decEq

structure Command where
  name : Bytes
  args : List Bytes
  deriving DecidableEq

end Kyria.Protocol
