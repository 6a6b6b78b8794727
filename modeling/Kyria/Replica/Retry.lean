import Kyria.Replica

/-!
A replicated write may arrive more than once.

A peer that has written a version cannot tell a lost request from a lost reply: the connection pool
sends it again on a fresh connection, the hint replayer sends it again on its next pass, and the
two may overtake each other. The replica takes each of them as it comes.
-/

namespace Kyria.Replica

open Kyria.Lib.Cursor Kyria.Lib.Maxima
open Kyria.Vclock Kyria.Version Kyria.Store Kyria.Store.MapStore Kyria.Protocol

variable {σ : Type} {m : MapStore σ} {key : Bytes}

/-- The versions among the writes that the replica acknowledges. -/
def acknowledged (m : MapStore σ) (key : Bytes) : List (Env × Bytes) → List Version
  | [] => []
  | w :: ws =>
    (if (rset m w.1 key w.2).1 = .simpleString (ascii "OK") then siblingsOf w.2 else []) ++
      acknowledged (rset m w.1 key w.2).2 key ws

/-- What a store holds under the key is within its own limits. -/
def Holds (m : MapStore σ) (key : Bytes) : Prop := m.Accepts key (m.blob key)

/-- A write of node `a`, its first. -/
def first : Version := { clock := (∅ : Clock).insert (ascii "a") 1, value := ascii "x" }

end Kyria.Replica
