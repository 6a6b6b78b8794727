import Kyria.Text

/-!
The consistent-hash ring and the lookups a request makes on it (`internal/cluster/ring.go`,
`router.go`).
-/

namespace Kyria.Routing

open Kyria.Lib.Cursor Kyria.Text

/-- A virtual node. -/
structure Point where
  hash : UInt64
  node : Bytes
  deriving DecidableEq

structure Ring where
  replicas : ℕ
  points : List Point

def fnv1aOffset : UInt64 := 14695981039346656037
def fnv1aPrime : UInt64 := 1099511628211

def hashStr (s : Bytes) : UInt64 :=
  s.foldl (fun h c => (h ^^^ c.toUInt64) * fnv1aPrime) fnv1aOffset

def newRing (replicas : ℕ) : Ring := { replicas, points := [] }

def Ring.add (r : Ring) (node : Bytes) : Ring :=
  { r with points := r.points ++ (List.range r.replicas).map fun i =>
      { hash := hashStr (node ++ [35] ++ itoa i), node } }

/-- `slices.SortFunc` by hash, which leaves open the order of equal elements. -/
structure SortFunc where
  sort : List Point → List Point
  perm : ∀ l, (sort l).Perm l
  sorted : ∀ l, (sort l).Pairwise fun p q => p.hash ≤ q.hash

/-- `Router.rebuild`, from the IDs of the alive members. -/
def rebuild (replicas : ℕ) (s : SortFunc) (alive : List Bytes) : Ring :=
  let ring := alive.foldl Ring.add (newRing replicas)
  { ring with points := s.sort ring.points }

/-- The loop of `sort.Search` on the interval from `i` to `j`, which shrinks in every round. -/
def searchLoop (f : ℕ → Bool) : ℕ → ℕ → ℕ → ℕ
  | 0, i, _ => i
  | fuel + 1, i, j =>
    if i < j then
      let h := (i + j) / 2
      if f h then searchLoop f fuel i h else searchLoop f fuel (h + 1) j
    else i

def search (n : ℕ) (f : ℕ → Bool) : ℕ := searchLoop f n 0 n

def findIndex (r : Ring) (hash : UInt64) : ℕ :=
  let idx := search r.points.length fun i => (r.points[i]?).any fun p => hash ≤ p.hash
  if idx = r.points.length then 0 else idx

def Ring.get (r : Ring) (key : Bytes) : Option Bytes :=
  if r.points.length = 0 then none
  else (r.points[findIndex r (hashStr key)]?).map Point.node

/-- The walk of `GetN`, over the offsets still to visit. -/
def walk (r : Ring) (idx n : ℕ) : List ℕ → List Bytes → List Bytes
  | [], nodes => nodes
  | i :: rest, nodes =>
    match r.points[(idx + i) % r.points.length]? with
    | none => nodes
    | some p =>
      let nodes := if p.node ∈ nodes then nodes else nodes ++ [p.node]
      if nodes.length = n then nodes else walk r idx n rest nodes

def Ring.getN (r : Ring) (key : Bytes) (n : ℕ) : List Bytes :=
  if r.points.length = 0 ∨ n = 0 then []
  else walk r (findIndex r (hashStr key)) n (List.range r.points.length) []

structure Router where
  self : Bytes
  ring : Ring

def Router.owner (r : Router) (key : Bytes) : Option Bytes := r.ring.get key

def Router.isLocal (r : Router) (key : Bytes) : Bool := r.owner key = some r.self

def Router.owners (r : Router) (key : Bytes) (n : ℕ) : List Bytes := r.ring.getN key n

/-! ### A ring of one node -/

/-- Self is the only node on the ring. -/
def Router.Alone (r : Router) : Prop := ∀ p ∈ r.ring.points, p.node = r.self

lemma alone_rebuild (replicas : ℕ) (s : SortFunc) (self : Bytes) :
    Router.Alone { self, ring := rebuild replicas s [self] } := by
  intro p hp
  have hp' := (s.perm _).mem_iff.mp hp
  simp only [List.foldl_cons, List.foldl_nil, Ring.add, newRing, List.nil_append,
    List.mem_map] at hp'
  obtain ⟨i, -, rfl⟩ := hp'
  rfl

lemma owner_of_alone {r : Router} (h : r.Alone) (key : Bytes) :
    r.owner key = none ∨ r.owner key = some r.self := by
  unfold Router.owner Ring.get
  split_ifs
  · exact .inl rfl
  · rcases hp : r.ring.points[findIndex r.ring (hashStr key)]? with _ | p
    · exact .inl rfl
    · exact .inr (by rw [Option.map_some, h p (List.mem_of_getElem? hp)])

lemma walk_of_alone {r : Router} (h : r.Alone) (idx n : ℕ) (is : List ℕ) {nodes : List Bytes}
    (hn : nodes = [] ∨ nodes = [r.self]) :
    walk r.ring idx n is nodes = [] ∨ walk r.ring idx n is nodes = [r.self] := by
  induction is generalizing nodes with
  | nil => exact hn
  | cons i is ih =>
    rw [walk]
    split
    · exact hn
    · next p hp =>
      have hself := h p (List.mem_of_getElem? hp)
      have hnext : (if p.node ∈ nodes then nodes else nodes ++ [p.node]) = [r.self] := by
        rw [hself]
        rcases hn with rfl | rfl <;> simp
      simp only [hnext]
      split_ifs
      · exact .inr rfl
      · exact ih (.inr rfl)

lemma owners_of_alone {r : Router} (h : r.Alone) (key : Bytes) (n : ℕ) :
    r.owners key n = [] ∨ r.owners key n = [r.self] := by
  unfold Router.owners Ring.getN
  split_ifs
  · exact .inl rfl
  · exact walk_of_alone h _ n _ (.inl rfl)

end Kyria.Routing
