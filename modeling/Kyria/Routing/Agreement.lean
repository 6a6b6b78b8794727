import Kyria.Handler

/-!
Nodes that see the same members route alike.

Every node builds the ring for itself, from the members in the order its own map iteration has
them, through a sort that compares nothing but hashes. As long as no two nodes share the hash
of a virtual point, a point is known by its hash, and there is only one sorted ring.
-/

namespace Kyria.Routing

open Kyria.Lib.Cursor Kyria.Text

/-! ### One ring -/

/-- The virtual points of a node, as `Add` places them. -/
def virtualPoints (replicas : ℕ) (node : Bytes) : List Point :=
  (List.range replicas).map fun i : ℕ => { hash := hashStr (node ++ [35] ++ itoa i), node }

/-- Virtual points of different nodes never share a hash. -/
def HashesApart (replicas : ℕ) (ids : List Bytes) : Prop :=
  ∀ a ∈ ids, ∀ b ∈ ids, a ≠ b → ∀ i : ℕ, i < replicas → ∀ j : ℕ, j < replicas →
    hashStr (a ++ [35] ++ itoa i) ≠ hashStr (b ++ [35] ++ itoa j)

lemma points_foldl_add (alive : List Bytes) (r : Ring) :
    alive.foldl Ring.add r =
      { r with points := r.points ++ alive.flatMap (virtualPoints r.replicas) } := by
  induction alive generalizing r with
  | nil => simp
  | cons a alive ih =>
    rw [List.foldl_cons, ih]
    simp only [Ring.add, List.flatMap_cons, List.append_assoc, virtualPoints]

lemma rebuild_eq (replicas : ℕ) (s : SortFunc) (alive : List Bytes) :
    rebuild replicas s alive =
      { replicas, points := s.sort (alive.flatMap (virtualPoints replicas)) } := by
  simp only [rebuild, points_foldl_add, newRing, List.nil_append]

lemma mem_rebuild_iff {replicas : ℕ} {s : SortFunc} {alive : List Bytes} {p : Point} :
    p ∈ (rebuild replicas s alive).points ↔
      p.node ∈ alive ∧ ∃ i : ℕ, i < replicas ∧ p.hash = hashStr (p.node ++ [35] ++ itoa i) := by
  rw [rebuild_eq]
  simp only [(s.perm _).mem_iff, List.mem_flatMap, virtualPoints, List.mem_map, List.mem_range]
  constructor
  · rintro ⟨a, ha, i, hi, rfl⟩
    exact ⟨ha, i, hi, rfl⟩
  · rintro ⟨ha, i, hi, hp⟩
    exact ⟨p.node, ha, i, hi, by rw [← hp]⟩

/-- **The ring does not depend** on the order of the members, nor on the sort. -/
lemma rebuild_eq_of_perm {replicas : ℕ} {alive alive' : List Bytes} (h : alive.Perm alive')
    (hapart : HashesApart replicas alive) (s s' : SortFunc) :
    rebuild replicas s alive = rebuild replicas s' alive' := by
  have hperm : (rebuild replicas s alive).points.Perm (rebuild replicas s' alive').points := by
    rw [rebuild_eq, rebuild_eq]
    exact (s.perm _).trans ((h.flatMap_right _).trans (s'.perm _).symm)
  have hpoints : (rebuild replicas s alive).points = (rebuild replicas s' alive').points := by
    refine List.Perm.eq_of_pairwise ?_ (s.sorted _) (s'.sorted _) hperm
    intro p q hp hq hpq hqp
    have hhash := UInt64.le_antisymm hpq hqp
    obtain ⟨hpn, i, hi, hpi⟩ := mem_rebuild_iff.mp hp
    obtain ⟨hqn, j, hj, hqj⟩ := mem_rebuild_iff.mp (hperm.mem_iff.mpr hq)
    have hnode : p.node = q.node := by
      by_contra hne
      exact hapart _ hpn _ hqn hne i hi j hj (hpi.symm.trans (hhash.trans hqj))
    cases p
    cases q
    cases hhash
    cases hnode
    rfl
  rw [rebuild_eq, rebuild_eq] at *
  exact congrArg (Ring.mk replicas) hpoints

/-- One such sort. -/
def SortFunc.insertion : SortFunc where
  sort l := l.insertionSort fun p q => p.hash ≤ q.hash
  perm l := List.perm_insertionSort _ l
  sorted l := by
    have htotal : Std.Total fun p q : Point => p.hash ≤ q.hash :=
      ⟨fun p q => UInt64.le_total p.hash q.hash⟩
    have htrans : IsTrans Point fun p q => p.hash ≤ q.hash := ⟨fun _ _ _ => UInt64.le_trans⟩
    exact List.pairwise_insertionSort _ l

/-! ### The owner and the replica list -/

lemma searchLoop_le (f : ℕ → Bool) (fuel i j : ℕ) (hij : i ≤ j) : searchLoop f fuel i j ≤ j := by
  induction fuel generalizing i j with
  | zero => exact hij
  | succ fuel ih =>
    simp only [searchLoop]
    split_ifs with hlt
    · exact (ih i _ (by omega)).trans (by omega)
    · exact ih _ j (by omega)
    · exact hij

lemma findIndex_lt {r : Ring} (h : r.points.length ≠ 0) (hash : UInt64) :
    findIndex r hash < r.points.length := by
  have hle := searchLoop_le (fun i => (r.points[i]?).any fun p => hash ≤ p.hash)
    r.points.length 0 r.points.length (Nat.zero_le _)
  unfold findIndex search
  dsimp only
  split
  · omega
  · omega

lemma walk_append (r : Ring) (idx n : ℕ) (is : List ℕ) (nodes : List Bytes) :
    ∃ more, walk r idx n is nodes = nodes ++ more := by
  induction is generalizing nodes with
  | nil => exact ⟨[], (List.append_nil _).symm⟩
  | cons i is ih =>
    rw [walk]
    split
    · exact ⟨[], (List.append_nil _).symm⟩
    · rename_i p _
      have hnext : ∃ more,
          (if p.node ∈ nodes then nodes else nodes ++ [p.node]) = nodes ++ more := by
        split_ifs
        · exact ⟨[], (List.append_nil _).symm⟩
        · exact ⟨_, rfl⟩
      obtain ⟨more, hmore⟩ := hnext
      simp only [hmore]
      split_ifs
      · exact ⟨more, rfl⟩
      · obtain ⟨more', hmore'⟩ := ih (nodes ++ more)
        exact ⟨more ++ more', by rw [hmore', List.append_assoc]⟩

lemma exists_owner {r : Ring} (h : r.points.length ≠ 0) (key : Bytes) :
    ∃ p ∈ r.points, r.get key = some p.node ∧
      ∀ n, 1 ≤ n → ∃ rest, r.getN key n = p.node :: rest := by
  have hlt := findIndex_lt h (hashStr key)
  have hp := List.getElem?_eq_getElem hlt
  refine ⟨r.points[findIndex r (hashStr key)], List.getElem_mem hlt, ?_, ?_⟩
  · rw [Ring.get, if_neg h, hp, Option.map_some]
  · intro n hn
    have hn0 : ¬ (r.points.length = 0 ∨ n = 0) := by omega
    obtain ⟨count, hcount⟩ := Nat.exists_eq_succ_of_ne_zero h
    -- the walk starts at the owner's point
    have hfirst : r.points[(findIndex r (hashStr key) + 0) % r.points.length]? =
        some r.points[findIndex r (hashStr key)] := by
      rw [Nat.add_zero, Nat.mod_eq_of_lt hlt, hp]
    have hrange : List.range r.points.length = 0 :: (List.range count).map Nat.succ := by
      rw [hcount, List.range_succ_eq_map]
    rw [Ring.getN, if_neg hn0, hrange, walk, hfirst]
    simp only [List.not_mem_nil, if_false, List.nil_append]
    split_ifs
    · exact ⟨[], rfl⟩
    · exact walk_append r _ n _ _

end Kyria.Routing

namespace Kyria.Server

open Kyria.Lib.Cursor Kyria.Text Kyria.Protocol Kyria.Routing Kyria.Sha256

variable {σ : Type} (H : Hash)

/-- The commands clients use on keys. -/
def clientCommands : List Bytes := [ascii "GET", ascii "SET", ascii "DEL"]

/-- The command has a number of arguments that its table entry admits. -/
def Admitted (cmd : Command) : Prop :=
  ∃ spec, commands (toUpper cmd.name) = some spec ∧
    spec.minArgs ≤ cmd.args.length ∧ cmd.args.length ≤ spec.maxArgs

lemma clusteredOp_of_mem {name : Bytes} (h : name ∈ clientCommands) {spec : CommandSpec}
    (hspec : commands name = some spec) : spec.clusteredOp = true := by
  have hall : ∀ name ∈ clientCommands, (commands name).all (·.clusteredOp) = true := by
    decide +kernel
  simpa [hspec] using hall name h

lemma handle_moved {h : Handler σ} {r : Router} (hr : h.router = some r) {cmd : Command}
    (hname : toUpper cmd.name ∈ clientCommands) (hadm : Admitted cmd) {owner : Bytes}
    (howner : r.owner (cmd.args.getD 0 []) = some owner) (hne : owner ≠ r.self) (amb : Ambient) :
    handle H h amb cmd = (some (.error (ascii "MOVED " ++ owner)), h) := by
  obtain ⟨spec, hspec, hmin, hmax⟩ := hadm
  have hcl := clusteredOp_of_mem hname hspec
  have hlocal : r.isLocal (cmd.args.getD 0 []) = false := by
    rw [Router.isLocal, howner]
    simpa using hne
  have hredirect : redirect h spec (cmd.args.getD 0 []) = some owner := by
    simp only [redirect, hr, hcl, hlocal, howner, Bool.not_false, Bool.and_self, if_true]
  have hargs : ¬ (cmd.args.length < spec.minArgs ∨ cmd.args.length > spec.maxArgs) := by omega
  simp only [handle, hspec, if_neg hargs, hredirect]

/-- **All members route alike.** Whatever the order in which each of them enumerates the members
and whatever its sort does with equal hashes, there is one owner of a key: every member knows it
and puts it first in the same replica list, it alone takes the key for its own, and the others
send the clients there. -/
theorem members_route_alike {replicas : ℕ} (hpos : 0 < replicas) {ids : List Bytes} (hne : ids ≠ [])
    (hapart : HashesApart replicas ids) (alive : Bytes → List Bytes)
    (halive : ∀ id ∈ ids, (alive id).Perm ids) (s : Bytes → SortFunc) (key : Bytes) :
    let router id : Router := { self := id, ring := rebuild replicas (s id) (alive id) }
    ∃ owner ∈ ids,
      (∀ id ∈ ids, (router id).owner key = some owner) ∧
      (∀ n, 1 ≤ n → ∃ rest, ∀ id ∈ ids, (router id).owners key n = owner :: rest) ∧
      (∀ id ∈ ids, (router id).isLocal key = true ↔ id = owner) ∧
      ∀ id ∈ ids, id ≠ owner → ∀ h : Handler σ, h.router = some (router id) →
        ∀ (amb : Ambient) (cmd : Command), toUpper cmd.name ∈ clientCommands → Admitted cmd →
        cmd.args.head? = some key →
        handle H h amb cmd = (some (.error (ascii "MOVED " ++ owner)), h) := by
  intro router
  -- all of them have built the ring of the first
  obtain ⟨first, hfirst⟩ := List.exists_mem_of_ne_nil ids hne
  have hring : ∀ id ∈ ids, (router id).ring = rebuild replicas (s first) ids := fun id hid =>
    (rebuild_eq_of_perm (halive id hid).symm hapart (s first) (s id)).symm
  have hpoints : (rebuild replicas (s first) ids).points.length ≠ 0 := by
    have hmem : (⟨hashStr (first ++ [35] ++ itoa 0), first⟩ : Point) ∈
        (rebuild replicas (s first) ids).points := mem_rebuild_iff.mpr ⟨hfirst, 0, hpos, rfl⟩
    exact (List.length_pos_of_mem hmem).ne'
  obtain ⟨p, hp, hget, hgetN⟩ := exists_owner hpoints key
  have howner : ∀ id ∈ ids, (router id).owner key = some p.node := by
    intro id hid
    rw [Router.owner, hring id hid, hget]
  refine ⟨p.node, (mem_rebuild_iff.mp hp).1, howner, ?_, ?_, ?_⟩
  · intro n hn
    obtain ⟨rest, hrest⟩ := hgetN n hn
    exact ⟨rest, fun id hid => by rw [Router.owners, hring id hid, hrest]⟩
  · intro id hid
    rw [Router.isLocal, howner id hid, decide_eq_true_iff, Option.some.injEq]
    exact eq_comm
  · intro id hid hother h hr amb cmd hname hadm hkey
    have hkey' : cmd.args.getD 0 [] = key := by
      rw [List.getD_eq_getElem?_getD, ← List.head?_eq_getElem?, hkey, Option.getD_some]
    exact handle_moved H hr hname hadm (by rw [hkey']; exact howner id hid) (Ne.symm hother) amb

/-- Two nodes with one point each, of which the second enumerates the members the other way
round. -/
theorem members_route_alike_two :
    (0 < 1 ∧ HashesApart 1 [[65], [66]]) ∧
    ∃ owner ∈ [[65], [66]], ∀ id ∈ [[65], [66]],
      Router.owner ⟨id, rebuild 1 SortFunc.insertion
        (if id = [65] then [[65], [66]] else [[66], [65]])⟩ [107] = some owner := by
  have hapart : HashesApart 1 [[65], [66]] := by
    intro a ha b hb hab i hi j hj
    obtain rfl : i = 0 := by omega
    obtain rfl : j = 0 := by omega
    revert a b
    decide +kernel
  have halive : ∀ id ∈ ([[65], [66]] : List Bytes),
      (if id = [65] then ([[65], [66]] : List Bytes) else [[66], [65]]).Perm [[65], [66]] := by
    decide
  obtain ⟨owner, hmem, howner, -⟩ := members_route_alike (σ := Unit) sha256 one_pos
    (List.cons_ne_nil [65] [[66]]) hapart _ halive (fun _ => SortFunc.insertion) [107]
  exact ⟨⟨one_pos, hapart⟩, owner, hmem, howner⟩

end Kyria.Server
