import Kyria.Lib.Maxima

/-!
Replicas that keep the causally maximal versions they have taken in.

Every version carries a clock, one counter for each replica. A replica mints a version on
top of what it holds, or takes in versions that exist elsewhere; it may also drop all it
holds. Between the replicas versions travel in a pool, from which they may be taken in any
number of times, late, or never. `minted` and `folded` record history: no step reads them.
-/

namespace Kyria.Lib.Causal

open Kyria.Lib.Maxima

structure Replicas (ι V : Type*) where
  sets : ι → List V
  pool : Set V
  minted : List (ι × V)
  folded : ι → Set V

inductive Label (ι V : Type*)
  | mint (n : ι) (v : V)
  | fold (n : ι) (vs : List V)
  | remove (n : ι)

variable {ι V : Type*}

/-- The versions some replica holds or the pool carries. -/
def Replicas.Exists (a : Replicas ι V) : Set V := {v | v ∈ a.pool ∨ ∃ n, v ∈ a.sets n}

lemma Replicas.exists_of_mem {a : Replicas ι V} {n : ι} {v : V} (h : v ∈ a.sets n) :
    v ∈ a.Exists := Or.inr ⟨n, h⟩

variable [DecidableEq ι] (clk : V → ι → ℕ)

/-- What a step may do: the pool may lose versions, and copy what exists unless a replica
drops what it holds. -/
def Takes (a : Replicas ι V) : Label ι V → Replicas ι V → Prop
  | .mint n v, a' =>
    a'.sets = Function.update a.sets n (absorb clk (a.sets n) v) ∧
    a'.folded = Function.update a.folded n (insert v (a.folded n)) ∧
    a'.minted = a.minted ++ [(n, v)] ∧ a'.pool ⊆ insert v a.Exists
  | .fold n vs, a' =>
    (∀ v ∈ vs, v ∈ a.Exists) ∧
    a'.sets = Function.update a.sets n (vs.foldl (absorb clk) (a.sets n)) ∧
    a'.folded = Function.update a.folded n (a.folded n ∪ {v | v ∈ vs}) ∧
    a'.minted = a.minted ∧ a'.pool ⊆ a.Exists
  | .remove n, a' =>
    a'.sets = Function.update a.sets n [] ∧ a'.minted = a.minted ∧ a'.pool ⊆ a.pool

/-- The clock of `v` continues those of `S` by one more event of replica `n`. -/
structure Fresh (S : List V) (n : ι) (v : V) : Prop where
  above : ∀ w ∈ S, clk w ≤ clk v
  own : ∀ w ∈ S, clk w n < clk v n
  pos : 0 < clk v n
  rest : ∀ m, m ≠ n → clk v m = 0 ∨ ∃ w ∈ S, clk v m ≤ clk w m

/-- Replica `n` has seen all of its own events that `v` counts. -/
def OwnSeen (S : List V) (n : ι) (v : V) : Prop := clk v n = 0 ∨ ∃ w ∈ S, clk v n ≤ clk w n

variable {clk} {a a' : Replicas ι V} {l : Label ι V}

lemma Takes.exists_sub (h : Takes clk a l a') {v : V} (hv : v ∈ a'.Exists) :
    v ∈ a.Exists ∨ ∃ n, l = .mint n v := by
  have hset : ∀ {n : ι} {S : List V}, a'.sets = Function.update a.sets n S →
      (∃ m, v ∈ a'.sets m) → v ∈ S ∨ v ∈ a.Exists := by
    rintro n S hs ⟨m, hm⟩
    rw [hs] at hm
    by_cases hmn : m = n
    · subst hmn
      rw [Function.update_self] at hm
      exact Or.inl hm
    · rw [Function.update_of_ne hmn] at hm
      exact Or.inr (Replicas.exists_of_mem hm)
  cases l with
  | mint n x =>
    obtain ⟨hs, -, -, hp⟩ := h
    rcases hv with hv | hv
    · rcases hp hv with rfl | hv'
      · exact Or.inr ⟨n, rfl⟩
      · exact Or.inl hv'
    · rcases hset hs hv with hv' | hv'
      · rcases mem_absorb.mp hv' with ⟨hS, -⟩ | ⟨rfl, -⟩
        · exact Or.inl (Replicas.exists_of_mem hS)
        · exact Or.inr ⟨n, rfl⟩
      · exact Or.inl hv'
  | fold n vs =>
    obtain ⟨hvs, hs, -, -, hp⟩ := h
    refine Or.inl ?_
    rcases hv with hv | hv
    · exact hp hv
    · rcases hset hs hv with hv' | hv'
      · rcases mem_of_mem_foldl hv' with hS | hL
        · exact Replicas.exists_of_mem hS
        · exact hvs v hL
      · exact hv'
  | remove n =>
    obtain ⟨hs, -, hp⟩ := h
    refine Or.inl ?_
    rcases hv with hv | hv
    · exact Or.inl (hp hv)
    · rcases hset hs hv with hv' | hv'
      · simp at hv'
      · exact hv'

lemma Takes.covers (h : Takes clk a l a') {n : ι} (hl : l ≠ .remove n) {c : ι → ℕ}
    (hc : Covers clk (a.sets n) c) : Covers clk (a'.sets n) c := by
  cases l with
  | mint m x =>
    rw [h.1]
    by_cases hnm : n = m
    · subst hnm
      rw [Function.update_self]
      exact hc.absorb x
    · rwa [Function.update_of_ne hnm]
  | fold m vs =>
    rw [h.2.1]
    by_cases hnm : n = m
    · subst hnm
      rw [Function.update_self]
      exact hc.foldl vs
    · rwa [Function.update_of_ne hnm]
  | remove m =>
    have hnm : n ≠ m := by
      rintro rfl
      exact hl rfl
    rw [h.1, Function.update_of_ne hnm]
    exact hc

lemma Takes.ownSeen (h : Takes clk a l a') {n : ι} (hl : l ≠ .remove n) {v : V}
    (hv : OwnSeen clk (a.sets n) n v) : OwnSeen clk (a'.sets n) n v := by
  rcases hv with h0 | ⟨w, hw, hle⟩
  · exact Or.inl h0
  · obtain ⟨u, hu, hwu⟩ := h.covers hl (.of_mem hw)
    exact Or.inr ⟨u, hu, hle.trans (hwu n)⟩

lemma Takes.ownSeen_minted {n : ι} {v : V} (h : Takes clk a (.mint n v) a')
    (hf : Fresh clk (a.sets n) n v)
    (hown : ∀ k, ∀ u ∈ a.sets n, OwnSeen clk (a.sets k) k u) (k : ι) :
    OwnSeen clk (a'.sets k) k v := by
  by_cases hkn : k = n
  · subst hkn
    obtain ⟨u, hu, hle⟩ : Covers clk (absorb clk (a.sets k) v) (clk v) :=
      covers_absorb_self (a.sets k) v
    refine Or.inr ⟨u, ?_, hle k⟩
    rwa [h.1, Function.update_self]
  · rcases hf.rest k hkn with h0 | ⟨u, hu, hle⟩
    · exact Or.inl h0
    · rcases h.ownSeen (by simp) (hown k u hu) with h0 | ⟨x, hx, hux⟩
      · exact Or.inl (by omega)
      · exact Or.inr ⟨x, hx, hle.trans hux⟩

lemma Takes.mem_folded_mint {n : ι} {v : V} (h : Takes clk a (.mint n v) a') {m : ι} {w : V} :
    w ∈ a'.folded m ↔ w ∈ a.folded m ∨ (m = n ∧ w = v) := by
  rw [h.2.1]
  by_cases hmn : m = n
  · subst hmn
    simp [or_comm]
  · simp [hmn]

lemma Takes.mem_folded_fold {n : ι} {vs : List V} (h : Takes clk a (.fold n vs) a') {m : ι}
    {w : V} : w ∈ a'.folded m ↔ w ∈ a.folded m ∨ (m = n ∧ w ∈ vs) := by
  rw [h.2.2.1]
  by_cases hmn : m = n
  · subst hmn
    simp
  · simp [hmn]

lemma Takes.isMaxima (h : Takes clk a l a') (hl : ∀ n, l ≠ .remove n)
    (hmax : ∀ m, IsMaxima clk (a.sets m) (a.folded m)) (m : ι) :
    IsMaxima clk (a'.sets m) (a'.folded m) := by
  cases l with
  | mint n v =>
    rw [h.1, h.2.1]
    by_cases hmn : m = n
    · subst hmn
      rw [Function.update_self, Function.update_self]
      exact (hmax m).absorb v
    · rw [Function.update_of_ne hmn, Function.update_of_ne hmn]
      exact hmax m
  | fold n vs =>
    rw [h.2.1, h.2.2.1]
    by_cases hmn : m = n
    · subst hmn
      rw [Function.update_self, Function.update_self]
      exact (hmax m).foldl vs
    · rw [Function.update_of_ne hmn, Function.update_of_ne hmn]
      exact hmax m
  | remove n => exact absurd rfl (hl n)

/-! ### Runs in which nothing is dropped -/

variable (clk) in
structure Inv (a : Replicas ι V) : Prop where
  known : ∀ v ∈ a.Exists, ∃ m, (m, v) ∈ a.minted
  taken : ∀ n, ∀ v ∈ a.folded n, ∃ m, (m, v) ∈ a.minted
  origin : ∀ n v, (n, v) ∈ a.minted → v ∈ a.folded n
  maxima : ∀ n, IsMaxima clk (a.sets n) (a.folded n)
  own : ∀ n m v, (m, v) ∈ a.minted → OwnSeen clk (a.sets n) n v
  inj : ∀ p ∈ a.minted, ∀ q ∈ a.minted, clk p.2 = clk q.2 → p.2 = q.2

omit [DecidableEq ι] in
lemma Inv.fresh_ne (h : Inv clk a) {n m : ι} {v w : V} (hf : Fresh clk (a.sets n) n v)
    (hw : (m, w) ∈ a.minted) : clk w ≠ clk v := by
  intro he
  have hn := congrFun he n
  rcases h.own n m w hw with h0 | ⟨u, hu, hle⟩
  · have := hf.pos; omega
  · have := hf.own u hu; omega

lemma Inv.mint (h : Inv clk a) {n : ι} {v : V} (hs : Takes clk a (.mint n v) a')
    (hf : Fresh clk (a.sets n) n v) : Inv clk a' := by
  have hmem : ∀ m w, (m, w) ∈ a'.minted ↔ (m, w) ∈ a.minted ∨ (m = n ∧ w = v) := by
    intro m w
    rw [hs.2.2.1]
    simp
  have hold : ∀ {w}, (∃ m, (m, w) ∈ a.minted) → ∃ m, (m, w) ∈ a'.minted := by
    rintro w ⟨m, hm⟩
    exact ⟨m, (hmem m w).mpr (Or.inl hm)⟩
  have hnew : ∃ m, (m, v) ∈ a'.minted := ⟨n, (hmem n v).mpr (Or.inr ⟨rfl, rfl⟩)⟩
  refine ⟨?_, ?_, ?_, hs.isMaxima (by simp) h.maxima, ?_, ?_⟩
  · intro w hw
    rcases hs.exists_sub hw with hw' | ⟨m, hm⟩
    · exact hold (h.known w hw')
    · cases hm
      exact hnew
  · intro m w hw
    rcases hs.mem_folded_mint.mp hw with hw' | ⟨-, rfl⟩
    · exact hold (h.taken m w hw')
    · exact hnew
  · intro m w hw
    exact hs.mem_folded_mint.mpr (((hmem m w).mp hw).imp_left (h.origin m w))
  · intro k m w hw
    rcases (hmem m w).mp hw with hw' | ⟨rfl, rfl⟩
    · exact hs.ownSeen (by simp) (h.own k m w hw')
    · refine hs.ownSeen_minted hf (fun k u hu => ?_) k
      obtain ⟨j, hj⟩ := h.known u (Replicas.exists_of_mem hu)
      exact h.own k j u hj
  · intro p hp q hq he
    rcases (hmem p.1 p.2).mp hp with hp' | ⟨-, hpv⟩ <;>
      rcases (hmem q.1 q.2).mp hq with hq' | ⟨-, hqv⟩
    · exact h.inj p hp' q hq' he
    · rw [hqv] at he
      exact absurd he (h.fresh_ne hf hp')
    · rw [hpv] at he
      exact absurd he.symm (h.fresh_ne hf hq')
    · rw [hpv, hqv]

lemma Inv.fold (h : Inv clk a) {n : ι} {vs : List V} (hs : Takes clk a (.fold n vs) a') :
    Inv clk a' := by
  have hmint : a'.minted = a.minted := hs.2.2.2.1
  refine ⟨?_, ?_, ?_, hs.isMaxima (by simp) h.maxima, ?_, ?_⟩
  · intro w hw
    rw [hmint]
    rcases hs.exists_sub hw with hw' | ⟨m, hm⟩
    · exact h.known w hw'
    · cases hm
  · intro m w hw
    rw [hmint]
    rcases hs.mem_folded_fold.mp hw with hw' | ⟨-, hw'⟩
    · exact h.taken m w hw'
    · exact h.known w (hs.1 w hw')
  · intro m w hw
    rw [hmint] at hw
    exact hs.mem_folded_fold.mpr (Or.inl (h.origin m w hw))
  · intro k m w hw
    rw [hmint] at hw
    exact hs.ownSeen (by simp) (h.own k m w hw)
  · rw [hmint]
    exact h.inj

omit [DecidableEq ι] in
/-- What a replica has taken in stays unless something minted supersedes it. -/
theorem Inv.kept (h : Inv clk a) {n : ι} {v : V} (hv : v ∈ a.folded n)
    (hmax : ∀ m w, (m, w) ∈ a.minted → ¬ clk v < clk w) : v ∈ a.sets n := by
  obtain ⟨u, hu, hle⟩ := (h.maxima n).covers v hv
  obtain ⟨m, hm⟩ := h.known u (Replicas.exists_of_mem hu)
  obtain ⟨k, hk⟩ := h.taken n v hv
  have he : clk v = clk u := by
    by_contra hne
    exact hmax m u hm (lt_of_le_of_ne hle hne)
  have hvu : v = u := h.inj (k, v) hk (m, u) hm he
  exact hvu ▸ hu

omit [DecidableEq ι] in
/-- **Replicas that have taken in the same versions hold the same versions.** -/
theorem Inv.agree (h : Inv clk a) {n m : ι} (he : a.folded n = a.folded m) :
    (a.sets n).Perm (a.sets m) := by
  refine (h.maxima n).perm (he ▸ h.maxima m) fun v hv w hw hvw => ?_
  obtain ⟨i, hi⟩ := h.taken n v hv
  obtain ⟨j, hj⟩ := h.taken n w hw
  exact h.inj (i, v) hi (j, w) hj hvw

/-! ### Runs in which replicas may drop what they hold -/

variable (clk) in
/-- Every replica has seen all of its own events that existing versions count. -/
def Dominates (a : Replicas ι V) : Prop := ∀ n, ∀ v ∈ a.Exists, OwnSeen clk (a.sets n) n v

omit [DecidableEq ι] in
/-- **A fresh version is behind nothing that exists.** -/
theorem Dominates.fresh_not_le (h : Dominates clk a) {n : ι} {v w : V}
    (hf : Fresh clk (a.sets n) n v) (hw : w ∈ a.Exists) : ¬ clk v ≤ clk w := by
  intro hle
  have hn : clk v n ≤ clk w n := hle n
  rcases h n w hw with h0 | ⟨u, hu, hwu⟩
  · have := hf.pos; omega
  · have := hf.own u hu; omega

lemma Dominates.mint (h : Dominates clk a) {n : ι} {v : V} (hs : Takes clk a (.mint n v) a')
    (hf : Fresh clk (a.sets n) n v) : Dominates clk a' := by
  intro k w hw
  rcases hs.exists_sub hw with hw' | ⟨m, hm⟩
  · exact hs.ownSeen (by simp) (h k w hw')
  · cases hm
    exact hs.ownSeen_minted hf (fun k u hu => h k u (Replicas.exists_of_mem hu)) k

lemma Dominates.fold (h : Dominates clk a) {n : ι} {vs : List V}
    (hs : Takes clk a (.fold n vs) a') : Dominates clk a' := by
  intro k w hw
  rcases hs.exists_sub hw with hw' | ⟨m, hm⟩
  · exact hs.ownSeen (by simp) (h k w hw')
  · cases hm

lemma Dominates.remove (h : Dominates clk a) {n : ι} (hs : Takes clk a (.remove n) a')
    (hn : ∀ v, (v ∈ a.pool ∨ ∃ m, m ≠ n ∧ v ∈ a.sets m) → clk v n = 0) : Dominates clk a' := by
  intro k w hw
  by_cases hkn : k = n
  · subst hkn
    refine Or.inl (hn w ?_)
    rcases hw with hw | ⟨m, hm⟩
    · exact Or.inl (hs.2.2 hw)
    · rw [hs.1] at hm
      by_cases hmk : m = k
      · subst hmk
        simp at hm
      · rw [Function.update_of_ne hmk] at hm
        exact Or.inr ⟨m, hmk, hm⟩
  · rcases hs.exists_sub hw with hw' | ⟨m, hm⟩
    · refine hs.ownSeen ?_ (h k w hw')
      rintro ⟨⟩
      exact hkn rfl
    · cases hm

end Kyria.Lib.Causal
