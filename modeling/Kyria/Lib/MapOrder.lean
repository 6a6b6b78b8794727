import Mathlib

/-!
The order in which a program visits the entries of a hash map.

A language may leave that order open and choose it afresh at every visit. A `VisitOrder`
is one way of making all these choices: for the `i`-th visit of a computation, a
permutation of the entries.
-/

namespace Kyria.Lib.MapOrder

open Std

structure VisitOrder (α : Type) where
  visit : ℕ → List α → List α
  perm : ∀ i l, (visit i l).Perm l

variable {α K V : Type}

instance : Inhabited (VisitOrder α) := ⟨⟨fun _ l => l, fun _ _ => .refl _⟩⟩

/-- Every visit runs the other way round. -/
def VisitOrder.reversed : VisitOrder α := ⟨fun _ l => l.reverse, fun _ l => l.reverse_perm⟩

/-- Every visit begins with `x`, if that is there. -/
def VisitOrder.toFront [DecidableEq α] (x : α) : VisitOrder α where
  visit _ l := if x ∈ l then x :: l.erase x else l
  perm _ l := by
    split_ifs with hx
    · exact (List.perm_cons_erase hx).symm
    · exact .refl l

@[simp] lemma VisitOrder.mem_visit (o : VisitOrder α) (i : ℕ) (l : List α) (x : α) :
    x ∈ o.visit i l ↔ x ∈ l := (o.perm i l).mem_iff

@[simp] lemma VisitOrder.length_visit (o : VisitOrder α) (i : ℕ) (l : List α) :
    (o.visit i l).length = l.length := (o.perm i l).length_eq

lemma VisitOrder.visit_eq_self (o : VisitOrder α) (i : ℕ) {l : List α} (h : l.length ≤ 1) :
    o.visit i l = l := by
  rcases l with _ | ⟨a, _ | ⟨b, t⟩⟩
  · exact (o.perm i []).eq_nil
  · exact List.perm_singleton.mp (o.perm i [a])
  · simp at h

variable [Ord K] [TransOrd K]

lemma distinct_of_perm {m : ExtTreeMap K V} {l : List (K × V)} (h : l.Perm m.toList) :
    l.Pairwise fun a b => ¬ compare a.1 b.1 = .eq := by
  refine (h.pairwise_iff fun {a b} hab hba => hab ?_).mpr m.distinct_keys_toList
  exact OrientedCmp.eq_symm hba

lemma VisitOrder.nodup_keys [LawfulEqOrd K] (o : VisitOrder (K × V)) (i : ℕ)
    (m : ExtTreeMap K V) : ((o.visit i m.toList).map Prod.fst).Nodup := by
  rw [((o.perm i m.toList).map Prod.fst).nodup_iff, ExtTreeMap.map_fst_toList_eq_keys]
  exact m.nodup_keys

variable [LawfulEqOrd K] [DecidableEq K]

lemma getElem?_foldl_insert {l : List (K × V)}
    (h : l.Pairwise fun a b => ¬ compare a.1 b.1 = .eq) {k : K} {v : V} :
    (l.foldl (fun c e => c.insert e.1 e.2) (∅ : ExtTreeMap K V))[k]? = some v ↔ (k, v) ∈ l := by
  rw [← ExtTreeMap.ofList_eq_foldl]
  constructor
  · intro hv
    by_cases hk : ∃ w, (k, w) ∈ l
    · obtain ⟨w, hw⟩ := hk
      rw [ExtTreeMap.getElem?_ofList_of_mem compare_self h hw, Option.some.injEq] at hv
      exact hv ▸ hw
    · rw [ExtTreeMap.getElem?_ofList_of_contains_eq_false (by simpa using hk)] at hv
      cases hv
  · exact fun hv => ExtTreeMap.getElem?_ofList_of_mem compare_self h hv

lemma foldl_insert_of_perm {m : ExtTreeMap K V} {l : List (K × V)} (h : l.Perm m.toList) :
    l.foldl (fun c e => c.insert e.1 e.2) (∅ : ExtTreeMap K V) = m := by
  refine ExtTreeMap.ext_getElem? fun k => Option.ext fun v => ?_
  rw [getElem?_foldl_insert (distinct_of_perm h)]
  exact h.mem_iff.trans ExtTreeMap.mem_toList_iff_getElem?_eq_some

end Kyria.Lib.MapOrder
