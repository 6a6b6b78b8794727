import Mathlib.Data.List.Basic
import Mathlib.Data.List.Nodup
import Mathlib.Data.Finset.Card

/-!
The first occurrences in a list, in the order in which they are met.

Where every element carries a label and the elements come in the order of some rank, the labels
are met in the order of the least rank each of them has.
-/

namespace Kyria.Lib.FirstSeen

variable {ι α : Type} [DecidableEq α]

lemma filter_induction {β : Type} {motive : List β → Prop} (nil : motive [])
    (cons : ∀ a L, (∀ p, motive (L.filter p)) → motive (a :: L)) (L : List β) : motive L := by
  induction h : L.length using Nat.strong_induction_on generalizing L with
  | _ n ih =>
    cases L with
    | nil => exact nil
    | cons a L =>
      refine cons a L fun p => ih _ ?_ _ rfl
      have hle := List.length_filter_le p L
      rw [List.length_cons] at h
      omega

lemma take_filter_ne {L : List α} (hL : L.Nodup) (c : α) (n : ℕ) :
    (L.filter (· ≠ c)).take n = ((L.take (n + 1)).filter (· ≠ c)).take n := by
  induction L generalizing n with
  | nil => simp
  | cons a L ih =>
    obtain ⟨ha, hL⟩ := List.nodup_cons.mp hL
    by_cases hac : a = c
    · subst hac
      have hkeep : ∀ k, (L.take k).filter (· ≠ a) = L.take k := by
        intro k
        refine List.filter_eq_self.mpr fun b hb => decide_eq_true ?_
        rintro rfl
        exact ha (List.mem_of_mem_take hb)
      have hall := hkeep L.length
      rw [List.take_length] at hall
      rw [List.take_succ_cons, List.filter_cons_of_neg (by simp), List.filter_cons_of_neg (by simp),
        hall, hkeep, List.take_take, min_self]
    · cases n with
      | zero => rfl
      | succ n =>
        rw [List.take_succ_cons, List.filter_cons_of_pos (by simpa using hac),
          List.filter_cons_of_pos (by simpa using hac), List.take_succ_cons, List.take_succ_cons,
          ih hL]

variable [BEq α] [LawfulBEq α]

lemma eraseDups_cons_ne (a : α) (L : List α) :
    (a :: L).eraseDups = a :: (L.filter (· ≠ a)).eraseDups := by
  rw [List.eraseDups_cons]
  congr 3
  funext b
  rw [Bool.eq_iff_iff]
  simp

lemma nodup_eraseDups (L : List α) : L.eraseDups.Nodup := by
  induction L using filter_induction with
  | nil => simp
  | cons a L ih =>
    rw [eraseDups_cons_ne, List.nodup_cons]
    exact ⟨by simp [List.mem_eraseDups], ih _⟩

lemma eraseDups_filter (p : α → Bool) (L : List α) :
    (L.filter p).eraseDups = L.eraseDups.filter p := by
  induction L using filter_induction with
  | nil => rfl
  | cons a L ih =>
    rw [eraseDups_cons_ne]
    by_cases hp : p a = true
    · rw [List.filter_cons_of_pos hp, List.filter_cons_of_pos hp, eraseDups_cons_ne,
        List.filter_filter, ← ih, List.filter_filter]
      simp only [Bool.and_comm]
    · -- what passes is not the label that is dropped
      have hdrop : (L.filter (· ≠ a)).filter p = L.filter p := by
        rw [List.filter_filter]
        refine List.filter_congr fun b _ => ?_
        by_cases hb : b = a
        · simp [hb, hp]
        · simp [hb]
      rw [List.filter_cons_of_neg hp, List.filter_cons_of_neg hp, ← ih, hdrop]

lemma length_eraseDups (L : List α) : L.eraseDups.length = L.toFinset.card := by
  rw [← List.toFinset_card_of_nodup (nodup_eraseDups L)]
  congr 1
  ext a
  simp [List.mem_eraseDups]

/-- **Labels are met by their least rank.** -/
lemma pairwise_eraseDups_map (f : ι → α) (rank : ι → ℕ) {L : List ι}
    (hL : L.Pairwise fun x y => rank x ≤ rank y) :
    (L.map f).eraseDups.Pairwise fun a b =>
      ∃ x ∈ L, f x = a ∧ ∀ y ∈ L, f y = b → rank x ≤ rank y := by
  induction L using filter_induction with
  | nil => simp
  | cons x L ih =>
    obtain ⟨hx, htail⟩ := List.pairwise_cons.mp hL
    have hrest : (L.map f).filter (· ≠ f x) = (L.filter fun y => f y ≠ f x).map f := by
      rw [List.filter_map]
      rfl
    rw [List.map_cons, eraseDups_cons_ne, hrest, List.pairwise_cons]
    constructor
    · intro b _
      refine ⟨x, List.mem_cons_self, rfl, fun y hy _ => ?_⟩
      rcases List.mem_cons.mp hy with rfl | hy
      · exact le_rfl
      · exact hx y hy
    · refine (ih _ (htail.filter _)).imp_of_mem fun {a b} _ hb hab => ?_
      obtain ⟨z, hz, hza, hleast⟩ := hab
      have hbx : b ≠ f x := by
        obtain ⟨y, hy, rfl⟩ := List.mem_map.mp (List.mem_eraseDups.mp hb)
        simpa using (List.mem_filter.mp hy).2
      refine ⟨z, List.mem_cons_of_mem _ (List.mem_of_mem_filter hz), hza, fun y hy hyb => ?_⟩
      have hyL : y ∈ L := (List.mem_cons.mp hy).resolve_left fun h => hbx (h ▸ hyb).symm
      exact hleast y (List.mem_filter.mpr ⟨hyL, by simpa [hyb] using hbx⟩) hyb

lemma filter_append_filter {β : Type} (p : β → Bool) {L : List β}
    (hL : L.Pairwise fun x y => p x → p y) : L.filter (!p ·) ++ L.filter p = L := by
  induction L with
  | nil => rfl
  | cons x L ih =>
    obtain ⟨hx, hL⟩ := List.pairwise_cons.mp hL
    by_cases hp : p x = true
    · have hall : L.filter p = L := List.filter_eq_self.mpr fun y hy => hx y hy hp
      have hnone : L.filter (!p ·) = [] := List.filter_eq_nil_iff.mpr fun y hy => by
        simpa using hx y hy hp
      rw [List.filter_cons_of_neg (by simpa using hp), List.filter_cons_of_pos hp, hall, hnone,
        List.nil_append]
    · rw [List.filter_cons_of_pos (by simpa using hp), List.filter_cons_of_neg hp, List.cons_append,
        ih hL]

end Kyria.Lib.FirstSeen
