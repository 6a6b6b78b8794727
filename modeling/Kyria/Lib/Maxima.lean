import Mathlib

/-!
Keeping the maximal elements of a growing set in a list.

Elements are compared by a key in a partial order. `absorb` takes one more element in: it
drops what the new element supersedes and adds it unless something at or above it is
already there. Whatever the order in which a set is absorbed, and however often an element
comes again, the list holds the maximal elements of the set.
-/

namespace Kyria.Lib.Maxima

variable {α C : Type*} [PartialOrder C] (key : α → C)

/-- Some element of the list is at or above `c`. -/
def Covers (S : List α) (c : C) : Prop := ∃ v ∈ S, c ≤ key v

/-- No two elements of the list are comparable. -/
def Antichain (S : List α) : Prop := S.Pairwise fun v w => ¬ key v ≤ key w ∧ ¬ key w ≤ key v

open Classical in
noncomputable def absorb (S : List α) (x : α) : List α :=
  S.filter (fun v => ¬ key v < key x) ++ if Covers key S (key x) then [] else [x]

variable {key}

lemma mem_absorb {S : List α} {x v : α} :
    v ∈ absorb key S x ↔ (v ∈ S ∧ ¬ key v < key x) ∨ (v = x ∧ ¬ Covers key S (key x)) := by
  classical
  unfold absorb
  rw [List.mem_append, List.mem_filter]
  split_ifs with h <;> simp [h]

lemma Covers.trans {S : List α} {c d : C} (hc : c ≤ d) (h : Covers key S d) : Covers key S c := by
  obtain ⟨v, hv, hd⟩ := h
  exact ⟨v, hv, hc.trans hd⟩

lemma Covers.of_mem {S : List α} {v : α} (h : v ∈ S) : Covers key S (key v) := ⟨v, h, le_rfl⟩

lemma covers_absorb_self (S : List α) (x : α) : Covers key (absorb key S x) (key x) := by
  by_cases h : Covers key S (key x)
  · obtain ⟨v, hv, hx⟩ := h
    exact ⟨v, mem_absorb.mpr (Or.inl ⟨hv, not_lt_of_ge hx⟩), hx⟩
  · exact ⟨x, mem_absorb.mpr (Or.inr ⟨rfl, h⟩), le_rfl⟩

lemma Covers.absorb {S : List α} {c : C} (h : Covers key S c) (x : α) :
    Covers key (absorb key S x) c := by
  obtain ⟨v, hv, hc⟩ := h
  by_cases hlt : key v < key x
  · exact (covers_absorb_self S x).trans (hc.trans hlt.le)
  · exact ⟨v, mem_absorb.mpr (Or.inl ⟨hv, hlt⟩), hc⟩

lemma Covers.foldl {S : List α} {c : C} (h : Covers key S c) (L : List α) :
    Covers key (L.foldl (Maxima.absorb key) S) c := by
  induction L generalizing S with
  | nil => exact h
  | cons x L ih => exact ih (h.absorb x)

lemma covers_foldl_of_mem {S L : List α} {x : α} (h : x ∈ L) :
    Covers key (L.foldl (absorb key) S) (key x) := by
  induction L generalizing S with
  | nil => simp at h
  | cons y L ih =>
    rcases List.mem_cons.mp h with rfl | h'
    · exact (covers_absorb_self S x).foldl L
    · exact ih h'

lemma mem_of_mem_foldl {S L : List α} {v : α} (h : v ∈ L.foldl (absorb key) S) :
    v ∈ S ∨ v ∈ L := by
  induction L generalizing S with
  | nil => exact Or.inl h
  | cons y L ih =>
    rcases ih h with h' | h'
    · rcases mem_absorb.mp h' with ⟨hS, -⟩ | ⟨rfl, -⟩
      · exact Or.inl hS
      · exact Or.inr (by simp)
    · exact Or.inr (by simp [h'])

lemma Antichain.absorb {S : List α} (h : Antichain key S) (x : α) :
    Antichain key (absorb key S x) := by
  classical
  unfold Maxima.absorb Antichain
  refine List.pairwise_append.mpr ⟨List.Pairwise.sublist List.filter_sublist h, ?_, ?_⟩
  · split_ifs <;> simp
  · intro v hv w hw
    rw [List.mem_filter, decide_eq_true_eq] at hv
    split_ifs at hw with hcov
    · simp at hw
    · rw [List.mem_singleton] at hw
      subst hw
      have hx : ¬ key w ≤ key v := fun hle => hcov ⟨v, hv.1, hle⟩
      exact ⟨fun hle => hv.2 (lt_of_le_not_ge hle hx), hx⟩

lemma Antichain.foldl {S : List α} (h : Antichain key S) (L : List α) :
    Antichain key (L.foldl (Maxima.absorb key) S) := by
  induction L generalizing S with
  | nil => exact h
  | cons x L ih => exact ih (h.absorb x)

lemma Antichain.nodup {S : List α} (h : Antichain key S) : S.Nodup := by
  refine List.Pairwise.imp (fun {v w} hvw => ?_) h
  rintro rfl
  exact hvw.1 le_rfl

lemma Antichain.eq_of_le {S : List α} (h : Antichain key S) {v w : α} (hv : v ∈ S) (hw : w ∈ S)
    (hle : key v ≤ key w) : v = w := by
  by_contra hne
  have : Std.Symm fun v w => ¬ key v ≤ key w ∧ ¬ key w ≤ key v := ⟨fun _ _ hab => hab.symm⟩
  exact (List.Pairwise.forall h hv hw hne).1 hle

variable (key) in
/-- The list holds maximal elements of the set, one for each element of the set. -/
structure IsMaxima (S : List α) (F : Set α) : Prop where
  sub : ∀ v ∈ S, v ∈ F
  covers : ∀ v ∈ F, Covers key S (key v)
  antichain : Antichain key S

lemma IsMaxima.nil : IsMaxima key [] (∅ : Set α) := ⟨by simp, by simp, List.Pairwise.nil⟩

lemma Antichain.isMaxima {S : List α} (h : Antichain key S) : IsMaxima key S {v | v ∈ S} :=
  ⟨fun _ hv => hv, fun _ hv => .of_mem hv, h⟩

lemma IsMaxima.absorb {S : List α} {F : Set α} (h : IsMaxima key S F) (x : α) :
    IsMaxima key (absorb key S x) (insert x F) where
  sub v hv := by
    rcases mem_absorb.mp hv with ⟨hS, -⟩ | ⟨rfl, -⟩
    · exact Set.mem_insert_of_mem _ (h.sub v hS)
    · exact Set.mem_insert _ _
  covers v hv := by
    rcases hv with rfl | hv
    · exact covers_absorb_self S v
    · exact (h.covers v hv).absorb x
  antichain := h.antichain.absorb x

/-- **Absorbing a list keeps the maxima of everything absorbed.** -/
theorem IsMaxima.foldl {S : List α} {F : Set α} (h : IsMaxima key S F) (L : List α) :
    IsMaxima key (L.foldl (Maxima.absorb key) S) (F ∪ {x | x ∈ L}) := by
  induction L generalizing S F with
  | nil => simpa using h
  | cons x L ih =>
    have e : F ∪ {y | y ∈ x :: L} = insert x F ∪ {y | y ∈ L} := by
      ext y
      simp only [Set.mem_union, Set.mem_ofPred_eq, List.mem_cons, Set.mem_insert_iff]
      tauto
    rw [e]
    exact ih (h.absorb x)

lemma IsMaxima.not_lt {S : List α} {F : Set α} (h : IsMaxima key S F) {v w : α} (hv : v ∈ S)
    (hw : w ∈ F) : ¬ key v < key w := by
  intro hlt
  obtain ⟨u, hu, hle⟩ := h.covers w hw
  have hvu := h.antichain.eq_of_le hv hu (hlt.le.trans hle)
  subst hvu
  exact absurd hle (not_le_of_gt hlt)

lemma IsMaxima.absorb_of_mem {S : List α} {F : Set α} (h : IsMaxima key S F) {x : α}
    (hx : x ∈ F) : Maxima.absorb key S x = S := by
  classical
  have hkeep : ∀ v ∈ S, decide (¬ key v < key x) = true := by
    intro v hv
    simpa using h.not_lt hv hx
  unfold Maxima.absorb
  rw [if_pos (h.covers x hx), List.append_nil]
  convert List.filter_eq_self.mpr hkeep

lemma IsMaxima.foldl_of_mem {S : List α} {F : Set α} (h : IsMaxima key S F) {L : List α}
    (hL : ∀ x ∈ L, x ∈ F) : L.foldl (Maxima.absorb key) S = S := by
  induction L with
  | nil => rfl
  | cons x L ih =>
    rw [List.foldl_cons, h.absorb_of_mem (hL x (by simp))]
    exact ih fun y hy => hL y (by simp [hy])

lemma Antichain.foldl_of_keys {S L : List α} (h : Antichain key S)
    (hL : ∀ x ∈ L, ∃ v ∈ S, key v = key x) : L.foldl (Maxima.absorb key) S = S := by
  have hmax : IsMaxima key S {x | ∃ v ∈ S, key v = key x} :=
    ⟨fun v hv => ⟨v, hv, rfl⟩, fun _ ⟨v, hv, heq⟩ => ⟨v, hv, heq.ge⟩, h⟩
  exact hmax.foldl_of_mem hL

lemma IsMaxima.existsUnique {S : List α} {F : Set α} (h : IsMaxima key S F) {v : α} (hv : v ∈ F)
    (hmax : ∀ w ∈ F, ¬ key v < key w) : ∃! u, u ∈ S ∧ key u = key v := by
  obtain ⟨u, hu, hle⟩ := h.covers v hv
  have heq : key v = key u := by
    by_contra hne
    exact hmax u (h.sub u hu) (lt_of_le_of_ne hle hne)
  refine ⟨u, ⟨hu, heq.symm⟩, ?_⟩
  rintro w ⟨hw, hwv⟩
  exact h.antichain.eq_of_le hw hu (hwv.trans heq).le

/-- Where equal keys mean equal elements, the list holds all maximal elements. -/
theorem IsMaxima.mem_iff {S : List α} {F : Set α} (h : IsMaxima key S F) (hinj : F.InjOn key)
    (v : α) : v ∈ S ↔ v ∈ F ∧ ∀ w ∈ F, ¬ key v < key w := by
  constructor
  · intro hv
    exact ⟨h.sub v hv, fun w hw => h.not_lt hv hw⟩
  · rintro ⟨hvF, hmax⟩
    obtain ⟨u, ⟨hu, heq⟩, -⟩ := h.existsUnique hvF hmax
    rw [← hinj (h.sub u hu) hvF heq]
    exact hu

/-- **Two lists that keep the maxima of one set agree up to order** in whatever the key
determines and is determined by. -/
theorem IsMaxima.perm_map {β : Type*} {S T : List α} {F : Set α} {f : α → β}
    (hS : IsMaxima key S F) (hT : IsMaxima key T F)
    (hf : ∀ v ∈ F, ∀ w ∈ F, key v = key w → f v = f w)
    (hkey : ∀ v w, f v = f w → key v = key w) : (S.map f).Perm (T.map f) := by
  have hnodup : ∀ U, Antichain key U → (U.map f).Nodup := fun U hU =>
    List.Nodup.map_on (fun v hv w hw hvw => hU.eq_of_le hv hw (hkey v w hvw).le) hU.nodup
  have hsub : ∀ U V, IsMaxima key U F → IsMaxima key V F → ∀ b ∈ U.map f, b ∈ V.map f := by
    intro U V hU hV b hb
    obtain ⟨v, hv, rfl⟩ := List.mem_map.mp hb
    obtain ⟨u, ⟨hu, heq⟩, -⟩ := hV.existsUnique (hU.sub v hv) fun w hw => hU.not_lt hv hw
    exact List.mem_map.mpr ⟨u, hu, hf u (hV.sub u hu) v (hU.sub v hv) heq⟩
  exact (List.perm_ext_iff_of_nodup (hnodup S hS.antichain) (hnodup T hT.antichain)).mpr fun b =>
    ⟨hsub S T hS hT b, hsub T S hT hS b⟩

/-- Where equal keys mean equal elements, they hold the same elements. -/
theorem IsMaxima.perm {S T : List α} {F : Set α} (hS : IsMaxima key S F) (hT : IsMaxima key T F)
    (hinj : F.InjOn key) : S.Perm T := by
  have h := hS.perm_map hT (f := id) (fun v hv w hw hvw => hinj hv hw hvw) fun v w => congrArg key
  rwa [List.map_id, List.map_id] at h

/-! ### Two lists absorbed into each other -/

section Exchange

variable {S L : List α}

open Classical in
variable (key) in
/-- The elements of `S` that nothing in `L` is above. -/
noncomputable def undominated (S L : List α) : List α := S.filter fun v => ∀ x ∈ L, ¬ key v < key x

open Classical in
variable (key) in
/-- The elements of `L` that nothing in `S` is at or above. -/
noncomputable def uncovered (S L : List α) : List α := L.filter fun x => ¬ Covers key S (key x)

lemma mem_undominated {v : α} : v ∈ undominated key S L ↔ v ∈ S ∧ ∀ x ∈ L, ¬ key v < key x := by
  simp [undominated]

lemma mem_uncovered {x : α} : x ∈ uncovered key S L ↔ x ∈ L ∧ ¬ Covers key S (key x) := by
  simp [uncovered]

lemma covers_absorb_iff {x : α} {c : C} (hxc : ¬ key x ≤ c) (hcx : ¬ c ≤ key x) :
    Covers key (absorb key S x) c ↔ Covers key S c := by
  refine ⟨fun ⟨v, hv, hle⟩ => ?_, fun h => h.absorb x⟩
  rcases mem_absorb.mp hv with ⟨hS, -⟩ | ⟨rfl, -⟩
  · exact ⟨v, hS, hle⟩
  · exact absurd hle hcx

lemma filter_not_covers_eq_nil {T : List α} [DecidablePred fun x => Covers key S (key x)]
    (h : ∀ x ∈ T, x ∈ S) : T.filter (fun x => ¬ Covers key S (key x)) = [] :=
  List.filter_eq_nil_iff.mpr fun x hx => by simpa using Covers.of_mem (h x hx)

/-- What `S` does not cover is never dominated. -/
lemma filter_undominated [DecidablePred fun x => Covers key S (key x)] :
    (undominated key L S).filter (fun x => ¬ Covers key S (key x)) = uncovered key S L := by
  classical
  rw [undominated, List.filter_filter, uncovered]
  refine List.filter_congr fun x _ => ?_
  rw [← Bool.decide_and, decide_eq_decide]
  exact ⟨And.left, fun h => ⟨h, fun v hv hlt => h ⟨v, hv, hlt.le⟩⟩⟩

open Classical in
lemma undominated_absorb (S L : List α) (x : α) :
    undominated key (absorb key S x) L = undominated key S (x :: L) ++
      undominated key (if Covers key S (key x) then [] else [x]) L := by
  rw [undominated, absorb, List.filter_append, List.filter_filter, undominated, undominated]
  congr 1
  refine List.filter_congr fun v _ => ?_
  simp [Bool.and_comm]

lemma exists_foldl_absorb_eq (L S : List α) :
    ∃ T, (∀ x ∈ T, x ∈ L) ∧ L.foldl (absorb key) S = undominated key S L ++ T := by
  classical
  induction L generalizing S with
  | nil => exact ⟨[], by simp, by simp [undominated]⟩
  | cons x L ih =>
    obtain ⟨T, hT, heq⟩ := ih (absorb key S x)
    refine ⟨undominated key (if Covers key S (key x) then [] else [x]) L ++ T, fun y hy => ?_, ?_⟩
    · rcases List.mem_append.mp hy with hy | hy
      · have := (mem_undominated.mp hy).1
        split_ifs at this <;> simp_all
      · exact List.mem_cons_of_mem _ (hT y hy)
    · rw [List.foldl_cons, heq, undominated_absorb, List.append_assoc]

lemma foldl_absorb_eq (hL : Antichain key L) (S : List α) :
    L.foldl (absorb key) S = undominated key S L ++ uncovered key S L := by
  classical
  induction L generalizing S with
  | nil => simp [undominated, uncovered]
  | cons x L ih =>
    obtain ⟨hx, hL⟩ := List.pairwise_cons.mp hL
    have hrest : uncovered key (absorb key S x) L = uncovered key S L :=
      List.filter_congr fun y hy => by
        rw [decide_eq_decide, covers_absorb_iff (hx y hy).1 (hx y hy).2]
    have hstay : undominated key (if Covers key S (key x) then [] else [x]) L =
        if Covers key S (key x) then [] else [x] := by
      refine List.filter_eq_self.mpr fun v hv => decide_eq_true fun y hy hlt => ?_
      split_ifs at hv
      · cases hv
      · cases List.mem_singleton.mp hv
        exact (hx y hy).1 hlt.le
    rw [List.foldl_cons, ih hL, hrest, undominated_absorb, hstay, List.append_assoc]
    congr 1
    rw [uncovered, uncovered, List.filter_cons]
    split_ifs with hcov hnot hnot <;> simp_all

lemma foldl_foldl_absorb_eq (hS : Antichain key S) (hL : Antichain key L) :
    (L.foldl (absorb key) S).foldl (absorb key) L =
      undominated key L S ++ uncovered key L S := by
  classical
  have hmax := hS.isMaxima.foldl L
  rw [foldl_absorb_eq hmax.antichain]
  congr 1
  · refine List.filter_congr fun w hw => decide_eq_decide.mpr ⟨fun h v hv hlt => ?_, ?_⟩
    · obtain ⟨u, hu, hle⟩ := hmax.covers v (.inl hv)
      exact h u hu (hlt.trans_le hle)
    · intro h u hu hlt
      rcases mem_of_mem_foldl hu with hS' | hL'
      · exact h u hS' hlt
      · exact absurd (hL.eq_of_le hw hL' hlt.le ▸ hlt) (lt_irrefl _)
  · rw [foldl_absorb_eq hL, uncovered, List.filter_append, filter_undominated,
      filter_not_covers_eq_nil fun x hx => (mem_uncovered.mp hx).1, List.append_nil]

lemma eq_append_of_undominated (hL : Antichain key L)
    (h : undominated key S L <+: undominated key L S) :
    undominated key L S = undominated key S L ++ uncovered key S L ∧ uncovered key L S = [] := by
  classical
  obtain ⟨rest, hrest⟩ := h
  have hin : ∀ v ∈ undominated key S L, v ∈ L := fun v hv =>
    (mem_undominated.mp (hrest ▸ List.mem_append_left rest hv)).1
  have hnodup : (undominated key S L ++ rest).Nodup := hrest ▸ hL.nodup.filter _
  have hself : uncovered key L S = [] := by
    refine List.eq_nil_iff_forall_not_mem.mpr fun v hv => ?_
    obtain ⟨hvS, hvL⟩ := mem_uncovered.mp hv
    refine hvL (.of_mem (hin v (mem_undominated.mpr ⟨hvS, fun x hx hlt => ?_⟩)))
    exact hvL ⟨x, hx, hlt.le⟩
  refine ⟨?_, hself⟩
  rw [← hrest]
  congr 1
  rw [← filter_undominated, ← hrest, List.filter_append,
    filter_not_covers_eq_nil fun v hv => (mem_undominated.mp hv).1, List.nil_append, eq_comm,
    List.filter_eq_self]
  intro x hx
  have hxL := mem_undominated.mp (hrest ▸ List.mem_append_right _ hx)
  rw [decide_eq_true_eq]
  rintro ⟨v, hv, hle⟩
  have heq : key x = key v := hle.eq_of_not_lt (hxL.2 v hv)
  have hvU : v ∈ undominated key S L := by
    refine mem_undominated.mpr ⟨hv, fun y hy hlt => ?_⟩
    obtain rfl := hL.eq_of_le hxL.1 hy (heq ▸ hlt.le)
    exact (heq ▸ hlt).false
  obtain rfl := hL.eq_of_le hxL.1 (hin v hvU) hle
  exact (List.nodup_append.mp hnodup).2.2 x hvU x hx rfl

/-- **Two antichains absorbed into each other come out in one order exactly if** of what stays of
them one list begins the other. -/
theorem foldl_foldl_absorb_eq_iff (hS : Antichain key S) (hL : Antichain key L) :
    (L.foldl (absorb key) S).foldl (absorb key) L = L.foldl (absorb key) S ↔
      undominated key S L <+: undominated key L S ∨
        undominated key L S <+: undominated key S L := by
  rw [foldl_foldl_absorb_eq hS hL, foldl_absorb_eq hL]
  constructor
  · intro h
    exact List.prefix_or_prefix_of_prefix (List.prefix_append _ _) (h ▸ List.prefix_append _ _)
  · rintro (h | h)
    · obtain ⟨heq, hnil⟩ := eq_append_of_undominated hL h
      rw [hnil, List.append_nil, heq]
    · obtain ⟨heq, hnil⟩ := eq_append_of_undominated hS h
      rw [hnil, List.append_nil, heq]

lemma mem_foldl_absorb_iff (hS : Antichain key S) (hL : Antichain key L)
    (h : undominated key S L <+: undominated key L S ∨
      undominated key L S <+: undominated key S L) {v : α} :
    v ∈ L.foldl (absorb key) S ↔ v ∈ undominated key S L ∨ v ∈ undominated key L S := by
  rw [foldl_absorb_eq hL]
  rcases h with h | h
  · rw [← (eq_append_of_undominated hL h).1]
    exact (or_iff_right_of_imp fun hv => h.subset hv).symm
  · rw [(eq_append_of_undominated hS h).2, List.append_nil]
    exact (or_iff_left_of_imp fun hv => h.subset hv).symm

end Exchange

end Kyria.Lib.Maxima
