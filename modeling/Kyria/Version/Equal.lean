import Kyria.Version

/-!
What `Equal` decides (`internal/version/version.go`).

It compares lengths and looks every version of the one set up in the other, which would not do
for lists in general. In a sibling set no two versions share a clock, and there it says that the
two sets hold the same versions.
-/

namespace Kyria.Version

open Kyria.Lib.Cursor Kyria.Lib.Maxima Kyria.Vclock

/-- What makes a version the same as another one. -/
def identity (v : Version) : Bytes × (Bytes → ℕ) × Bool := (v.value, clk v, v.deleted)

lemma same_iff (v w : Version) : same v w = true ↔ identity v = identity w := by
  simp only [same, identity, Bool.and_eq_true, beq_iff_eq, compare_eq_equal_iff, Prod.mk.injEq,
    and_assoc]

/-- Equal clocks mean the same version. -/
def Consistent (vs : List Version) : Prop :=
  ∀ v ∈ vs, ∀ w ∈ vs, Clock.compare v.clock w.clock = .equal → same v w = true

instance (vs : List Version) : Decidable (Consistent vs) :=
  inferInstanceAs (Decidable (∀ v ∈ vs, ∀ w ∈ vs, _ → _))

lemma Consistent.mono {vs ws : List Version} (h : Consistent vs) (hsub : ws ⊆ vs) :
    Consistent ws := fun v hv w hw => h v (hsub hv) w (hsub hw)

lemma Consistent.identity_eq {vs : List Version} (h : Consistent vs) {v w : Version} (hv : v ∈ vs)
    (hw : w ∈ vs) (hclk : clk v = clk w) : identity v = identity w :=
  (same_iff v w).mp (h v hv w hw ((compare_eq_equal_iff v w).mpr hclk))

lemma nodup_identity {a : List Version} (ha : Siblings a) : (a.map identity).Nodup := by
  have hanti := (siblings_iff_antichain a).mp ha
  refine List.Nodup.map_on (fun v hv w hw hvw => ?_) hanti.nodup
  exact hanti.eq_of_le hv hw (congrArg (·.2.1) hvw).le

lemma all_found_iff {a b : List Version} :
    (∀ v ∈ a, ∃ w ∈ b, same v w = true) ↔ a.map identity ⊆ b.map identity := by
  constructor
  · intro h i hi
    obtain ⟨v, hv, rfl⟩ := List.mem_map.mp hi
    obtain ⟨w, hw, hsame⟩ := h v hv
    exact List.mem_map.mpr ⟨w, hw, ((same_iff v w).mp hsame).symm⟩
  · intro h v hv
    obtain ⟨w, hw, heq⟩ := List.mem_map.mp (h (List.mem_map_of_mem hv))
    exact ⟨w, hw, (same_iff v w).mpr heq.symm⟩

/-- **`Equal` is equality of sibling sets**, whatever their order. -/
theorem equal_iff_perm {a b : List Version} (ha : Siblings a) :
    equal a b = true ↔ (a.map identity).Perm (b.map identity) := by
  unfold equal
  split_ifs with hlen
  · refine iff_of_false (by simp) fun hperm => hlen ?_
    simpa using hperm.length_eq
  · simp only [List.all_eq_true, List.any_eq_true, all_found_iff]
    constructor
    · intro hsub
      refine ((nodup_identity ha).subperm hsub).perm_of_length_le ?_
      simp only [List.length_map]
      omega
    · exact fun hperm => hperm.subset

lemma perm_identity_iff {a b : List Version} :
    (a.map identity).Perm (b.map identity) ↔
      ∃ b', b'.Perm b ∧ List.Forall₂ (fun v w => v.value = w.value ∧ v.deleted = w.deleted ∧
        Clock.compare v.clock w.clock = .equal) a b' := by
  have hidentity : ∀ v w : Version, (v.value = w.value ∧ v.deleted = w.deleted ∧
      Clock.compare v.clock w.clock = .equal) ↔ identity v = identity w := by
    intro v w
    rw [compare_eq_equal_iff, identity, identity, Prod.mk.injEq, Prod.mk.injEq]
    tauto
  have hmap : ∀ b' : List Version, a.map identity = b'.map identity ↔
      List.Forall₂ (fun v w => identity v = identity w) a b' := by
    intro b'
    rw [← List.forall₂_eq_eq_eq, List.forall₂_map_left_iff, List.forall₂_map_right_iff]
  simp only [hidentity, ← hmap]
  constructor
  · intro h
    obtain ⟨b', heq, hperm⟩ := (congrFun₂ (List.eq_map_comp_perm identity) _ b).mpr h
    exact ⟨b', hperm, heq⟩
  · rintro ⟨b', hperm, heq⟩
    rw [heq]
    exact hperm.map identity

/-- **On antichains `Equal` is equality of sets.** It holds exactly if the versions of the one list
match those of the other in some order, by value, deletion and clock. Thus it is an equivalence
there, though it only looks up the versions of its first list in the second. -/
theorem equal_is_set_equality {a b : List Version} (ha : Siblings a) (hb : Siblings b) :
    (equal a b = true ↔
      ∃ b', b'.Perm b ∧ List.Forall₂ (fun v w => v.value = w.value ∧ v.deleted = w.deleted ∧
        Clock.compare v.clock w.clock = .equal) a b') ∧
    equal a a = true ∧ (equal a b = true → equal b a = true) ∧
    ∀ c, Siblings c → equal a b = true → equal b c = true → equal a c = true := by
  refine ⟨(equal_iff_perm ha).trans perm_identity_iff, equal_of_perm (.refl a), fun h => ?_,
    fun c _ hab hbc => ?_⟩
  · rw [equal_iff_perm hb]
    exact ((equal_iff_perm ha).mp h).symm
  · rw [equal_iff_perm ha]
    exact ((equal_iff_perm ha).mp hab).trans ((equal_iff_perm hb).mp hbc)

/-- Two concurrent versions, one a tombstone, in the other order and with a zero counter more. -/
theorem equal_is_set_equality_of_swapped :
    let v : Version := { value := [7], clock := (∅ : Clock).insert [1] 1 }
    let t : Version := tombstone ((∅ : Clock).insert [2] 1) 5
    let t' : Version := tombstone (((∅ : Clock).insert [2] 1).insert [3] 0) 9
    Siblings [v, t] ∧ Siblings [t', v] ∧ equal [v, t] [t', v] = true ∧
      equal [t', v] [v, t] = true := by
  intro v t t'
  have hvt : Siblings [v, t] := by decide
  have htv : Siblings [t', v] := by decide
  have hequal : equal [v, t] [t', v] = true := by decide
  exact ⟨hvt, htv, hequal, (equal_is_set_equality hvt htv).2.2.1 hequal⟩

/-- Of lists that are no antichains it is not symmetric. -/
example :
    let v : Version := { value := [7], clock := (∅ : Clock).insert [1] 1 }
    let w : Version := { value := [8], clock := (∅ : Clock).insert [2] 1 }
    equal [v, v] [v, w] = true ∧ equal [v, w] [v, v] = false := by
  decide

lemma equal_of_isMaxima {vs S T : List Version} (hS : IsMaxima clk S {v | v ∈ vs})
    (hT : IsMaxima clk T {v | v ∈ vs}) (h : Consistent vs) : equal S T = true :=
  (equal_iff_perm ((siblings_iff_antichain S).mpr hS.antichain)).mpr
    (hS.perm_map hT (fun _ hv _ hw => h.identity_eq hv hw) fun _ _ hvw => congrArg (·.2.1) hvw)

lemma equal_foldl_maxima {vs S M : List Version} (hS : Siblings S) (hsub : S ⊆ vs)
    (hM : IsMaxima clk M {v | v ∈ vs}) (h : Consistent vs) :
    equal (M.foldl reconcile S) M = true := by
  have hM' : IsMaxima clk M {v | v ∈ S ++ M} := by
    refine ⟨fun v hv => List.mem_append_right S hv, fun v hv => ?_, hM.antichain⟩
    rcases List.mem_append.mp hv with hv | hv
    · exact hM.covers v (hsub hv)
    · exact Covers.of_mem hv
  refine equal_of_isMaxima (isMaxima_foldl hS M) hM' (h.mono ?_)
  exact List.append_subset.mpr ⟨hsub, fun v hv => hM.sub v hv⟩

lemma foldl_reconcile_of_keys {S L : List Version} (hS : Siblings S)
    (hL : ∀ v ∈ L, identity v ∈ S.map identity) : L.foldl reconcile S = S := by
  rw [reconcile_eq]
  refine ((siblings_iff_antichain S).mp hS).foldl_of_keys fun v hv => ?_
  obtain ⟨w, hw, heq⟩ := List.mem_map.mp (hL v hv)
  exact ⟨w, hw, congrArg (·.2.1) heq⟩

lemma siblings_foldl {S : List Version} (hS : Siblings S) (L : List Version) :
    Siblings (L.foldl reconcile S) :=
  (siblings_iff_antichain _).mpr (isMaxima_foldl hS L).antichain

end Kyria.Version
