import Mathlib

/-!
Settings that are assigned by name, one after the other.

Each setting has a type of its own, and an assignment gives it a raw value that still has to be
read. A later assignment replaces an earlier one, and the first one that cannot be read ends the
whole sequence.
-/

namespace Kyria.Lib.Layers

variable {F R : Type*} [DecidableEq F] {V : F → Type*}

/-- Make the assignments in order; the error is the first that cannot be read. -/
def assign (read : (f : F) → R → Option (V f)) (vals : (f : F) → V f) :
    List (F × R) → Except (F × R) ((f : F) → V f)
  | [] => .ok vals
  | p :: l =>
    match read p.1 p.2 with
    | none => .error p
    | some v => assign read (Function.update vals p.1 v) l

/-- The raw value of the last assignment. -/
def last (f : F) (l : List (F × R)) : Option R :=
  (l.filterMap fun p => if p.1 = f then some p.2 else none).getLast?

variable {read : (f : F) → R → Option (V f)} {vals vals' : (f : F) → V f} {l : List (F × R)} {f : F}
  {p : F × R}

@[simp] lemma last_nil : last f ([] : List (F × R)) = none := rfl

lemma last_cons : last f (p :: l) = (last f l).or (if p.1 = f then some p.2 else none) := by
  simp only [last, List.filterMap_cons]
  split_ifs with h
  · rw [List.getLast?_cons]
    cases (l.filterMap fun p => if p.1 = f then some p.2 else none).getLast? <;> rfl
  · rw [Option.or_none]

lemma last_eq_none_iff : last f l = none ↔ ∀ p ∈ l, p.1 ≠ f := by
  simp [last]

lemma last_filterMap {fs : List F} (hnodup : fs.Nodup) (hf : f ∈ fs) (g : F → Option R) :
    last f (fs.filterMap fun x => (g x).map (x, ·)) = g f := by
  induction fs with
  | nil => cases hf
  | cons x fs ih =>
    obtain ⟨hx, hnodup⟩ := List.nodup_cons.mp hnodup
    rcases List.mem_cons.mp hf with rfl | hf
    · have hnone : last f (fs.filterMap fun x => (g x).map (x, ·)) = none := by
        rw [last_eq_none_iff]
        rintro p hp rfl
        obtain ⟨y, hy, hyp⟩ := List.mem_filterMap.mp hp
        obtain ⟨r, -, rfl⟩ := Option.map_eq_some_iff.mp hyp
        exact hx hy
      cases hg : g f with
      | none => simp [hg, hnone]
      | some r => simp [hg, last_cons, hnone]
    · have hne : x ≠ f := by
        rintro rfl
        exact hx hf
      cases hg : g x with
      | none => simp [hg, ih hnodup hf]
      | some r => simp [hg, last_cons, hne, ih hnodup hf]

/-- **The last assignment counts.** The assignments go through if and only if all of them can be
read, those that are replaced included, and then each setting has the value of its last assignment,
or else the one it had. -/
theorem assign_eq_ok_iff : assign read vals l = .ok vals' ↔
    (∀ p ∈ l, (read p.1 p.2).isSome) ∧
      ∀ f, vals' f = ((last f l).bind (read f)).getD (vals f) := by
  induction l generalizing vals with
  | nil =>
    simp only [assign, Except.ok.injEq, List.not_mem_nil, false_implies, implies_true, last_nil,
      Option.bind_none, Option.getD_none, true_and]
    exact ⟨fun h f => by rw [h], fun h => funext fun f => (h f).symm⟩
  | cons p l ih =>
    rw [List.forall_mem_cons, assign]
    cases hread : read p.1 p.2 with
    | none => simp
    | some v =>
      simp only [ih, Option.isSome_some, true_and]
      refine and_congr_right fun hall => forall_congr' fun f => ?_
      suffices hsame : ((last f l).bind (read f)).getD (Function.update vals p.1 v f) =
          ((last f (p :: l)).bind (read f)).getD (vals f) by rw [hsame]
      rw [last_cons]
      cases hlast : last f l with
      | some r =>
        -- a later assignment, which can be read
        have hmem : (f, r) ∈ l := by
          obtain ⟨q, hq, hqr⟩ := List.mem_filterMap.mp (List.mem_of_getLast? hlast)
          split_ifs at hqr with hqf
          cases hqr
          exact hqf ▸ hq
        obtain ⟨w, hw⟩ := Option.isSome_iff_exists.mp (hall _ hmem)
        simp [hw]
      | none =>
        by_cases hpf : p.1 = f
        · subst hpf
          simp [hread]
        · simp [hpf, Function.update_of_ne (Ne.symm hpf)]

end Kyria.Lib.Layers
