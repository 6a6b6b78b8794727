import Mathlib

/-!
Runs of a transition system given by an executable step function.

`step s a = none` says that action `a` is not enabled in `s`. A run may be restricted to
steps that meet a side condition, on the state before the step and the action.
-/

namespace Kyria.Lib.Runs

variable {S A : Type*} (step : S → A → Option S) (ok : S → A → Prop)

/-- `t` is reached from `s` by steps that all meet `ok`. -/
inductive Steps (s : S) : S → Prop
  | refl : Steps s s
  | tail {t u : S} (a : A) (h : Steps s t) (hok : ok t a) (hstep : step t a = some u) : Steps s u

variable {step ok} {s t u : S}

lemma Steps.trans (h₁ : Steps step ok s t) (h₂ : Steps step ok t u) : Steps step ok s u := by
  induction h₂ with
  | refl => exact h₁
  | tail a _ hok hstep ih => exact .tail a ih hok hstep

/-- **The invariant rule**: what every admitted step keeps holds all along a run. -/
theorem Steps.invariant {I : S → Prop} (h : Steps step ok s t) (h₀ : I s)
    (hstep : ∀ t a u, I t → ok t a → step t a = some u → I u) : I t := by
  induction h with
  | refl => exact h₀
  | tail a _ hok hs ih => exact hstep _ a _ ih hok hs

lemma Steps.mono {ok' : S → A → Prop} (h : Steps step ok s t) (hle : ∀ s a, ok s a → ok' s a) :
    Steps step ok' s t := by
  induction h with
  | refl => exact .refl
  | tail a _ hok hstep ih => exact .tail a ih (hle _ _ hok) hstep

variable (step) in
/-- The state a list of actions leads to, if all of them are enabled and pass a test. -/
def exec (check : S → A → Bool) (s : S) (as : List A) : Option S :=
  as.foldlM (fun s a => if check s a then step s a else none) s

lemma Steps.of_exec {check : S → A → Bool} {I : S → Prop} {as : List A}
    (h : exec step check s as = some t) (h₀ : I s)
    (hI : ∀ s a u, I s → step s a = some u → I u)
    (hok : ∀ s a, I s → check s a = true → ok s a) : Steps step ok s t := by
  induction as generalizing s with
  | nil =>
    simp only [exec, List.foldlM_nil, Option.pure_def, Option.some.injEq] at h
    exact h ▸ .refl
  | cons a as ih =>
    simp only [exec, List.foldlM_cons, Option.bind_eq_bind, Option.bind_eq_some_iff,
      Option.ite_none_right_eq_some] at h
    obtain ⟨u, ⟨hc, hu⟩, hrest⟩ := h
    exact (Steps.tail a .refl (hok s a h₀ hc) hu).trans (ih hrest (hI s a u h₀ hu))

lemma Steps.of_exec_of_check {check : S → A → Bool} {as : List A}
    (h : exec step check s as = some t) (hok : ∀ s a, check s a = true → ok s a) :
    Steps step ok s t :=
  .of_exec (I := fun _ => True) h trivial (fun _ _ _ _ _ => trivial) fun s a _ => hok s a

lemma Steps.of_exec_true {check : S → A → Bool} {as : List A}
    (h : exec step check s as = some t) : Steps step (fun _ _ => True) s t :=
  .of_exec_of_check h fun _ _ _ => trivial

/-! ### Runs that come to an end -/

variable (step ok) in
/-- `t` is reached from `s` by exactly `n` steps that all meet `ok`. -/
inductive StepsIn (s : S) : ℕ → S → Prop
  | refl : StepsIn s 0 s
  | tail {n : ℕ} {t u : S} (a : A) (h : StepsIn s n t) (hok : ok t a) (hstep : step t a = some u) :
      StepsIn s (n + 1) u

variable (step ok) in
/-- Every admitted step from a state in `I` stays in `I` and lowers the weight. -/
def Lowers (I : S → Prop) (weight : S → ℕ) : Prop :=
  ∀ s a t, I s → ok s a → step s a = some t → I t ∧ weight t < weight s

variable {I : S → Prop} {weight : S → ℕ}

lemma Lowers.mono {ok' : S → A → Prop} (h : Lowers step ok I weight)
    (hle : ∀ s a, ok' s a → ok s a) : Lowers step ok' I weight :=
  fun s a t hI hok => h s a t hI (hle s a hok)

/-- A weight that every step lowers bounds the length of every run. -/
theorem StepsIn.length_le {n : ℕ} (h : StepsIn step ok s n t) (hI : I s)
    (hw : Lowers step ok I weight) : n ≤ weight s := by
  have key : I t ∧ n + weight t ≤ weight s := by
    induction h with
    | refl => exact ⟨hI, by omega⟩
    | tail a _ hok hstep ih =>
      obtain ⟨hIt, hle⟩ := ih
      obtain ⟨hIu, hlt⟩ := hw _ a _ hIt hok hstep
      exact ⟨hIu, by omega⟩
  omega

/-- **The progress rule**: where steps lower a weight and a state that is not final always
admits one, a final state can be reached. -/
theorem Lowers.exists_final {F : S → Prop} (hw : Lowers step ok I weight)
    (hprogress : ∀ s, I s → ¬ F s → ∃ a t, ok s a ∧ step s a = some t) (hI : I s) :
    ∃ t, Steps step ok s t ∧ I t ∧ F t := by
  -- by strong induction on the weight
  induction hn : weight s using Nat.strong_induction_on generalizing s with
  | _ n ih =>
    by_cases hF : F s
    · exact ⟨s, .refl, hI, hF⟩
    · obtain ⟨a, u, hok, hu⟩ := hprogress s hI hF
      obtain ⟨hIu, hlt⟩ := hw s a u hI hok hu
      obtain ⟨t, hrun, hIt, hFt⟩ := ih (weight u) (hn ▸ hlt) hIu rfl
      exact ⟨t, (Steps.tail a .refl hok hu).trans hrun, hIt, hFt⟩

end Kyria.Lib.Runs
