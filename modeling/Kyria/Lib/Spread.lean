import Kyria.Lib.Runs

/-!
How what one node knows reaches another.

The nodes of a transition system tell each other what they know: at once, or by a message that is
sent in one state and arrives in a later one.
-/

namespace Kyria.Lib.Spread

open Kyria.Lib.Runs

/-- A transition system with nodes in `ι`. -/
structure Talk (S A ι : Type*) where
  step : S → A → Option S
  ok : S → A → Prop
  /-- `keeps t a p`: node `p` forgets nothing by action `a` in state `t`. -/
  keeps : S → A → ι → Prop
  /-- `tells v q t a p`: by action `a` in state `t`, node `p` is told what `q` knew in state `v`. -/
  tells : S → ι → S → A → ι → Prop

variable {S A ι : Type*}

/-- What node `q` knew in state `u` has reached node `p` in state `t`. -/
inductive Flow (T : Talk S A ι) (u : S) (q : ι) : S → ι → Prop
  | start : Flow T u q u q
  | stay {t t' : S} {p : ι} (a : A) (h : Flow T u q t p) (hok : T.ok t a) (hkeeps : T.keeps t a p)
      (hstep : T.step t a = some t') : Flow T u q t' p
  | hear {v t t' : S} {r p : ι} (a : A) (h : Flow T u q v r) (hrun : Steps T.step T.ok v t)
      (hok : T.ok t a) (htells : T.tells v r t a p) (hstep : T.step t a = some t') : Flow T u q t' p

variable {T : Talk S A ι} {u t : S} {q p : ι}

lemma Flow.steps (h : Flow T u q t p) : Steps T.step T.ok u t := by
  induction h with
  | start => exact .refl
  | stay a _ hok _ hstep ih => exact .tail a ih hok hstep
  | hear a _ hrun hok _ hstep ih => exact .tail a (ih.trans hrun) hok hstep

/-- **The rule of spreading**: knowledge that no node loses while it keeps what it has, and that
every node passes on with what it tells, has reached whoever has heard of it. `I` is an invariant of
the system. -/
theorem Flow.spreads {I : S → Prop} {P : S → ι → Prop} (h : Flow T u q t p) (hI : I u)
    (hinv : ∀ s a s', I s → T.ok s a → T.step s a = some s' → I s')
    (hstay : ∀ s a s' i, I s → T.ok s a → T.keeps s a i → T.step s a = some s' → P s i → P s' i)
    (htell : ∀ v r s a s' i, I v → I s → Steps T.step T.ok v s → T.ok s a → T.tells v r s a i →
      T.step s a = some s' → P v r → P s' i)
    (hq : P u q) : P t p := by
  have hall : ∀ {s i}, Flow T u q s i → I s := fun hs => hs.steps.invariant hI hinv
  induction h with
  | start => exact hq
  | stay a hflow hok hkeeps hstep ih => exact hstay _ a _ _ (hall hflow) hok hkeeps hstep ih
  | hear a hflow hrun hok htells hstep ih =>
    exact htell _ _ _ a _ _ (hall hflow) (hrun.invariant (hall hflow) hinv) hrun hok htells hstep ih

end Kyria.Lib.Spread
