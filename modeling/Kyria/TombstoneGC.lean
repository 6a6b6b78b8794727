import Kyria.Time
import Kyria.Replica

/-!
Reaping tombstones (`internal/server/tombstonegc.go`): a sibling set without a live version,
whose tombstones are all older than the grace period, is removed from the store.
-/

namespace Kyria.TombstoneGC

open Kyria.Lib.Cursor Kyria.Version Kyria.Store Kyria.Store.MapStore Kyria.Replica

variable {σ : Type}

def reapable (versions : List Version) (now : ℕ) (grace : ℤ) : Bool :=
  if versions.length = 0 then false
  else if (live versions).length > 0 then false
  else versions.all fun v => ¬ Time.sub now (Time.ofUnix v.deletedAt) ≤ grace

/-- The test of both passes of a sweep: a blob that does not decode is left alone. -/
def reapableBlob (now : ℕ) (grace : ℤ) (blob : Bytes) : Bool :=
  match decode blob with
  | .ok versions => reapable versions now grace
  | .error _ => false

/-- The second pass of a sweep for one key; `t` is the time of the lookup `DeleteIf` makes. -/
def reap (m : MapStore σ) (key : Bytes) (now : ℕ) (grace : ℤ) (t : ℕ) : Bool × MapStore σ :=
  m.deleteIf t key (reapableBlob now grace)

variable {m : MapStore σ} {key : Bytes}

lemma reap_spec (h : Intact m key) (k : Bytes) (now : ℕ) (grace : ℤ) (t : ℕ) :
    Intact (reap m k now grace t).2 key ∧
      (Keeps m (reap m k now grace t).2 key ∨ (reap m k now grace t).2.data[key]? = none) := by
  have hlim := deleteIf_sameLimits m t k (reapableBlob now grace)
  unfold reap
  by_cases hk : key = k
  · subst hk
    rcases deleteIf_cases m t key (reapableBlob now grace) with
      ⟨_, -, -, -, -, hnone⟩ | ⟨-, -, hkeep⟩
    · exact ⟨.of_none (hlim.maxValueSize ▸ h.limit) hnone, .inr hnone⟩
    · exact ⟨h.of_keeps hkeep hlim, .inl hkeep⟩
  · have hkeep : Keeps m (m.deleteIf t k (reapableBlob now grace)).2 key :=
      Keeps.of_eq (deleteIf_of_ne m t _ hk)
    exact ⟨h.of_keeps hkeep hlim, .inl hkeep⟩

end Kyria.TombstoneGC
