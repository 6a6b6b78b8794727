import Kyria.Gossip

/-!
A node's own incarnation (`Bump`, `Merge`): every heartbeat raises it, and a claim that the node
is not alive is outbid, as long as the counter has room. An incarnation comes off a packet as it
is, so any value occurs.
-/

namespace Kyria.Gossip

open Kyria.Lib.Cursor Kyria.Membership

/-- The calls that change a node's own record. -/
inductive Call
  | bump (now : ℕ)
  | merge (packet : Bytes) (now : ℕ)

/-- The records a call brings in; a malformed packet brings none. -/
def Call.remote : Call → List Node
  | .bump _ => []
  | .merge packet _ =>
    match unmarshal packet with
    | .ok nodes => nodes
    | .error _ => []

def Call.apply (m : Members) : Call → Members
  | .bump now => m.bump now
  | .merge packet now =>
    match unmarshal packet with
    | .ok nodes => m.merge nodes now
    | .error _ => m

/-- A record of the call says that self is not alive. -/
def Claims (m : Members) (c : Call) (r : Node) : Prop :=
  r ∈ c.remote ∧ r.id = m.self ∧ r.state ≠ alive

/-- The call does not lower self's incarnation, and leaves self `Alive` above every claim. -/
structure Outbids (m : Members) (c : Call) : Prop where
  grows : m.own.incarnation ≤ (c.apply m).own.incarnation
  isAlive : (c.apply m).own.state = alive
  above : ∀ r, Claims m c r → r.incarnation < (c.apply m).own.incarnation

/-- Nothing that the call counts up stands at the top of the range. -/
structure Spare (m : Members) (c : Call) : Prop where
  bump : ∀ now, c = .bump now → m.own.incarnation.toNat < 2 ^ 64 - 1
  claims : ∀ r, Claims m c r → r.incarnation.toNat < 2 ^ 64 - 1

/-- `P` holds of every call of a sequence, in the roster it meets. -/
def Along (P : Members → Call → Prop) : Members → List Call → Prop
  | _, [] => True
  | m, c :: calls => P m c ∧ Along P (c.apply m) calls

lemma along_congr {P Q : Members → Call → Prop} (h : ∀ m c, P m c ↔ Q m c) (m : Members)
    (calls : List Call) : Along P m calls ↔ Along Q m calls := by
  induction calls generalizing m with
  | nil => rfl
  | cons c calls ih => exact and_congr (h m c) (ih _)

lemma apply_merge {m : Members} {packet : Bytes} {nodes : List Node} (now : ℕ)
    (h : unmarshal packet = .ok nodes) : (Call.merge packet now).apply m = m.merge nodes now := by
  simp only [Call.apply, h]

lemma refuted_merge (m : Members) (nodes : List Node) (now : ℕ)
    (hmax : ∀ r ∈ nodes, r.id = m.self → r.state ≠ alive → r.incarnation.toNat < 2 ^ 64 - 1) :
    Refuted m.own { r | r ∈ nodes ∧ r.id = m.self } (m.merge nodes now).own := by
  have hone : ∀ r, Delivered [(nodes, now)] r ↔ r ∈ nodes := by
    intro r
    simp [Delivered]
  obtain ⟨n, hn, href⟩ := m.refuted_mergeAll [(nodes, now)] fun c hc => hmax c ((hone c).mp hc)
  have hown : (m.merge nodes now).own = n := by
    refine Members.own_eq ?_
    rw [Members.self_merge]
    exact hn
  have habout : Members.deliveredAbout m.self [(nodes, now)] =
      { r | r ∈ nodes ∧ r.id = m.self } := by
    ext r
    simp only [Members.deliveredAbout, hone, Set.mem_ofPred_eq]
  rwa [hown, ← habout]

lemma outbids_bump_iff (m : Members) (now : ℕ) :
    Outbids m (.bump now) ↔ m.own.incarnation.toNat < 2 ^ 64 - 1 := by
  have hown : ((Call.bump now).apply m).own.incarnation = m.own.incarnation + 1 := by
    rw [Call.apply, Members.own_bump]
  have hlt := m.own.incarnation.toNat_lt
  have hadd : (m.own.incarnation + 1).toNat = (m.own.incarnation.toNat + 1) % 2 ^ 64 :=
    UInt64.toNat_add _ _
  constructor
  · intro h
    have hgrows := UInt64.le_iff_toNat_le.mp (hown ▸ h.grows)
    by_contra htop
    have hwrap : (m.own.incarnation + 1).toNat = 0 := by omega
    omega
  · intro hroom
    refine ⟨?_, Members.own_state _, fun r hr => absurd hr.1 List.not_mem_nil⟩
    rw [hown, UInt64.le_iff_toNat_le]
    omega

lemma outbids_merge {m : Members} {packet : Bytes} {now : ℕ}
    (hroom : ∀ r, Claims m (.merge packet now) r → r.incarnation.toNat < 2 ^ 64 - 1) :
    Outbids m (.merge packet now) := by
  rcases hu : unmarshal packet with err | nodes
  · have hsame : (Call.merge packet now).apply m = m := by simp only [Call.apply, hu]
    refine ⟨by rw [hsame]; exact UInt64.le_refl _, Members.own_state _, fun r hr => ?_⟩
    have hnone : (Call.merge packet now).remote = [] := by simp only [Call.remote, hu]
    exact absurd hr.1 (by simp [hnone])
  · have hremote : (Call.merge packet now).remote = nodes := by simp only [Call.remote, hu]
    have href := refuted_merge m nodes now fun r hr hid hs =>
      hroom r ⟨hremote.symm ▸ hr, hid, hs⟩
    rw [← apply_merge now hu] at href
    refine ⟨?_, Members.own_state _, fun r hr => ?_⟩
    · exact UInt64.le_iff_toNat_le.mpr (href.incarnation.2 (.inl rfl))
    · have hfloor : r.incarnation.toNat + 1 ∈
          Floors m.own { r | r ∈ nodes ∧ r.id = m.self } :=
        .inr ⟨r, ⟨hremote ▸ hr.1, hr.2.1⟩, hr.2.2, rfl⟩
      exact UInt64.lt_iff_toNat_lt.mpr (href.incarnation.2 hfloor)

/-- **One call** outbids exactly if the counter has room for it. -/
lemma outbids_iff (m : Members) (c : Call) : Outbids m c ↔ Spare m c := by
  have hclaims : Outbids m c → ∀ r, Claims m c r → r.incarnation.toNat < 2 ^ 64 - 1 := by
    intro h r hr
    have habove := UInt64.lt_iff_toNat_lt.mp (h.above r hr)
    have := (c.apply m).own.incarnation.toNat_lt
    omega
  cases c with
  | bump now =>
    constructor
    · intro h
      exact ⟨fun _ _ => (outbids_bump_iff m now).mp h, hclaims h⟩
    · intro h
      exact (outbids_bump_iff m now).mpr (h.bump now rfl)
  | merge packet now =>
    constructor
    · intro h
      exact ⟨fun _ hc => (nomatch hc), hclaims h⟩
    · intro h
      exact outbids_merge h.claims

/-- **Refutation outbids every claim exactly if** no counter it raises stands at the top of its
range: along every sequence of heartbeats and packets, from every roster. -/
theorem refutation_outbids_iff (m : Members) (calls : List Call) :
    Along Outbids m calls ↔ Along Spare m calls :=
  along_congr outbids_iff m calls

/-- A packet that calls node `A` dead at the last incarnation sends it back to incarnation 0, and
so does the heartbeat after a claim at the last but one. -/
theorem refutation_wraps_around :
    let m := newMembers ⟨[65], [1], alive, 1⟩ 0
    let last : Bytes := [0, 1, 2, 255, 255, 255, 255, 255, 255, 255, 255, 0, 1, 65, 0, 1, 1]
    let lastButOne : Bytes := [0, 1, 2, 255, 255, 255, 255, 255, 255, 255, 254, 0, 1, 65, 0, 1, 1]
    unmarshal last = .ok [⟨[65], [1], dead, 18446744073709551615⟩] ∧
      ((Call.merge last 5).apply m).own.incarnation = 0 ∧
      ((Call.bump 6).apply ((Call.merge lastButOne 5).apply m)).own.incarnation = 0 := by
  decide +kernel

end Kyria.Gossip
