import Kyria.Cluster.Convergence

/-!
When a freshly minted clock is ahead of everything that exists.

The clock is computed from what the coordinator itself stores. As long as a node drops its
set only once nothing elsewhere counts a write of that node, it still knows all of its own
writes that anything existing counts, and the clock it mints is behind nothing. A node that
drops its set earlier starts to count from one again, behind the versions left elsewhere.
-/

namespace Kyria.Cluster

open Kyria.Lib.Cursor Kyria.Lib.Maxima Kyria.Lib.Causal Kyria.Lib.Runs
open Kyria.Vclock Kyria.Version Kyria.Store Kyria.Replica Kyria.Protocol Kyria.Coordinator

variable {σ : Type} {cfg : Config σ} {s s' t : State σ} {a : Action}

/-- The version is stored by a node, parked as a hint or in a request in flight. -/
def Present (cfg : Config σ) (s : State σ) (v : Version) : Prop :=
  (∃ n, v ∈ s.sets cfg n) ∨
  (∃ n t b, (s.node n).hints.parked t cfg.key = some b ∧ v ∈ siblingsOf b) ∨
  ∃ c ∈ s.calls, c.lost = false ∧ v ∈ siblingsOf c.blob

/-- Nothing outside node `n` counts a write of `n`: no other store, and nothing under way. -/
def Forgotten (cfg : Config σ) (s : State σ) (n : Bytes) : Prop :=
  ∀ v, (v ∈ pool cfg s ∨ ∃ m, m ≠ n ∧ v ∈ s.sets cfg m) → counter v.clock n = 0

/-- A node drops its set only when it is forgotten elsewhere, and no counter overflows. -/
structure Careful (cfg : Config σ) (s : State σ) (a : Action) : Prop where
  drops : ∀ n, Drops cfg s a n → Forgotten cfg s n
  fresh : ¬ Overflows cfg s a

lemma Present.exists {v : Version} (h : Present cfg s v) : v ∈ (abs cfg s).Exists := by
  rcases h with ⟨n, hv⟩ | ⟨n, t, b, hb, hv⟩ | ⟨c, hc, hl, hv⟩
  · exact .inr ⟨n, hv⟩
  · exact .inl (.inr (.inl ⟨n, t, b, hb, hv⟩))
  · exact .inl (.inl ⟨c, hc, .inl hl, hv⟩)

/-- Every node knows all of its own writes that something existing counts. -/
structure Ahead (cfg : Config σ) (s : State σ) : Prop where
  sound : Sound cfg s
  dominates : Dominates clk (abs cfg s)

lemma ahead_init (cfg : Config σ) : Ahead cfg (init cfg) := by
  refine ⟨sound_init cfg, fun n v hv => ?_⟩
  obtain ⟨m, hm⟩ := (agreed_init cfg).inv.known v hv
  exact absurd hm (by simp [abs, init, State.minted])

lemma Ahead.step (h : Ahead cfg s) (hok : Careful cfg s a) (hstep : step cfg s a = some s') :
    Ahead cfg s' := by
  obtain ⟨l, htakes, heff, hmint, -⟩ := step_takes h.sound hstep
  refine ⟨step_sound h.sound hstep, ?_⟩
  cases l with
  | mint n v => exact h.dominates.mint htakes (heff.fresh (hmint n v rfl) hok.fresh)
  | fold n vs => exact h.dominates.fold htakes
  | remove n => exact h.dominates.remove htakes (hok.drops n (heff.drops hstep))

lemma exists_of_steps (hs : Sound cfg s) (h : Steps (step cfg) (fun _ _ => True) s t) :
    Sound cfg t ∧ s.minted <+: t.minted ∧ ∀ v ∈ (abs cfg t).Exists,
      v ∈ (abs cfg s).Exists ∨ ∃ m, (m, v) ∈ t.minted.drop s.minted.length := by
  induction h with
  | refl => exact ⟨hs, List.prefix_rfl, fun v hv => .inl hv⟩
  | @tail t u a _ _ hstep ih =>
    obtain ⟨ht, hpre, hold⟩ := ih
    obtain ⟨l, htakes, heff, -, -⟩ := step_takes ht hstep
    obtain ⟨new, hnew⟩ : ∃ new, u.minted = t.minted ++ new := by
      cases heff with
      | mint _ _ _ _ hm => exact ⟨_, hm⟩
      | fold _ _ _ hm => exact ⟨[], by simpa using hm⟩
      | remove _ _ _ hm => exact ⟨[], by simpa using hm⟩
    have hdrop : u.minted.drop s.minted.length = t.minted.drop s.minted.length ++ new := by
      rw [hnew, List.drop_append_of_le_length hpre.length_le]
    refine ⟨step_sound ht hstep, hpre.trans ⟨new, hnew.symm⟩, fun v hv => ?_⟩
    rw [hdrop]
    rcases htakes.exists_sub hv with hv | ⟨n, rfl⟩
    · rcases hold v hv with hv | ⟨m, hm⟩
      · exact .inl hv
      · exact .inr ⟨m, List.mem_append_left _ hm⟩
    · cases heff with
      | mint _ _ _ _ hm =>
        rw [hm, List.append_cancel_left_eq] at hnew
        exact .inr ⟨n, by simp [← hnew]⟩

/-- **A minted clock is stale only after a premature drop.** In every run whose steps are
careful, the clock a node would mint next is behind nothing that is present, and whatever is
found at or above a version later, in a store or under way, unfinished reads included, was minted
after it. -/
theorem minted_clock_not_stale (h : Steps (step cfg) (Careful cfg) (init cfg) s) {n : Bytes}
    (hroom : counter (frontier (s.sets cfg n)) n + 1 < 2 ^ 64) :
    (∀ v, Present cfg s v → Clock.compare (newClock n (s.sets cfg n)) v.clock ≠ .equal ∧
      Clock.compare (newClock n (s.sets cfg n)) v.clock ≠ .before) ∧
    ∀ a s₁ v t w, step cfg s a = some s₁ → s₁.minted = s.minted ++ [(n, v)] →
      Steps (step cfg) (fun _ _ => True) s₁ t → w ∈ (abs cfg t).Exists →
      (Clock.compare w.clock v.clock = .after ∨ Clock.compare w.clock v.clock = .equal) →
      ∃ m, (m, w) ∈ t.minted.drop s.minted.length := by
  have hahead : Ahead cfg s :=
    h.invariant (ahead_init cfg) fun _ _ _ hI hok hstep => hI.step hok hstep
  have hkey : ∀ x w : Version, x.clock = newClock n (s.sets cfg n) → w ∈ (abs cfg s).Exists →
      ¬ clk x ≤ clk w := fun x w hx hw =>
    hahead.dominates.fresh_not_le (fresh_increment hx hroom) hw
  constructor
  · intro v hv
    obtain ⟨x, hx⟩ : ∃ x : Version, x.clock = newClock n (s.sets cfg n) :=
      ⟨{ value := [], clock := newClock n (s.sets cfg n) }, rfl⟩
    have hle := hkey x v hx hv.exists
    rw [← hx]
    constructor
    · exact fun he => hle ((compare_eq_equal_iff x v).mp he).le
    · exact fun hb => hle ((compare_eq_before_iff x v).mp hb).le
  · intro a s₁ v t w hstep hminted hrun hw hcmp
    obtain ⟨l, -, heff, -, -⟩ := step_takes hahead.sound hstep
    obtain ⟨rfl, -⟩ := heff.minted_inv hminted
    have hclock : v.clock = newClock n (s.sets cfg n) := by cases heff; assumption
    have hrun' : Steps (step cfg) (fun _ _ => True) s t :=
      (Steps.tail a .refl trivial hstep).trans hrun
    rcases (exists_of_steps hahead.sound hrun').2.2 w hw with hold | hnew
    · exact absurd ((compare_eq_after_or_equal_iff w v).mp hcmp) (hkey v w hclock hold)
    · exact hnew

/-! ### Sweeping in time and too early -/

/-- Two nodes with a grace period of one second. -/
def graced : Config Unit := { pair with grace := Time.nanosPerSecond }

/-- So many seconds after the Unix epoch. -/
def clockTime (sec : ℕ) : ℕ := (62135596800 + sec) * Time.nanosPerSecond

/-- Node `a` writes and deletes, and `b` acknowledges both. -/
def writeDelete : List Action :=
  [.write (ascii "a") (ascii "1") pair.nodes default default,
    .deliver 0 default, .ack 0, .report 0, .reply 0,
    .delete (ascii "a") (clockTime 10) pair.nodes default default,
    .deliver 1 default, .ack 1, .report 1, .reply 1]

/-- A minute after the delete, a node sweeps. -/
def sweepAt (n : Bytes) : Action := .reap n (ascii "k") (clockTime 60) (clockTime 60)

/-- Node `a` writes again, `b` acknowledges, and `a` reads. -/
def writeAgain : List Action :=
  [.write (ascii "a") (ascii "2") pair.nodes default default,
    .deliver 2 default, .ack 2, .report 2, .reply 2,
    .read (ascii "a") pair.nodes 0, .rget 0 (ascii "b") 0, .arrive 0 0, .readReply 0 default]

def buried : Version :=
  tombstone (Clock.increment (Clock.increment ∅ (ascii "a")) (ascii "a")) 10

lemma Plain.careful (h : Plain cfg s a) : Careful cfg s a :=
  ⟨fun n hd => absurd hd (h.keeps n), h.fresh⟩

lemma careful_sweep {s : State Unit} (h : Agreed graced s)
    (hm : s.minted = [(ascii "a", first), (ascii "a", buried)]) :
    Careful graced s (sweepAt (ascii "b")) := by
  refine ⟨fun n hdrop v hv => ?_, fun hmint => ?_⟩
  rotate_left
  · obtain ⟨n, hn, -⟩ := hmint
    simp [sweepAt, Action.minter] at hn
  obtain ⟨s', hstep, hne, hnil⟩ := hdrop
  have hn : n = ascii "b" := by
    by_contra hn
    simp only [sweepAt, step, Option.some.injEq] at hstep
    subst hstep
    rw [State.sets_of_node rfl, Function.update_of_ne hn] at hnil
    exact hne hnil
  have hex : v ∈ (abs graced s).Exists := by
    rcases hv with hv | ⟨m, -, hm⟩
    · exact .inl hv
    · exact .inr ⟨m, hm⟩
  obtain ⟨m, hmem⟩ := h.inv.known v hex
  have hzero : ∀ p ∈ [(ascii "a", first), (ascii "a", buried)],
      counter p.2.clock (ascii "b") = 0 := by decide
  rw [hn]
  exact hzero (m, v) (hm ▸ hmem)

/-- After that sweep a write of `b` is behind nothing, though `b` has forgotten the tombstone
that `a` still holds. -/
theorem minted_clock_not_stale_after_sweep :
    ∃ s, Steps (step graced) (Careful graced) (init graced) s ∧
      s.sets graced (ascii "b") = [] ∧ buried ∈ s.sets graced (ascii "a") ∧
      ∀ v, Present graced s v →
        Clock.compare (newClock (ascii "b") (s.sets graced (ascii "b"))) v.clock ≠ .before := by
  have hrun : ((exec (step graced) (plainCheck graced) (init graced) writeDelete).bind fun s =>
      (step graced s (sweepAt (ascii "b"))).map fun t =>
        (s.minted, t.sets graced (ascii "a"), t.sets graced (ascii "b"))) =
      some ([(ascii "a", first), (ascii "a", buried)], [buried], []) := by decide +kernel
  obtain ⟨s, hs, hrest⟩ := Option.bind_eq_some_iff.mp hrun
  obtain ⟨t, ht, hfacts⟩ := Option.map_eq_some_iff.mp hrest
  simp only [Prod.mk.injEq] at hfacts
  obtain ⟨hm, ha, hb⟩ := hfacts
  have hplain := steps_of_check (sound_init graced) hs
  have hsteps : Steps (step graced) (Careful graced) (init graced) t :=
    .tail _ (hplain.mono fun _ _ h => h.careful) (careful_sweep (agreed_of_steps hplain) hm) ht
  refine ⟨t, hsteps, hb, by simp [ha], fun v hv => ?_⟩
  exact ((minted_clock_not_stale hsteps (n := ascii "b") (by rw [hb]; decide)).1 v hv).2

/-- The reply of a read that has finished. -/
def ReadOp.reply : ReadOp → Option Value
  | .waiting _ => none
  | .replied _ need st _ => some (readReply need st)

/-- The clock minted after the sweep is behind the tombstone that `b` still holds. The write is
answered `OK`, but `b` discards it, and the next read of `a` finds nothing. -/
theorem minted_clock_stale_after_sweep :
    ∃ s t, Steps (step graced) (fun _ _ => True) (init graced) s ∧ Present graced s buried ∧
      Clock.compare (newClock (ascii "a") (s.sets graced (ascii "a"))) buried.clock = .before ∧
      Steps (step graced) (fun _ _ => True) s t ∧
      (t.writes[2]?.bind WriteOp.reply) = some (.simpleString (ascii "OK")) ∧
      t.sets graced (ascii "b") = [buried] ∧
      (t.reads[0]?.bind ReadOp.reply) = some (.bulkString none) := by
  have hrun : ((exec (step graced) (fun _ _ => true) (init graced)
        (writeDelete ++ [sweepAt (ascii "a")])).bind fun s =>
      (exec (step graced) (fun _ _ => true) s writeAgain).map fun t =>
        (s.sets graced (ascii "b"),
          Clock.compare (newClock (ascii "a") (s.sets graced (ascii "a"))) buried.clock,
          t.writes[2]?.bind WriteOp.reply, t.sets graced (ascii "b"),
          t.reads[0]?.bind ReadOp.reply)) =
      some ([buried], .before, some (.simpleString (ascii "OK")), [buried],
        some (.bulkString none)) := by decide +kernel
  obtain ⟨s, hs, hrest⟩ := Option.bind_eq_some_iff.mp hrun
  obtain ⟨t, ht, hfacts⟩ := Option.map_eq_some_iff.mp hrest
  simp only [Prod.mk.injEq] at hfacts
  obtain ⟨hb, hcmp, hreply, hset, hread⟩ := hfacts
  refine ⟨s, t, .of_exec_true hs,
    .inl ⟨ascii "b", by simp [hb]⟩, hcmp,
    .of_exec_true ht, hreply, hset, hread⟩

end Kyria.Cluster
