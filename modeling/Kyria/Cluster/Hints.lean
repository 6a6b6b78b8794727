import Kyria.Cluster.Calls
import Kyria.Cluster.Convergence

/-!
What hinted handoff remembers of the writes a replica has missed.

There is one slot for each target and key, and a failed fan-out overwrites it without
looking at what is parked there. When that is never causally newer than the new blob, nor
something the target has not got, every write the target missed stays covered by a write it
got or by the parked one. Two fan-outs that fail in the wrong order break this.
-/

namespace Kyria.Cluster

open Kyria.Lib.Cursor Kyria.Lib.Runs
open Kyria.Vclock Kyria.Version Kyria.Store Kyria.Replica Kyria.Handoff Kyria.Protocol
open Kyria.Coordinator

variable {σ : Type} {cfg : Config σ} {s s' : State σ} {a : Action} {n t : Bytes}

/-- A `Replicate` of node `n` to target `t` that succeeded has carried `v`. -/
def Reached (s : State σ) (n t : Bytes) (v : Version) : Prop :=
  ∃ c ∈ s.calls, c.src = n ∧ c.dst = t ∧ c.Delivered ∧ v ∈ siblingsOf c.blob

/-- The blob node `n` has parked for target `t` holds `v`. -/
def Parked (cfg : Config σ) (s : State σ) (n t : Bytes) (v : Version) : Prop :=
  ∃ b, (s.node n).hints.parked t cfg.key = some b ∧ v ∈ siblingsOf b

/-- A version at or above `v` has reached the target or is parked for it. -/
def Remembered (cfg : Config σ) (s : State σ) (n t : Bytes) (v : Version) : Prop :=
  ∃ w, (Reached s n t w ∨ Parked cfg s n t w) ∧
    (Clock.compare w.clock v.clock = .after ∨ Clock.compare w.clock v.clock = .equal)

/-- A blob is parked only over one whose version it descends from, or one that something
delivered descends from. -/
def InOrder (cfg : Config σ) (s : State σ) (a : Action) : Prop :=
  ∀ i c, a = .park i → s.calls[i]? = some c → ∀ v, Parked cfg s c.src c.dst v →
    ∃ w, (Reached s c.src c.dst w ∨ w ∈ siblingsOf c.blob) ∧
      (Clock.compare w.clock v.clock = .after ∨ Clock.compare w.clock v.clock = .equal)

/-- The goroutine of the fan-out is past the parking of its blob. -/
def Call.Settled (c : Call) : Prop := c.phase ≠ .sent ∧ c.phase ≠ .failed

lemma Remembered.trans {v w : Version} (h : Remembered cfg s n t w)
    (hc : Clock.compare w.clock v.clock = .after ∨ Clock.compare w.clock v.clock = .equal) :
    Remembered cfg s n t v := by
  obtain ⟨u, hu, hcu⟩ := h
  refine ⟨u, hu, (compare_eq_after_or_equal_iff u v).mpr ?_⟩
  exact ((compare_eq_after_or_equal_iff w v).mp hc).trans
    ((compare_eq_after_or_equal_iff u w).mp hcu)

lemma Remembered.of_mem {v : Version} (h : Reached s n t v ∨ Parked cfg s n t v) :
    Remembered cfg s n t v := ⟨v, h, .inr (compare_self v)⟩

lemma Reached.step {v : Version} (h : Reached s n t v) (hs : CallsStep a s.calls s'.calls) :
    Reached s' n t v := by
  obtain ⟨c, hc, rfl, rfl, hd, hv⟩ := h
  obtain ⟨c', hc', hsame, hdel⟩ := hs.forward hc
  exact ⟨c', hc', hsame.src, hsame.dst, hdel hd, hsame.blob ▸ hv⟩

lemma parked_parkHint (cfg : Config σ) (s : State σ) (n t : Bytes) (i : ℕ) (c : Call) :
    ((parkHint cfg s i c).node n).hints.parked t cfg.key =
      if n = c.src ∧ t = c.dst then some c.blob else (s.node n).hints.parked t cfg.key := by
  by_cases hn : n = c.src
  · subst hn
    simp [parkHint, State.setCall, State.setNode, HintStore.parked_add, eq_comm]
  · simp [parkHint, State.setCall, State.setNode, hn]

lemma parked_forgetHint (cfg : Config σ) (s : State σ) (n t : Bytes) (i : ℕ) (c : Call) :
    ((forgetHint cfg s i c).node n).hints.parked t cfg.key =
      if n = c.src ∧ t = c.dst ∧ (s.node n).hints.parked t cfg.key = some c.blob then none
      else (s.node n).hints.parked t cfg.key := by
  by_cases hn : n = c.src
  · subst hn
    by_cases ht : t = c.dst
    · subst ht
      simp [forgetHint, State.setCall, State.setNode, HintStore.parked_remove]
    · simp [forgetHint, State.setCall, State.setNode, HintStore.parked_remove, ht, Ne.symm ht]
  · simp [forgetHint, State.setCall, State.setNode, hn]

lemma Parked.step {v : Version} (h : Parked cfg s n t v) (hok : InOrder cfg s a)
    (hstep : step cfg s a = some s') : Remembered cfg s' n t v := by
  have hcalls := step_calls hstep
  obtain ⟨b, hb, hv⟩ := h
  have hrest : (∀ i, a ≠ .park i) → (∀ i, a ≠ .forget i) → Remembered cfg s' n t v :=
    fun hp hf => .of_mem (.inr ⟨b, by rw [step_hints hstep hp hf]; exact hb, hv⟩)
  cases stepped hstep with
  | @park i c hi =>
    have hpark := parked_parkHint cfg s n t i c
    by_cases hnt : n = c.src ∧ t = c.dst
    · -- the slot is overwritten: what was there is covered by what takes its place
      rw [if_pos hnt] at hpark
      obtain ⟨rfl, rfl⟩ := hnt
      obtain ⟨w, hw | hw, hc⟩ := hok i c rfl hi v ⟨b, hb, hv⟩
      · exact ⟨w, .inl (hw.step hcalls), hc⟩
      · exact ⟨w, .inr ⟨c.blob, hpark, hw⟩, hc⟩
    · rw [if_neg hnt, hb] at hpark
      exact .of_mem (.inr ⟨b, hpark, hv⟩)
  | @forget i c hi =>
    have hforget := parked_forgetHint cfg s n t i c
    by_cases hgone : n = c.src ∧ t = c.dst ∧ (s.node n).hints.parked t cfg.key = some c.blob
    · -- only the very blob that was delivered is taken off
      obtain ⟨rfl, rfl, hblob⟩ := hgone
      rw [hb, Option.some.injEq] at hblob
      refine .of_mem (.inl ⟨{ c with phase := .finished true }, ?_, rfl, rfl, .inr rfl, hblob ▸ hv⟩)
      exact List.mem_set (List.getElem?_eq_some_iff.mp hi).1 _
    · rw [if_neg hgone, hb] at hforget
      exact .of_mem (.inr ⟨b, hforget, hv⟩)
  | _ => exact hrest (by simp) (by simp)

lemma Remembered.step {v : Version} (h : Remembered cfg s n t v) (hok : InOrder cfg s a)
    (hstep : step cfg s a = some s') : Remembered cfg s' n t v := by
  obtain ⟨w, hw | hw, hc⟩ := h
  · exact ⟨w, .inl (hw.step (step_calls hstep)), hc⟩
  · exact (hw.step hok hstep).trans hc

/-- Every write a target has missed is remembered. -/
def AllRemembered (cfg : Config σ) (s : State σ) : Prop :=
  ∀ c ∈ s.calls, c.Missed → ∀ v ∈ siblingsOf c.blob, Remembered cfg s c.src c.dst v

lemma AllRemembered.step (h : AllRemembered cfg s) (hok : InOrder cfg s a)
    (hstep : step cfg s a = some s') : AllRemembered cfg s' := by
  intro c' hc' hm v hv
  rcases (step_calls hstep).missed hc' hm with ⟨c, hc, hsame, hmc⟩ | ⟨i, c, rfl, hi, rfl⟩
  · rw [hsame.src, hsame.dst]
    exact (h c hc hmc v (hsame.blob ▸ hv)).step hok hstep
  · -- the blob just parked is in its slot
    refine .of_mem (.inr ⟨c.blob, ?_, hv⟩)
    cases stepped hstep with
    | park hi' =>
      rw [hi, Option.some.injEq] at hi'
      subst hi'
      simp [parked_parkHint]

/-- **Handoff remembers the newest missed write as long as hints are parked in order.** Along
every run in which a blob is never parked over one that is causally newer and undelivered,
once the fan-outs of a node to a target have settled, each version that failed to be delivered
is at or below one that was, or the parked one. -/
theorem missed_write_remembered (h : Steps (step cfg) (InOrder cfg) (init cfg) s)
    (hdone : ∀ c ∈ s.calls, c.src = n → c.dst = t → c.origin.isFanOut = true → c.Settled)
    {c : Call} (hc : c ∈ s.calls) (hsrc : c.src = n) (hdst : c.dst = t) (hfail : c.Failed)
    {w : ℕ} (ho : c.origin = .fanOut w) {op : WriteOp} (hop : s.writes[w]? = some op) :
    Remembered cfg s n t op.version := by
  obtain ⟨-, hmatch, hall⟩ : Sound cfg s ∧ Matched s ∧ AllRemembered cfg s := by
    refine h.invariant (I := fun s => Sound cfg s ∧ Matched s ∧ AllRemembered cfg s)
      ⟨sound_init cfg, by simp [Matched, init], by simp [AllRemembered, init]⟩ ?_
    rintro s a s' ⟨hs, hm, hr⟩ hok hstep
    exact ⟨step_sound hs hstep, hm.step hs hstep, hr.step hok hstep⟩
  have hmissed : c.Missed := by
    rcases hfail with hf | hm | hm
    · exact absurd hf (hdone c hc hsrc hdst (by simp [ho, Origin.isFanOut])).2
    · exact .inl hm
    · exact .inr hm
  obtain ⟨op', hop', hblob, -⟩ := hmatch c hc w ho
  rw [hop, Option.some.injEq] at hop'
  subst hop'
  exact hsrc ▸ hdst ▸ hall c hc hmissed op.version (by simp [hblob])

/-! ### Hints parked in order, and out of order -/

/-- Two writes of `a`, neither of which gets through to `b`; the fan-outs park their blobs in
the order given and end. -/
def twoMissed (x y : ℕ) : List Action :=
  [.write (ascii "a") (ascii "1") pair.nodes default default,
    .write (ascii "a") (ascii "2") pair.nodes default default,
    .lose 0, .lose 1, .fail 0, .fail 1, .park x, .park y, .report 0, .report 1]

def newest : Version :=
  { value := ascii "2", clock := Clock.increment (Clock.increment ∅ (ascii "a")) (ascii "a") }

/-- The test of `InOrder` that looks at the blob to be parked only. -/
def inOrderCheck (cfg : Config σ) (s : State σ) : Action → Bool
  | .park i => (s.calls[i]?).all fun c =>
      (((s.node c.src).hints.parked c.dst cfg.key).getD [] |> siblingsOf).all fun v =>
        (siblingsOf c.blob).any fun w =>
          Clock.compare w.clock v.clock = .after || Clock.compare w.clock v.clock = .equal
  | _ => true

lemma inOrder_of_check (h : inOrderCheck cfg s a = true) : InOrder cfg s a := by
  rintro i c rfl hi v ⟨b, hb, hv⟩
  simp only [inOrderCheck, hi, Option.all_some, hb, Option.getD_some, List.all_eq_true,
    List.any_eq_true, Bool.or_eq_true, decide_eq_true_eq] at h
  obtain ⟨w, hw, hc⟩ := h v hv
  exact ⟨w, .inr hw, hc⟩

/-- How the two requests have ended, what is parked for `b`, and what was written. -/
structure Outcome where
  calls : List (Bytes × Bytes × Origin × Phase)
  parked : Option (List Version)
  written : List Version
  deriving DecidableEq

def outcome (s : State Unit) : Outcome where
  calls := s.calls.map fun c => (c.src, c.dst, c.origin, c.phase)
  parked := ((s.node (ascii "a")).hints.parked (ascii "b") pair.key).map siblingsOf
  written := s.writes.map WriteOp.version

/-- Both requests failed and have parked their blobs, of which `v` is left. -/
def bothMissed (v : Version) : Outcome where
  calls := [(ascii "a", ascii "b", .fanOut 0, .finished false),
    (ascii "a", ascii "b", .fanOut 1, .finished false)]
  parked := some [v]
  written := [first, newest]

lemma phase_of_bothMissed {s : State Unit} {v : Version} (h : outcome s = bothMissed v) :
    ∀ c ∈ s.calls, c.phase = .finished false := by
  intro c hc
  have hmem := List.mem_map_of_mem (f := fun c => (c.src, c.dst, c.origin, c.phase)) hc
  rw [show s.calls.map _ = _ from congrArg Outcome.calls h] at hmem
  simp only [bothMissed, List.mem_cons, List.not_mem_nil, or_false, Prod.mk.injEq] at hmem
  rcases hmem with ⟨-, -, -, hp⟩ | ⟨-, -, -, hp⟩ <;> exact hp

lemma call_of_bothMissed {s : State Unit} {v : Version} (h : outcome s = bothMissed v) :
    ∃ c ∈ s.calls, c.src = ascii "a" ∧ c.dst = ascii "b" ∧ c.origin = .fanOut 1 ∧ c.Failed := by
  have hmem : (ascii "a", ascii "b", Origin.fanOut 1, Phase.finished false) ∈
      (outcome s).calls := by
    simp [h, bothMissed]
  obtain ⟨c, hc, he⟩ := List.mem_map.mp hmem
  simp only [Prod.mk.injEq] at he
  exact ⟨c, hc, he.1, he.2.1, he.2.2.1, .inr (.inr he.2.2.2)⟩

/-- Parked in the order in which they were written, the newer write is remembered. -/
theorem missed_write_remembered_in_order :
    ∃ s, Steps (step pair) (InOrder pair) (init pair) s ∧
      Remembered pair s (ascii "a") (ascii "b") newest := by
  have hrun : (exec (step pair) (inOrderCheck pair) (init pair) (twoMissed 0 1)).map outcome =
      some (bothMissed newest) := by decide +kernel
  obtain ⟨s, hs, hout⟩ := Option.map_eq_some_iff.mp hrun
  have hsteps : Steps (step pair) (InOrder pair) (init pair) s :=
    .of_exec_of_check hs fun _ _ hc => inOrder_of_check hc
  obtain ⟨c, hc, hsrc, hdst, ho, hfail⟩ := call_of_bothMissed hout
  obtain ⟨op, hop, hver⟩ : ∃ op, s.writes[1]? = some op ∧ op.version = newest := by
    have hw := congrArg (fun x => x.written[1]?) hout
    simpa [outcome, bothMissed] using hw
  refine ⟨s, hsteps, hver ▸ ?_⟩
  exact missed_write_remembered hsteps
    (fun c hc _ _ _ => by simp [Call.Settled, phase_of_bothMissed hout c hc])
    hc hsrc hdst hfail ho hop

/-- The fan-out of the newer write parks its blob first, and that of the older one overwrites
it: nothing that `b` will get covers the newer write. -/
theorem newest_missed_write_forgotten :
    ∃ s, Steps (step pair) (fun _ _ => True) (init pair) s ∧ (∀ c ∈ s.calls, c.Settled) ∧
      s.writes.map WriteOp.version = [first, newest] ∧
      (∃ c ∈ s.calls, c.src = ascii "a" ∧ c.dst = ascii "b" ∧ c.origin = .fanOut 1 ∧ c.Failed) ∧
      ¬ Remembered pair s (ascii "a") (ascii "b") newest := by
  have hrun : (exec (step pair) (fun _ _ => true) (init pair) (twoMissed 1 0)).map outcome =
      some (bothMissed first) := by decide +kernel
  obtain ⟨s, hs, hout⟩ := Option.map_eq_some_iff.mp hrun
  have hphase := phase_of_bothMissed hout
  refine ⟨s, .of_exec_true hs,
    fun c hc => by simp [Call.Settled, hphase c hc], congrArg Outcome.written hout,
    call_of_bothMissed hout, ?_⟩
  rintro ⟨w, ⟨c, hc, -, -, hd, -⟩ | ⟨b, hb, hw⟩, hcmp⟩
  · rcases hd with hd | hd <;> simp [hphase c hc] at hd
  · have hparked := congrArg Outcome.parked hout
    simp only [outcome, hb, bothMissed, Option.map_some, Option.some.injEq] at hparked
    rw [hparked, List.mem_singleton] at hw
    rw [hw] at hcmp
    revert hcmp
    decide

end Kyria.Cluster
