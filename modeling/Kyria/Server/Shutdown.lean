import Kyria.Server.Lifecycle

/-!
What `Close` brings about: a server that serves nobody any more, and that comes to its end.
-/

namespace Kyria.Server.Lifecycle

open Kyria.Lib.Runs Kyria.Lib.Tally

variable {cap : ℕ} {s t u : State} {i k : ℕ} {c : Conn}

/-! ### After `Close` -/

lemma closeStep_frame {p : CloseCall} (h : closeStep s k p = some u) :
    ∃ q, u.closers = s.closers.set k q ∧ q.weight < p.weight ∧ u.conns = s.conns ∧
      u.live = s.live ∧ u.serve = s.serve ∧ u.dispatched = s.dispatched := by
  cases p with
  | entered =>
    simp only [closeStep, Option.ite_none_right_eq_some] at h
    obtain ⟨-, h⟩ := h
    split at h <;> cases h
    · exact ⟨.waiting, rfl, by decide, rfl, rfl, rfl, rfl⟩
    · exact ⟨.flagged, rfl, by decide, rfl, rfl, rfl, rfl⟩
  | flagged =>
    cases h
    exact ⟨.walking, rfl, by decide, rfl, rfl, rfl, rfl⟩
  | walking =>
    obtain ⟨-, h⟩ := Option.ite_none_right_eq_some.mp h
    cases h
    exact ⟨.waiting, rfl, by decide, rfl, rfl, rfl, rfl⟩
  | waiting =>
    obtain ⟨-, h⟩ := Option.ite_none_right_eq_some.mp h
    cases h
    exact ⟨.returned, rfl, by decide, rfl, rfl, rfl, rfl⟩
  | returned => cases h

lemma dispatched_step (hi : Inv cap s) (hlive : s.live = ∅) {a : Action}
    (h : step cap s a = some u) : u.dispatched = s.dispatched := by
  cases took_of_step h with
  | @conn i c a u hc h =>
    obtain ⟨c', hm⟩ := connStep_moves hi hc h
    refine hm.dispatched (Bool.eq_false_iff.mpr fun ht => ?_)
    exact Finset.notMem_empty i (hlive ▸ (hi.mem_live_iff hc).mpr ht)
  | close hk h =>
    obtain ⟨q, -, -, -, -, -, hd⟩ := closeStep_frame h
    exact hd
  | _ => rfl

lemma returned_step (hi : Inv cap s) {a : Action} (h : step cap s a = some u)
    (hk : s.closers[k]? = some .returned) : u.closers[k]? = some .returned := by
  cases took_of_step h with
  | failed _ _ => exact (getElem?_append_entered (by simp) k).mpr hk
  | callClose => exact (getElem?_append_entered (by simp) k).mpr hk
  | conn hc h =>
    obtain ⟨c', hm⟩ := connStep_moves hi hc h
    rw [hm.rest.2.2.2.2, hk]
  | @close j p u hj h =>
    obtain ⟨q, hclosers, hlt, -⟩ := closeStep_frame h
    have hjk : j ≠ k := by
      rintro rfl
      cases hk.symm.trans hj
      simp [CloseCall.weight] at hlt
    rw [hclosers, List.getElem?_set_ne hjk, hk]
  | _ => exact hk

lemma length_closers_le (hi : Inv cap s) {a : Action} (h : step cap s a = some u) :
    s.closers.length ≤ u.closers.length := by
  cases took_of_step h with
  | failed _ _ => simp
  | callClose => simp
  | conn hc h =>
    obtain ⟨c', hm⟩ := connStep_moves hi hc h
    rw [hm.rest.2.2.2.2]
  | close _ h =>
    obtain ⟨q, hclosers, -⟩ := closeStep_frame h
    rw [hclosers, List.length_set]
  | _ => exact le_rfl

lemma Inv.untracked_of_returned (hi : Inv cap s) (hk : s.closers[k]? = some .returned) :
    s.live = ∅ ∧ s.listening = false ∧ ∀ c ∈ s.conns, c.phase.tracked = false := by
  obtain ⟨hclosed, hmu⟩ := hi.begun k (.inr hk)
  have hlive := hi.drained k hk
  refine ⟨hlive, (hi.quiet hclosed hmu).1, fun c hc => ?_⟩
  obtain ⟨i, hi'⟩ := List.mem_iff_getElem?.mp hc
  refine Bool.eq_false_iff.mpr fun ht => ?_
  exact Finset.notMem_empty i (hlive ▸ (hi.mem_live_iff hi').mpr ht)

/-- **A closed server serves nobody.** Once any call of `Close` has returned, no goroutine is
between `trackConn` and `untrackConn`, then or at any later time, whatever else goes on: no
connection is read from, no command reaches the handler and nothing is listened to. A connection
that was accepted before may still get its goroutine, which leaves at once. -/
theorem closed_serves_nobody (h : Reachable cap s) (hk : s.closers[k]? = some .returned)
    (hrun : Steps (step cap) (fun _ _ => True) s t) :
    t.live = ∅ ∧ t.listening = false ∧ t.dispatched = s.dispatched ∧
      ∀ c ∈ t.conns, c.phase.tracked = false := by
  have key : (Inv cap t ∧ t.closers[k]? = some .returned) ∧ t.dispatched = s.dispatched := by
    refine hrun.invariant (I := fun t => (Inv cap t ∧ t.closers[k]? = some .returned) ∧
      t.dispatched = s.dispatched) ⟨⟨h.inv, hk⟩, rfl⟩ ?_
    rintro t a u ⟨⟨hi, hret⟩, hd⟩ - hstep
    exact ⟨⟨hi.step hstep, returned_step hi hstep hret⟩,
      (dispatched_step hi (hi.drained k hret) hstep).trans hd⟩
  obtain ⟨⟨hi, hret⟩, hd⟩ := key
  obtain ⟨hlive, hlistening, htracked⟩ := hi.untracked_of_returned hret
  exact ⟨hlive, hlistening, hd, htracked⟩

/-- `Close` has returned while a connection was accepted and not counted yet. -/
def State.early : State :=
  { State.initial with slots := 1, closed := true, listening := false, serve := .accepted 0
                       conns := [⟨.accepted, true⟩], closers := [.returned] }

/-- Its goroutine has started since, and has found the server closed. -/
def State.late : State :=
  { State.early with wg := 1, serve := .acquiring, conns := [⟨.untracked, true⟩] }

theorem closed_serves_nobody_late :
    State.early.closers[0]? = some .returned ∧ State.late.live = ∅ ∧
      State.late.listening = false ∧ State.late.dispatched = State.early.dispatched ∧
      ∀ c ∈ State.late.conns, c.phase.tracked = false := by
  have hearly : Reachable 1 .early := reachable_of_run
    [.acquire, .accept, .callClose, .close 0, .close 0, .close 0, .close 0] (by decide)
  have hlate : exec (step 1) (fun _ _ => true) .early [.addWg, .spawn, .conn 0 .track] =
    some .late := by decide
  exact ⟨rfl, closed_serves_nobody hearly (k := 0) rfl (.of_exec_true hlate)⟩

/-! ### The end of a shutdown -/

/-- Everything has returned. -/
def State.Finished (s : State) : Prop :=
  s.serve = .returned ∧ (∀ c ∈ s.conns, c.phase = .finished) ∧ ∀ p ∈ s.closers, p = .returned

/-- How far a closed server is from its end. -/
def State.weight (s : State) : ℕ :=
  s.serve.weight + tally (·.phase.weight) s.conns + tally CloseCall.weight s.closers

/-- The first call of `Close` is through with the listener and the tracked connections. -/
structure Shut (cap : ℕ) (s : State) : Prop where
  inv : Inv cap s
  closed : s.closed = true
  mu : s.mu = none

/-- What the server does by itself: everything but a new call of `Close`. -/
def Own (_ : State) (a : Action) : Prop := a ≠ .callClose

/-- What it does without an `Add` from zero during a `Wait`, on which Go's wait group panics. The
model leaves the panic out; a connection that was accepted before `Close` can bring it about. -/
def Clean (s : State) (a : Action) : Prop :=
  Own s a ∧ ¬ (a = .addWg ∧ s.wg = 0 ∧ .waiting ∈ s.closers)

lemma Shut.closed_conn (hs : Shut cap s) (hc : s.conns[i]? = some c)
    (ht : c.phase.tracked = true) : c.isOpen = false := by
  obtain ⟨-, hopen⟩ := hs.inv.quiet hs.closed hs.mu
  refine Bool.eq_false_iff.mpr fun ho => ?_
  exact Finset.notMem_empty i
    (hopen ▸ mem_openLive.mpr ⟨(hs.inv.mem_live_iff hc).mpr ht, c, hc, ho⟩)

lemma Shut.not_locked (hs : Shut cap s) :
    s.closers[k]? ≠ some .flagged ∧ s.closers[k]? ≠ some .walking := by
  constructor <;> intro hk
  · exact absurd (hs.mu.symm.trans (hs.inv.locked k (.inl hk))) (by simp)
  · exact absurd (hs.mu.symm.trans (hs.inv.locked k (.inr hk))) (by simp)

lemma Shut.closeStep {p : CloseCall} (hs : Shut cap s) (hk : s.closers[k]? = some p)
    (h : closeStep s k p = some u) : u.closed = true ∧ u.mu = none := by
  cases p with
  | entered =>
    simp only [Lifecycle.closeStep, if_pos hs.mu, if_pos hs.closed, Option.some.injEq] at h
    exact h ▸ ⟨hs.closed, hs.mu⟩
  | flagged => exact absurd hk hs.not_locked.1
  | walking => exact absurd hk hs.not_locked.2
  | waiting =>
    obtain ⟨-, h⟩ := Option.ite_none_right_eq_some.mp h
    cases h
    exact ⟨hs.closed, hs.mu⟩
  | returned => cases h

/-- **Every step of a shut server takes it nearer to its end.** -/
lemma lowers_shut : Lowers (step cap) Own (Shut cap) State.weight := by
  intro s a u hs hown h
  have hu := hs.inv.step h
  cases took_of_step h with
  | acquire hserve hn =>
    refine ⟨⟨hu, hs.closed, hs.mu⟩, ?_⟩
    simp [State.weight, hserve, Serve.weight]
  | accept hserve hlistening =>
    exact absurd hlistening (by simp [(hs.inv.quiet hs.closed hs.mu).1])
  | acceptError hserve =>
    refine ⟨⟨hu, hs.closed, hs.mu⟩, ?_⟩
    simp [State.weight, hserve, Serve.weight]
  | addWg hserve =>
    refine ⟨⟨hu, hs.closed, hs.mu⟩, ?_⟩
    simp [State.weight, hserve, Serve.weight]
  | @spawn i c hserve hc =>
    refine ⟨⟨hu, hs.closed, hs.mu⟩, ?_⟩
    obtain ⟨d, hd, hacc⟩ := (hs.inv.pending i).mpr (.inr hserve)
    cases hc.symm.trans hd
    have htally := tally_set (f := (·.phase.weight)) (y := { c with phase := .starting }) hc
    have hw : c.phase.weight = 9 := by rw [hacc]; rfl
    simp only [State.weight, hserve, State.move, Serve.weight]
    change _ + _ = _ + 8 at htally
    omega
  | closing hserve hclosed =>
    refine ⟨⟨hu, hs.closed, hs.mu⟩, ?_⟩
    simp [State.weight, hserve, Serve.weight]
  | failed hserve hclosed => exact absurd hs.closed (by simp [hclosed])
  | serveReturns hserve hk =>
    refine ⟨⟨hu, hs.closed, hs.mu⟩, ?_⟩
    simp [State.weight, hserve, Serve.weight]
  | conn hc h =>
    obtain ⟨c', hm⟩ := connStep_moves hs.inv hc h
    obtain ⟨hmu, hclosed, -, hserve, hclosers⟩ := hm.rest
    have htally := hm.tally hc (f := (·.phase.weight))
    have hlt := hm.lowers hs.closed (hs.closed_conn hc)
    refine ⟨⟨hu, hclosed.trans hs.closed, hmu.trans hs.mu⟩, ?_⟩
    simp only [State.weight, hserve, hclosers]
    omega
  | callClose => exact absurd rfl hown
  | close hk h =>
    obtain ⟨q, hclosers, hlt, hconns, -, hserve, -⟩ := closeStep_frame h
    obtain ⟨hclosed, hmu⟩ := hs.closeStep hk h
    have htally := tally_set (f := CloseCall.weight) (y := q) hk
    refine ⟨⟨hu, hclosed, hmu⟩, ?_⟩
    simp only [State.weight, hserve, hconns, hclosers]
    omega
  | closeLive hk _ _ => exact absurd hk hs.not_locked.2

lemma Shut.exists_connStep (hs : Shut cap s) (hc : s.conns[i]? = some c)
    (hacc : c.phase ≠ .accepted) (hfin : c.phase ≠ .finished) :
    ∃ a u, connStep cap s i c a = some u := by
  have hwg : c.phase.counted ≤ s.wg := by
    have := le_tally (f := (·.phase.counted)) hc
    have := hs.inv.wg
    omega
  have hslots : cap ≠ 0 → c.phase.holds ≤ s.slots := by
    intro hcap
    have := le_tally (f := (·.phase.holds)) hc
    have := (hs.inv.slots hcap).1
    omega
  cases hp : c.phase with
  | accepted => exact absurd hp hacc
  | starting =>
    refine ⟨.track, s.move i { c with phase := .untracked }, ?_⟩
    simp [connStep, hp, hs.mu, hs.closed]
  | reading => exact ⟨.decoded .gone, s.move i { c with phase := .leaving }, by simp [connStep, hp]⟩
  | handling =>
    exact ⟨.handled, s.move i { c with phase := .replying false }, by simp [connStep, hp]⟩
  | replying last =>
    exact ⟨.wrote false, s.move i { c with phase := .leaving }, by simp [connStep, hp]⟩
  | leaving =>
    exact ⟨.untrack, { s.move i { c with phase := .untracked } with live := s.live.erase i },
      by simp [connStep, hp, hs.mu]⟩
  | untracked => exact ⟨.close, s.move i ⟨.closed, false⟩, by simp [connStep, hp]⟩
  | closed =>
    -- the slot this connection holds is there to be given back
    have hrel : ∃ n, release cap s.slots = some n := by
      by_cases hcap : cap = 0
      · exact ⟨s.slots, by simp [release, hcap]⟩
      · have hpos : 0 < s.slots := (hp ▸ hslots hcap : Phase.closed.holds ≤ s.slots)
        exact ⟨s.slots - 1, by simp [release, hcap, hpos]⟩
    obtain ⟨n, hn⟩ := hrel
    exact ⟨.release, { s.move i { c with phase := .released } with slots := n },
      by simp [connStep, hp, hn]⟩
  | released =>
    have hpos : 0 < s.wg := (hp ▸ hwg : Phase.released.counted ≤ s.wg)
    exact ⟨.done, { s.move i { c with phase := .finished } with wg := s.wg - 1 },
      by simp [connStep, hp, hpos]⟩
  | finished => exact absurd hp hfin

lemma Shut.exists_closeStep (hs : Shut cap s) {p : CloseCall} (hk : s.closers[k]? = some p)
    (hp : p ≠ .returned) (hwg : s.wg = 0) : ∃ u, Lifecycle.closeStep s k p = some u := by
  cases p with
  | entered => exact ⟨s.moveClose k .waiting, by simp [Lifecycle.closeStep, hs.mu, hs.closed]⟩
  | flagged => exact absurd hk hs.not_locked.1
  | walking => exact absurd hk hs.not_locked.2
  | waiting => exact ⟨s.moveClose k .returned, by simp [Lifecycle.closeStep, hwg]⟩
  | returned => exact absurd rfl hp

lemma Shut.exists_step_close (hs : Shut cap s) {p : CloseCall} (hk : s.closers[k]? = some p)
    (hp : p ≠ .returned) (hwg : s.wg = 0) : ∃ a u, Clean s a ∧ step cap s a = some u := by
  obtain ⟨u, hu⟩ := hs.exists_closeStep hk hp hwg
  exact ⟨.close k, u, by simp [Clean, Own], by simp [step, hk, hu]⟩

lemma Shut.exists_step_add (hs : Shut cap s) (hserve : s.serve = .accepted i) :
    ∃ a u, Clean s a ∧ step cap s a = some u := by
  -- a call of `Close` that the `Add` would disturb can return first
  by_cases hmis : s.wg = 0 ∧ .waiting ∈ s.closers
  · obtain ⟨k, hk⟩ := List.mem_iff_getElem?.mp hmis.2
    exact hs.exists_step_close hk (by simp) hmis.1
  · exact ⟨.addWg, { s with wg := s.wg + 1, serve := .added i },
      ⟨by simp [Own], fun h => hmis h.2⟩, by simp [step, hserve]⟩

lemma tally_finished {f : Phase → ℕ} (hf : f .finished = 0)
    (hfin : ∀ c ∈ s.conns, c.phase = .finished) : tally (fun c => f c.phase) s.conns = 0 := by
  rw [tally, List.sum_eq_zero_iff]
  intro n hn
  obtain ⟨c, hc, rfl⟩ := List.mem_map.mp hn
  rw [hfin c hc, hf]

/-- **A shut server that has not finished can take a step**, also at its cap: a goroutine can go
on as long as there is one, and then the slots are free. -/
lemma Shut.exists_step (hs : Shut cap s) (hfin : ¬ s.Finished) :
    ∃ a u, Clean s a ∧ step cap s a = some u := by
  by_cases hconns : ∀ c ∈ s.conns, c.phase = .finished
  · have hslots : cap ≠ 0 → s.slots = s.serve.holds := by
      intro hcap
      have := (hs.inv.slots hcap).1
      rwa [tally_finished rfl hconns, Nat.zero_add] at this
    have hwg : s.wg = s.serve.counted := by
      have := hs.inv.wg
      rwa [tally_finished rfl hconns, Nat.zero_add] at this
    cases hserve : s.serve with
    | acquiring =>
      have hacq : ∃ n, acquire cap s.slots = some n := by
        by_cases hcap : cap = 0
        · exact ⟨s.slots, by simp [acquire, hcap]⟩
        · have h0 : s.slots = 0 := by rw [hslots hcap, hserve]; rfl
          exact ⟨1, by simp [acquire, hcap, h0, Nat.pos_of_ne_zero hcap]⟩
      obtain ⟨n, hn⟩ := hacq
      exact ⟨.acquire, _, by simp [Clean, Own], by simp [step, hserve, hn]; rfl⟩
    | accepting => exact ⟨.acceptError, _, by simp [Clean, Own], by simp [step, hserve]; rfl⟩
    | accepted i => exact hs.exists_step_add hserve
    | added i =>
      obtain ⟨c, hc, -⟩ := (hs.inv.pending i).mpr (.inr hserve)
      exact ⟨.spawn, _, by simp [Clean, Own], by simp [step, hserve, hc]; rfl⟩
    | failed =>
      exact ⟨.checkClosing, _, by simp [Clean, Own], by simp [step, hserve, hs.mu, hs.closed]; rfl⟩
    | closing k =>
      -- the accept loop waits for its own call of `Close`
      have hlt : k < s.closers.length := hs.inv.own k hserve
      have hk : s.closers[k]? = some s.closers[k] := List.getElem?_eq_getElem hlt
      by_cases hret : s.closers[k] = .returned
      · exact ⟨.serveReturns, _, by simp [Clean, Own], by simp [step, hserve, hk, hret]; rfl⟩
      · exact hs.exists_step_close hk hret (by rw [hwg, hserve]; rfl)
    | returned =>
      have hclose : ∃ p ∈ s.closers, p ≠ .returned := by
        by_contra hnone
        push Not at hnone
        exact hfin ⟨hserve, hconns, hnone⟩
      obtain ⟨p, hp, hret⟩ := hclose
      obtain ⟨k, hk⟩ := List.mem_iff_getElem?.mp hp
      exact hs.exists_step_close hk hret (by rw [hwg, hserve]; rfl)
  · push Not at hconns
    obtain ⟨c, hc, hne⟩ := hconns
    obtain ⟨i, hi⟩ := List.mem_iff_getElem?.mp hc
    by_cases hacc : c.phase = .accepted
    · -- its goroutine is about to be started
      rcases (hs.inv.pending i).mp ⟨c, hi, hacc⟩ with hserve | hserve
      · exact hs.exists_step_add hserve
      · exact ⟨.spawn, _, by simp [Clean, Own], by simp [step, hserve, hi]; rfl⟩
    · obtain ⟨a, u, hu⟩ := hs.exists_connStep hi hacc hne
      exact ⟨.conn i a, u, by simp [Clean, Own], by simp [step, hi, hu]⟩

/-! ### The way to a shut server -/

/-- A step of a call of `Close` within its section, or of one that enters. -/
def Closing (_ : State) (a : Action) : Prop := (∃ k, a = .close k) ∨ ∃ k i, a = .closeLive k i

/-- How far the calls of `Close` are from having the server shut. -/
def State.closeWeight (s : State) : ℕ := tally CloseCall.weight s.closers + s.openLive.card

lemma card_openLive_lt (hc : s.conns[i]? = some c) (hopen : i ∈ s.openLive) :
    (s.move i { c with isOpen := false }).openLive.card < s.openLive.card := by
  have hlt : i < s.conns.length := (List.getElem?_eq_some_iff.mp hc).1
  refine Finset.card_lt_card (Finset.ssubset_iff_of_subset ?_ |>.mpr ⟨i, hopen, ?_⟩)
  · intro j hj
    obtain ⟨hlive, d, hd, ho⟩ := mem_openLive.mp hj
    by_cases hij : i = j
    · simp [State.move, hij, hij ▸ hlt] at hd
      simp [← hd] at ho
    · simp only [State.move, List.getElem?_set_ne hij] at hd
      exact mem_openLive.mpr ⟨hlive, d, hd, ho⟩
  · simp [mem_openLive, State.move, hlt]

lemma lowers_closing :
    Lowers (step cap) Closing (fun s => Inv cap s ∧ s.closers ≠ []) State.closeWeight := by
  intro s a u hs hclosing h
  obtain ⟨hi, hne⟩ := hs
  have hu := hi.step h
  rcases hclosing with ⟨k, rfl⟩ | ⟨k, i, rfl⟩
  · cases took_of_step h with
    | close hk h =>
      obtain ⟨q, hclosers, hlt, hconns, hlive, -, -⟩ := closeStep_frame h
      have htally := tally_set (f := CloseCall.weight) (y := q) hk
      refine ⟨⟨hu, by simpa [hclosers] using hne⟩, ?_⟩
      simp only [State.closeWeight, State.openLive, hclosers, hconns, hlive]
      omega
  · cases took_of_step h with
    | closeLive hk hopen hc =>
      refine ⟨⟨hu, hne⟩, ?_⟩
      exact Nat.add_lt_add_left (card_openLive_lt hc hopen) _

lemma exists_closing_step (hi : Inv cap s) (hne : s.closers ≠ [])
    (hshut : ¬ (s.closed = true ∧ s.mu = none)) : ∃ a u, Closing s a ∧ step cap s a = some u := by
  cases hmu : s.mu with
  | some k =>
    obtain ⟨-, hk | ⟨hk, -⟩⟩ := hi.owner k hmu
    · exact ⟨.close k, _, .inl ⟨k, rfl⟩, by simp [step, hk, closeStep]; rfl⟩
    · by_cases hopen : s.openLive = ∅
      · exact ⟨.close k, _, .inl ⟨k, rfl⟩, by simp [step, hk, closeStep, hopen]; rfl⟩
      · obtain ⟨i, hi'⟩ := Finset.nonempty_iff_ne_empty.mpr hopen
        obtain ⟨-, c, hc, -⟩ := mem_openLive.mp hi'
        exact ⟨.closeLive k i, _, .inr ⟨k, i, rfl⟩, by simp [step, hk, hi', hc]; rfl⟩
  | none =>
    have hclosed : s.closed = false := by simpa [hmu] using hshut
    obtain ⟨p, l, hl⟩ := List.exists_cons_of_ne_nil hne
    have h0 : s.closers[0]? = some p := by simp [hl]
    -- a call that is past its section would have closed the server
    cases p with
    | entered =>
      exact ⟨.close 0, _, .inl ⟨0, rfl⟩, by simp [step, h0, closeStep, hmu, hclosed]; rfl⟩
    | flagged => exact absurd (hmu.symm.trans (hi.locked 0 (.inl h0))) (by simp)
    | walking => exact absurd (hmu.symm.trans (hi.locked 0 (.inr h0))) (by simp)
    | waiting => exact absurd (hi.begun 0 (.inl h0)).1 (by simp [hclosed])
    | returned => exact absurd (hi.begun 0 (.inr h0)).1 (by simp [hclosed])

lemma exists_finished (hi : Inv cap s) (hclose : s.closers ≠ []) :
    ∃ t, Steps (step cap) Clean s t ∧ t.Finished := by
  obtain ⟨u, hrun, ⟨hiu, -⟩, hclosed, hmu⟩ := lowers_closing.exists_final
    (F := fun s => s.closed = true ∧ s.mu = none) (fun s hs => exists_closing_step hs.1 hs.2)
    ⟨hi, hclose⟩
  obtain ⟨t, hrun', -, hfin⟩ := (lowers_shut.mono fun _ _ h => h.1).exists_final
    (F := State.Finished) (fun s hs => hs.exists_step) ⟨hiu, hclosed, hmu⟩
  refine ⟨t, (hrun.mono fun s a ha => ?_).trans hrun', hfin⟩
  rcases ha with ⟨k, rfl⟩ | ⟨k, i, rfl⟩ <;> simp [Clean, Own]

/-- **A shutdown completes.** From every state in which `Close` has been called, by anyone and any
number of times, the server can get to where the accept loop, all connections and all calls of
`Close` have returned. Once the first call is through with the connections this cannot fail: no
run of the server's own takes more than `weight` steps, and one without an `Add` from zero during
a `Wait` that cannot go on is there. -/
theorem shutdown_completes (h : Reachable cap s) (hclose : s.closers ≠ []) :
    (∃ t, Steps (step cap) Clean s t ∧ t.Finished) ∧
    (s.closed = true → s.mu = none →
      (∀ n t, StepsIn (step cap) Own s n t → n ≤ s.weight) ∧
      ∀ t, Steps (step cap) Clean s t → (∀ a u, Clean t a → step cap t a ≠ some u) →
        t.Finished) := by
  have hi := h.inv
  refine ⟨exists_finished hi hclose, ?_⟩
  intro hclosed hmu
  have hs : Shut cap s := ⟨hi, hclosed, hmu⟩
  refine ⟨fun n t hrun => hrun.length_le hs lowers_shut, fun t hrun hstuck => ?_⟩
  have ht : Shut cap t := hrun.invariant (I := Shut cap) hs
    fun s a u hs hclean hstep => (lowers_shut s a u hs hclean.1 hstep).1
  by_contra hfin
  obtain ⟨a, u, hclean, hu⟩ := ht.exists_step hfin
  exact hstuck a u hclean hu

/-- `Close` is called on a server at its cap. -/
theorem shutdown_completes_full :
    ∃ t, Steps (step 1) Clean { State.full with closers := [.entered] } t ∧ t.Finished :=
  (shutdown_completes (reachable_full.tail .callClose trivial rfl) (List.cons_ne_nil _ _)).1

end Kyria.Server.Lifecycle
