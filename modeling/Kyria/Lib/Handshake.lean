import Kyria.Lib.Runs
import Kyria.Lib.Tally

/-!
Workers that are stopped by closing signals, and calls that stop them and wait for them.

Every worker waits for work or for its signal. A call to stop runs, once for all calls, a function
that closes the signals one after the other, and then waits until every worker has gone.
-/

namespace Kyria.Lib.Handshake

open Kyria.Lib.Runs Kyria.Lib.Tally

/-- How a worker waits: where both are ready, a `select` may take the work or the signal; a read
fails as soon as its connection is closed. -/
inductive Wait
  | select
  | read
  deriving DecidableEq, Repr

inductive Phase
  | waiting
  | working
  | exited
  deriving DecidableEq, Repr

/-- A worker, the number of the signal that ends it, and how many pieces of work it has begun. -/
structure Worker where
  wait : Wait
  signal : ℕ
  phase : Phase := .waiting
  runs : ℕ := 0
  deriving DecidableEq, Repr

/-- Where a call to stop stands: before the function that runs once, in it with `i` signals closed,
waiting for the workers, or back. -/
inductive Caller
  | calling
  | closing (i : ℕ)
  | draining
  | returned
  deriving DecidableEq, Repr

/-- The function that runs once has not begun, or runs, or is through. -/
inductive Once
  | fresh
  | running
  | done
  deriving DecidableEq, Repr

structure State where
  once : Once
  /-- How often each signal has been closed. -/
  closes : List ℕ
  workers : List Worker
  callers : List Caller
  deriving DecidableEq, Repr

/-- Nobody has called. -/
def start (signals : ℕ) (workers : List Worker) : State where
  once := .fresh
  closes := List.replicate signals 0
  workers := workers
  callers := []

def State.closed (s : State) (j : ℕ) : Bool := s.closes[j]?.any (0 < ·)

def State.moveWorker (s : State) (i : ℕ) (w : Worker) : State :=
  { s with workers := s.workers.set i w }

def State.moveCaller (s : State) (k : ℕ) (c : Caller) : State :=
  { s with callers := s.callers.set k c }

inductive Act
  | work
  | finish
  | exit
  deriving DecidableEq, Repr

inductive Action
  | worker (i : ℕ) (a : Act)
  /-- Someone calls. -/
  | call
  | enter (k : ℕ)
  | close (k : ℕ)
  | leave (k : ℕ)
  | back (k : ℕ)
  deriving DecidableEq, Repr

def workerStep (s : State) (w : Worker) : Act → Option Worker
  | .work =>
    if w.phase = .waiting ∧ (w.wait = .read → s.closed w.signal = false) then
      some { w with phase := .working, runs := w.runs + 1 }
    else none
  | .finish => if w.phase = .working then some { w with phase := .waiting } else none
  | .exit =>
    if w.phase = .waiting ∧ s.closed w.signal = true then some { w with phase := .exited } else none

def step (s : State) : Action → Option State
  | .worker i a => s.workers[i]?.bind fun w => (workerStep s w a).map (s.moveWorker i)
  | .call => some { s with callers := s.callers ++ [.calling] }
  | .enter k =>
    if s.callers[k]? = some .calling then
      match s.once with
      | .fresh => some { s.moveCaller k (.closing 0) with once := .running }
      -- the function is running for another call
      | .running => none
      | .done => some (s.moveCaller k .draining)
    else none
  | .close k =>
    match s.callers[k]? with
    | some (.closing i) =>
      if i < s.closes.length then
        some { s.moveCaller k (.closing (i + 1)) with closes := s.closes.modify i (· + 1) }
      else none
    | _ => none
  | .leave k =>
    if s.callers[k]? = some (.closing s.closes.length) then
      some { s.moveCaller k .draining with once := .done }
    else none
  | .back k =>
    if s.callers[k]? = some .draining ∧ ∀ w ∈ s.workers, w.phase = .exited then
      some (s.moveCaller k .returned)
    else none

variable {s t u : State} {i j k : ℕ} {w : Worker}

/-- What each action does, with its guards. -/
inductive Took (s : State) : Action → State → Prop
  | worker {i : ℕ} {a : Act} {w w' : Worker} (hw : s.workers[i]? = some w)
      (h : workerStep s w a = some w') : Took s (.worker i a) (s.moveWorker i w')
  | call : Took s .call { s with callers := s.callers ++ [.calling] }
  | first {k : ℕ} (hk : s.callers[k]? = some .calling) (honce : s.once = .fresh) :
      Took s (.enter k) { s.moveCaller k (.closing 0) with once := .running }
  | later {k : ℕ} (hk : s.callers[k]? = some .calling) (honce : s.once = .done) :
      Took s (.enter k) (s.moveCaller k .draining)
  | close {k i : ℕ} (hk : s.callers[k]? = some (.closing i)) (hi : i < s.closes.length) :
      Took s (.close k)
        { s.moveCaller k (.closing (i + 1)) with closes := s.closes.modify i (· + 1) }
  | leave {k : ℕ} (hk : s.callers[k]? = some (.closing s.closes.length)) :
      Took s (.leave k) { s.moveCaller k .draining with once := .done }
  | back {k : ℕ} (hk : s.callers[k]? = some .draining) (hw : ∀ w ∈ s.workers, w.phase = .exited) :
      Took s (.back k) (s.moveCaller k .returned)

lemma took_of_step {a : Action} (h : step s a = some u) : Took s a u := by
  cases a with
  | worker i a =>
    obtain ⟨w, hw, h⟩ := Option.bind_eq_some_iff.mp h
    obtain ⟨w', hw', rfl⟩ := Option.map_eq_some_iff.mp h
    exact .worker hw hw'
  | call =>
    cases h
    exact .call
  | enter k =>
    obtain ⟨hk, h⟩ := Option.ite_none_right_eq_some.mp h
    split at h
    · cases h
      exact .first hk ‹_›
    · cases h
    · cases h
      exact .later hk ‹_›
  | close k =>
    simp only [step] at h
    split at h
    · obtain ⟨hi, h⟩ := Option.ite_none_right_eq_some.mp h
      cases h
      exact .close ‹_› hi
    · cases h
  | leave k =>
    obtain ⟨hk, h⟩ := Option.ite_none_right_eq_some.mp h
    cases h
    exact .leave hk
  | back k =>
    obtain ⟨⟨hk, hw⟩, h⟩ := Option.ite_none_right_eq_some.mp h
    cases h
    exact .back hk hw

/-! ### The invariant -/

/-- The first `i` signals have been closed, once each. -/
def ClosedTo (closes : List ℕ) (i : ℕ) : Prop :=
  i ≤ closes.length ∧ ∀ j < closes.length, closes[j]? = some (if j < i then 1 else 0)

/-- How the function that runs once, the signals and the calls belong together. -/
inductive Stage (closes : List ℕ) (callers : List Caller) : Once → Prop
  | fresh (hclosed : ClosedTo closes 0) (hc : ∀ c ∈ callers, c = .calling) :
      Stage closes callers .fresh
  | running {k i : ℕ} (hclosed : ClosedTo closes i) (hk : callers[k]? = some (.closing i))
      (hc : ∀ j c, callers[j]? = some c → j ≠ k → c = .calling) : Stage closes callers .running
  | done (hclosed : ClosedTo closes closes.length) (hc : ∀ c ∈ callers, ∀ i, c ≠ .closing i) :
      Stage closes callers .done

structure Inv (s : State) : Prop where
  stage : Stage s.closes s.callers s.once
  signal : ∀ w ∈ s.workers, w.signal < s.closes.length
  exited : ∀ w ∈ s.workers, w.phase = .exited → s.closed w.signal = true
  returned : .returned ∈ s.callers → ∀ w ∈ s.workers, w.phase = .exited

lemma ClosedTo.modify {closes : List ℕ} (h : ClosedTo closes i) (hlt : i < closes.length) :
    ClosedTo (closes.modify i (· + 1)) (i + 1) := by
  refine ⟨by rwa [List.length_modify], fun j hj => ?_⟩
  rw [List.length_modify] at hj
  rw [List.getElem?_modify, h.2 j hj]
  split_ifs <;> simp_all <;> omega

lemma ClosedTo.closed (h : ClosedTo s.closes i) (hj : j < s.closes.length) (hji : j < i) :
    s.closed j = true := by
  simp [State.closed, h.2 j hj, hji]

lemma inv_start {signals : ℕ} {workers : List Worker} (hsignal : ∀ w ∈ workers, w.signal < signals)
    (hphase : ∀ w ∈ workers, w.phase = .waiting) : Inv (start signals workers) := by
  refine ⟨.fresh ⟨Nat.zero_le _, fun j hj => ?_⟩ (by simp [start]), ?_, fun w hw hx => ?_,
    by simp [start]⟩
  · simp only [start, List.length_replicate] at hj
    simp [start, hj]
  · simpa [start] using hsignal
  · exact absurd (hx.symm.trans (hphase w hw)) (by simp)

section Stage

variable {closes : List ℕ} {callers : List Caller} {once : Once}

lemma Stage.closedTo (h : Stage closes callers once) : ∃ i, ClosedTo closes i := by
  cases h with
  | fresh hclosed | running hclosed | done hclosed => exact ⟨_, hclosed⟩

lemma Stage.call (h : Stage closes callers once) : Stage closes (callers ++ [.calling]) once := by
  cases h with
  | fresh hclosed hc => exact .fresh hclosed (by simpa [or_imp, forall_and] using hc)
  | @running k i hclosed hk hc =>
    have hlt := (List.getElem?_eq_some_iff.mp hk).1
    refine .running hclosed (by rw [List.getElem?_append_left hlt, hk]) fun j c hj hne => ?_
    rw [List.getElem?_append] at hj
    split_ifs at hj
    · exact hc j c hj hne
    · exact List.mem_singleton.mp (List.mem_of_getElem? hj)
  | done hclosed hc => exact .done hclosed (by simpa [or_imp, forall_and] using hc)

lemma Stage.of_closing (h : Stage closes callers once) (hk : callers[k]? = some (.closing i)) :
    once = .running ∧ ClosedTo closes i ∧
      ∀ j c, callers[j]? = some c → j ≠ k → c = .calling := by
  cases h with
  | fresh hclosed hc => exact absurd (hc _ (List.mem_of_getElem? hk)) (by simp)
  | @running k₀ i₀ hclosed hk₀ hc =>
    by_cases hne : k = k₀
    · subst hne
      cases hk.symm.trans hk₀
      exact ⟨rfl, hclosed, hc⟩
    · exact absurd (hc k _ hk hne) (by simp)
  | done hclosed hc => exact absurd rfl (hc _ (List.mem_of_getElem? hk) i)

lemma Stage.of_draining (h : Stage closes callers once) (hk : .draining ∈ callers) :
    once = .done ∧ ClosedTo closes closes.length ∧ ∀ c ∈ callers, ∀ i, c ≠ .closing i := by
  cases h with
  | fresh hclosed hc => exact absurd (hc _ hk) (by simp)
  | @running k₀ i₀ hclosed hk₀ hc =>
    obtain ⟨k, hk⟩ := List.mem_iff_getElem?.mp hk
    by_cases hne : k = k₀
    · cases hk.symm.trans (hne ▸ hk₀)
    · exact absurd (hc k _ hk hne) (by simp)
  | done hclosed hc => exact ⟨rfl, hclosed, hc⟩

lemma Stage.set_done (hclosed : ClosedTo closes closes.length)
    (hc : ∀ c ∈ callers, ∀ i, c ≠ .closing i) {c : Caller} (hnew : ∀ i, c ≠ .closing i) :
    Stage closes (callers.set k c) .done := by
  refine .done hclosed fun c' hc' => ?_
  rcases List.mem_or_eq_of_mem_set hc' with hold | rfl
  · exact hc c' hold
  · exact hnew

lemma Stage.set_running (hclosed : ClosedTo closes i) (hlt : k < callers.length)
    (hc : ∀ j c, callers[j]? = some c → j ≠ k → c = .calling) :
    Stage closes (callers.set k (.closing i)) .running := by
  refine .running hclosed (List.getElem?_set_self hlt) fun j c hj hne => ?_
  rw [List.getElem?_set_ne (Ne.symm hne)] at hj
  exact hc j c hj hne

end Stage

lemma workerStep_of_exited {a : Act} (h : w.phase = .exited) : workerStep s w a = none := by
  cases a <;> simp [workerStep, h]

lemma workerStep_spec {a : Act} {w' : Worker} (h : workerStep s w a = some w') :
    w'.signal = w.signal ∧ (w'.phase = .exited → s.closed w.signal = true) := by
  cases a with
  | work =>
    obtain ⟨-, h⟩ := Option.ite_none_right_eq_some.mp h
    cases h
    exact ⟨rfl, by simp⟩
  | finish =>
    obtain ⟨-, h⟩ := Option.ite_none_right_eq_some.mp h
    cases h
    exact ⟨rfl, by simp⟩
  | exit =>
    obtain ⟨⟨-, hclosed⟩, h⟩ := Option.ite_none_right_eq_some.mp h
    cases h
    exact ⟨rfl, fun _ => hclosed⟩

lemma closed_modify {closes : List ℕ} (h : closes[j]?.any (0 < ·) = true) :
    (closes.modify i (· + 1))[j]?.any (0 < ·) = true := by
  rw [List.getElem?_modify]
  cases hj : closes[j]? with
  | none => simp [hj] at h
  | some n =>
    split_ifs
    · simp
    · simpa [hj] using h

lemma mem_returned_of_set {callers : List Caller} {c : Caller} (hc : c ≠ .returned)
    (h : .returned ∈ callers.set k c) : .returned ∈ callers :=
  (List.mem_or_eq_of_mem_set h).resolve_right (Ne.symm hc)

/-- **Every step keeps the invariant.** -/
lemma Inv.step (hi : Inv s) {a : Action} (h : step s a = some u) : Inv u := by
  have hstage := hi.stage
  cases took_of_step h with
  | @worker i a w w' hw hact =>
    have hmem := List.mem_of_getElem? hw
    obtain ⟨hsignal, hexit⟩ := workerStep_spec hact
    refine ⟨hstage, fun v hv => ?_, fun v hv hx => ?_, fun hret => ?_⟩
    · rcases List.mem_or_eq_of_mem_set hv with hv | rfl
      · exact hi.signal v hv
      · rw [hsignal]
        exact hi.signal w hmem
    · rcases List.mem_or_eq_of_mem_set hv with hv | rfl
      · exact hi.exited v hv hx
      · rw [hsignal]
        exact hexit hx
    · -- the workers have gone, so none can move
      rw [workerStep_of_exited (hi.returned hret w hmem)] at hact
      cases hact
  | call => exact ⟨hstage.call, hi.signal, hi.exited, fun hret => hi.returned (by simpa using hret)⟩
  | @first k hk honce =>
    rw [honce] at hstage
    obtain ⟨hclosed, hc⟩ := hstage
    refine ⟨?_, hi.signal, hi.exited, fun hret => hi.returned (mem_returned_of_set (by simp) hret)⟩
    exact .set_running hclosed (List.getElem?_eq_some_iff.mp hk).1
      fun j c hj _ => hc c (List.mem_of_getElem? hj)
  | @later k hk honce =>
    rw [honce] at hstage
    obtain ⟨⟩ | ⟨⟩ | ⟨hclosed, hc⟩ := hstage
    refine ⟨?_, hi.signal, hi.exited, fun hret => hi.returned (mem_returned_of_set (by simp) hret)⟩
    change Stage s.closes (s.callers.set k .draining) s.once
    exact honce ▸ .set_done hclosed hc (by simp)
  | @close k i hk hlt =>
    obtain ⟨honce, hclosed, hc⟩ := hstage.of_closing hk
    refine ⟨?_, fun w hw => ?_, fun w hw hx => closed_modify (hi.exited w hw hx),
      fun hret => hi.returned (mem_returned_of_set (by simp) hret)⟩
    · change Stage (s.closes.modify i (· + 1)) (s.callers.set k (.closing (i + 1))) s.once
      exact honce ▸ .set_running (hclosed.modify hlt) (List.getElem?_eq_some_iff.mp hk).1 hc
    · simpa using hi.signal w hw
  | @leave k hk =>
    obtain ⟨-, hclosed, hc⟩ := hstage.of_closing hk
    refine ⟨.done hclosed fun c hmem j hcj => ?_, hi.signal, hi.exited,
      fun hret => hi.returned (mem_returned_of_set (by simp) hret)⟩
    -- the others have not begun
    obtain ⟨j', hj'⟩ := List.mem_iff_getElem?.mp hmem
    change (s.callers.set k .draining)[j']? = some c at hj'
    rw [List.getElem?_set] at hj'
    split_ifs at hj' with hkj
    · cases hj'
      cases hcj
    · cases (hc j' c hj' (Ne.symm hkj)).symm.trans hcj
  | @back k hk hw =>
    obtain ⟨honce, hclosed, hc⟩ := hstage.of_draining (List.mem_of_getElem? hk)
    refine ⟨?_, hi.signal, hi.exited, fun _ => hw⟩
    change Stage s.closes (s.callers.set k .returned) s.once
    exact honce ▸ .set_done hclosed hc (by simp)

lemma Inv.closes_le_one (hi : Inv s) {n : ℕ} (hn : n ∈ s.closes) : n ≤ 1 := by
  obtain ⟨i, hclosed⟩ := hi.stage.closedTo
  obtain ⟨j, hj⟩ := List.mem_iff_getElem?.mp hn
  have hj' := hj.symm.trans (hclosed.2 j (List.getElem?_eq_some_iff.mp hj).1)
  split_ifs at hj' <;> simp_all

/-! ### After a call has returned -/

lemma workers_of_exited (hw : ∀ w ∈ s.workers, w.phase = .exited) {a : Action}
    (h : step s a = some u) : u.workers = s.workers := by
  cases took_of_step h with
  | worker hget hact =>
    rw [workerStep_of_exited (hw _ (List.mem_of_getElem? hget))] at hact
    cases hact
  | call | first | later | close | leave | back => rfl

lemma returned_mem_step (hret : .returned ∈ s.callers) {a : Action} (h : step s a = some u) :
    .returned ∈ u.callers := by
  obtain ⟨j, hj⟩ := List.mem_iff_getElem?.mp hret
  have hset : ∀ {k : ℕ} {c c' : Caller}, s.callers[k]? = some c → c ≠ .returned →
      .returned ∈ s.callers.set k c' := by
    intro k c c' hk hne
    have hkj : k ≠ j := by
      rintro rfl
      exact hne (Option.some.inj (hk.symm.trans hj))
    exact List.mem_of_getElem? (by rw [List.getElem?_set_ne hkj, hj])
  cases took_of_step h with
  | worker => exact hret
  | call => exact List.mem_append_left _ hret
  | first hk _ => exact hset hk (by simp)
  | later hk _ => exact hset hk (by simp)
  | close hk _ => exact hset hk (by simp)
  | leave hk => exact hset hk (by simp)
  | back hk _ => exact hset hk (by simp)

lemma length_callers {a : Action} (ha : a ≠ .call) (h : step s a = some u) :
    u.callers.length = s.callers.length := by
  cases took_of_step h with
  | call => exact absurd rfl ha
  | worker => rfl
  | first | later | close | leave | back => exact List.length_set

/-! ### Every call returns -/

def Phase.weight : Phase → ℕ
  | .waiting => 1
  | .working => 2
  | .exited => 0

/-- What a call of a function that closes `n` signals has before it. -/
def Caller.weight (n : ℕ) : Caller → ℕ
  | .calling => n + 3
  | .closing i => n - i + 2
  | .draining => 1
  | .returned => 0

def State.weight (s : State) : ℕ :=
  tally (·.phase.weight) s.workers + tally (Caller.weight s.closes.length) s.callers

/-- No worker takes new work, and nobody calls. -/
def Quiet (_ : State) (a : Action) : Prop := (∀ i, a ≠ .worker i .work) ∧ a ≠ .call

lemma weight_moveCaller {c q : Caller} (hk : s.callers[k]? = some c)
    (hlt : q.weight s.closes.length < c.weight s.closes.length) :
    (s.moveCaller k q).weight < s.weight := by
  have htally := tally_set (f := Caller.weight s.closes.length) (y := q) hk
  simp only [State.weight, State.moveCaller]
  omega

lemma lowers_quiet : Lowers step Quiet Inv State.weight := by
  intro s a u hi hquiet h
  refine ⟨hi.step h, ?_⟩
  cases took_of_step h with
  | @worker i a w w' hw hact =>
    have hlt : w'.phase.weight < w.phase.weight := by
      cases a with
      | work => exact absurd rfl (hquiet.1 i)
      | finish =>
        obtain ⟨hphase, h⟩ := Option.ite_none_right_eq_some.mp hact
        cases h
        simp [hphase, Phase.weight]
      | exit =>
        obtain ⟨⟨hphase, -⟩, h⟩ := Option.ite_none_right_eq_some.mp hact
        cases h
        simp [hphase, Phase.weight]
    have htally := tally_set (f := fun w : Worker => w.phase.weight) (y := w') hw
    simp only [State.weight, State.moveWorker]
    omega
  | call => exact absurd rfl hquiet.2
  | first hk _ => exact weight_moveCaller hk (by simp [Caller.weight])
  | later hk _ => exact weight_moveCaller hk (by simp [Caller.weight])
  | @close k i hk hlt =>
    have := weight_moveCaller hk (q := .closing (i + 1)) (by simp only [Caller.weight]; omega)
    simpa [State.weight, State.moveCaller] using this
  | leave hk => exact weight_moveCaller hk (by simp [Caller.weight])
  | back hk _ => exact weight_moveCaller hk (by simp [Caller.weight])

lemma exists_step_of_closing (hi : Inv s) (hk : s.callers[k]? = some (.closing i)) :
    ∃ a u, Quiet s a ∧ step s a = some u := by
  rcases (hi.stage.of_closing hk).2.1.1.lt_or_eq with hlt | rfl
  · exact ⟨.close k, _, by simp [Quiet], by simp [step, hk, hlt]; rfl⟩
  · exact ⟨.leave k, _, by simp [Quiet], by simp [step, hk]; rfl⟩

lemma exists_quiet_step (hi : Inv s) (hret : ¬ ∀ c ∈ s.callers, c = .returned) :
    ∃ a u, Quiet s a ∧ step s a = some u := by
  push Not at hret
  obtain ⟨c, hmem, hne⟩ := hret
  obtain ⟨k, hk⟩ := List.mem_iff_getElem?.mp hmem
  cases c with
  | calling =>
    cases honce : s.once with
    | fresh => exact ⟨.enter k, _, by simp [Quiet], by simp [step, hk, honce]; rfl⟩
    | running =>
      -- it waits for the call that runs the function
      have hstage := hi.stage
      rw [honce] at hstage
      obtain ⟨⟩ | ⟨-, hk', -⟩ | ⟨⟩ := hstage
      exact exists_step_of_closing hi hk'
    | done => exact ⟨.enter k, _, by simp [Quiet], by simp [step, hk, honce]; rfl⟩
  | closing i => exact exists_step_of_closing hi hk
  | draining =>
    obtain ⟨-, hclosed, -⟩ := hi.stage.of_draining hmem
    by_cases hw : ∀ w ∈ s.workers, w.phase = .exited
    · exact ⟨.back k, s.moveCaller k .returned, by simp [Quiet], by simp [step, hk]; exact hw⟩
    · push Not at hw
      obtain ⟨w, hmem, hw⟩ := hw
      obtain ⟨i, hi'⟩ := List.mem_iff_getElem?.mp hmem
      have hsig := hclosed.closed (hi.signal w hmem) (hi.signal w hmem)
      cases hp : w.phase with
      | waiting =>
        exact ⟨.worker i .exit, _, by simp [Quiet], by simp [step, hi', workerStep, hp, hsig]; rfl⟩
      | working =>
        exact ⟨.worker i .finish, _, by simp [Quiet], by simp [step, hi', workerStep, hp]; rfl⟩
      | exited => exact absurd hp hw
  | returned => exact absurd rfl hne

end Kyria.Lib.Handshake
