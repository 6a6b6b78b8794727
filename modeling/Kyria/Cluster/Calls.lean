import Kyria.Cluster.Simulation

/-!
The life of a replicated request, apart from what it carries.

A step moves at most one request on, or sends new ones; hints change only when a failed
fan-out parks its blob and when a replayed hint is taken off.
-/

namespace Kyria.Cluster

open Kyria.Lib.Cursor Kyria.Lib.Runs
open Kyria.Version Kyria.Store Kyria.Replica Kyria.Handoff Kyria.Protocol Kyria.Coordinator
open Kyria.TombstoneGC

variable {σ : Type} {cfg : Config σ} {s s' : State σ} {a : Action}

/-- `Replicate` has returned without an error. -/
def Call.Delivered (c : Call) : Prop := c.phase = .acked ∨ c.phase = .finished true

/-- `Replicate` has returned an error. -/
def Call.Failed (c : Call) : Prop :=
  c.phase = .failed ∨ c.phase = .parked ∨ c.phase = .finished false

/-- One step in the life of a request, other than its handling and the parking of its blob. -/
inductive CallStep : Call → Call → Prop
  | lost (c : Call) : CallStep c { c with lost := true }
  | acked (c : Call) (h : c.phase = .sent) (hh : c.handled = true) :
      CallStep c { c with phase := .acked }
  | failed (c : Call) (h : c.phase = .sent) : CallStep c { c with phase := .failed }
  | finished (c : Call) (ok : Bool)
      (h : c.phase = .acked ∧ ok = true ∨ c.phase = .parked ∧ ok = false) :
      CallStep c { c with phase := .finished ok }

/-- What a step does to the requests: one moves on, or new ones are sent. -/
inductive CallsStep (a : Action) (cs : List Call) : List Call → Prop
  | moves {i : ℕ} {c c' : Call} (hi : cs[i]? = some c) (h : CallStep c c') :
      CallsStep a cs (cs.set i c')
  | handles {i : ℕ} {env : Env} {c : Call} (ha : a = .deliver i env) (hi : cs[i]? = some c)
      (ok : Bool) : CallsStep a cs (cs.set i { c with handled := c.handled || ok })
  | parks {i : ℕ} {c : Call} (ha : a = .park i) (hi : cs[i]? = some c) (h : c.phase = .failed) :
      CallsStep a cs (cs.set i { c with phase := .parked })
  | sends (new : List Call) (h : ∀ c ∈ new, c.phase = .sent ∧ c.handled = false)
      (ho : a.minter = none → ∀ c ∈ new, c.origin.isFanOut = false) : CallsStep a cs (cs ++ new)

lemma CallsStep.refl (a : Action) (cs : List Call) : CallsStep a cs cs := by
  have h : CallsStep a cs (cs ++ []) := .sends [] (by simp) (by simp)
  rwa [List.append_nil] at h

theorem step_calls (h : step cfg s a = some s') : CallsStep a s.calls s'.calls := by
  have hfan : ∀ self owners o r, a.minter = some self →
      CallsStep a s.calls (fanOut cfg s self owners o r).calls := by
    rintro self owners o ⟨_ | ⟨kind, v⟩, m⟩ ha
    · exact .refl _ _
    · exact .sends _ (by simp [fanOutCalls]) (by simp [ha])
  cases stepped h with
  | write | delete => exact hfan _ _ _ _ rfl
  | deliver hi => exact .handles rfl hi _
  | lose hi => exact .moves hi (.lost _)
  | ack hi hp hh => exact .moves hi (.acked _ hp hh)
  | fail hi hp => exact .moves hi (.failed _ hp)
  | park hi hp => exact .parks rfl hi hp
  | report hi _ hp => exact .moves hi (.finished _ _ hp)
  | forget hi hp => exact .moves hi (.finished _ true (.inl ⟨hp, rfl⟩))
  | @replay self =>
    have hnew : ∀ c ∈ replayCalls cfg s self, c.phase = .sent ∧ c.handled = false ∧
        c.origin.isFanOut = false := by
      intro c hc
      obtain ⟨x, -, rfl⟩ := List.mem_map.mp hc
      exact ⟨rfl, rfl, rfl⟩
    exact .sends _ (fun c hc => ⟨(hnew c hc).1, (hnew c hc).2.1⟩) fun _ c hc => (hnew c hc).2.2
  | @repair j env coord need st r todo =>
    cases r with
    | own merged => exact .refl _ _
    | push addr v => exact .sends _ (by simp) (by simp [Origin.isFanOut])
  | _ => exact .refl _ _

/-- `c'` is the request `c` at another stage of its life. -/
structure SameCall (c c' : Call) : Prop where
  src : c'.src = c.src
  dst : c'.dst = c.dst
  blob : c'.blob = c.blob
  origin : c'.origin = c.origin

lemma SameCall.refl (c : Call) : SameCall c c := ⟨rfl, rfl, rfl, rfl⟩

lemma CallStep.same {c c' : Call} (h : CallStep c c') : SameCall c c' := by
  cases h <;> exact ⟨rfl, rfl, rfl, rfl⟩

lemma CallStep.delivered {c c' : Call} (h : CallStep c c') (hd : c.Delivered) : c'.Delivered := by
  cases h with
  | lost => exact hd
  | acked hs | failed hs => rcases hd with hd | hd <;> simp [hs] at hd
  | finished ok hok =>
    rcases hok with ⟨-, rfl⟩ | ⟨hp, -⟩
    · exact .inr rfl
    · rcases hd with hd | hd <;> simp [hp] at hd

/-- The goroutine of a failed request has parked its blob. -/
def Call.Missed (c : Call) : Prop := c.phase = .parked ∨ c.phase = .finished false

lemma CallStep.missed {c c' : Call} (h : CallStep c c') (hm : c'.Missed) : c.Missed := by
  cases h with
  | lost => exact hm
  | acked | failed => rcases hm with hm | hm <;> simp at hm
  | finished ok hok =>
    rcases hok with ⟨-, rfl⟩ | ⟨hp, -⟩
    · rcases hm with hm | hm <;> simp at hm
    · exact .inl hp

lemma mem_set_or {α : Type} {l : List α} {i : ℕ} {x y z : α} (hi : l[i]? = some y) (hx : x ∈ l) :
    x ∈ l.set i z ∨ x = y ∧ z ∈ l.set i z := by
  obtain ⟨k, hk⟩ := List.mem_iff_getElem?.mp hx
  have hlt := (List.getElem?_eq_some_iff.mp hi).1
  by_cases hki : k = i
  · subst hki
    rw [hi, Option.some.injEq] at hk
    exact .inr ⟨hk.symm, List.mem_set hlt z⟩
  · refine .inl (List.mem_iff_getElem?.mpr ⟨k, ?_⟩)
    rwa [List.getElem?_set_ne (Ne.symm hki)]

lemma CallsStep.forward {cs cs' : List Call} (h : CallsStep a cs cs') {c : Call} (hc : c ∈ cs) :
    ∃ c' ∈ cs', SameCall c c' ∧ (c.Delivered → c'.Delivered) := by
  cases h with
  | moves hi hstep =>
    rcases mem_set_or hi hc with hmem | ⟨rfl, hmem⟩
    · exact ⟨c, hmem, .refl c, id⟩
    · exact ⟨_, hmem, hstep.same, hstep.delivered⟩
  | handles _ hi =>
    rcases mem_set_or hi hc with hmem | ⟨rfl, hmem⟩
    · exact ⟨c, hmem, .refl c, id⟩
    · exact ⟨_, hmem, ⟨rfl, rfl, rfl, rfl⟩, id⟩
  | parks _ hi hp =>
    rcases mem_set_or hi hc with hmem | ⟨rfl, hmem⟩
    · exact ⟨c, hmem, .refl c, id⟩
    · refine ⟨_, hmem, ⟨rfl, rfl, rfl, rfl⟩, ?_⟩
      rintro (hd | hd) <;> simp [hp] at hd
  | sends new => exact ⟨c, List.mem_append_left _ hc, .refl c, id⟩

lemma CallsStep.missed {cs cs' : List Call} (h : CallsStep a cs cs') {c' : Call} (hc : c' ∈ cs')
    (hm : c'.Missed) : (∃ c ∈ cs, SameCall c c' ∧ c.Missed) ∨
      ∃ i c, a = .park i ∧ cs[i]? = some c ∧ c' = { c with phase := .parked } := by
  cases h with
  | moves hi hstep =>
    rcases List.mem_or_eq_of_mem_set hc with hmem | rfl
    · exact .inl ⟨c', hmem, .refl c', hm⟩
    · exact .inl ⟨_, List.mem_of_getElem? hi, hstep.same, hstep.missed hm⟩
  | handles _ hi =>
    rcases List.mem_or_eq_of_mem_set hc with hmem | rfl
    · exact .inl ⟨c', hmem, .refl c', hm⟩
    · exact .inl ⟨_, List.mem_of_getElem? hi, ⟨rfl, rfl, rfl, rfl⟩, hm⟩
  | @parks i c ha hi hp =>
    rcases List.mem_or_eq_of_mem_set hc with hmem | rfl
    · exact .inl ⟨c', hmem, .refl c', hm⟩
    · exact .inr ⟨i, c, ha, hi, rfl⟩
  | sends new hnew =>
    rcases List.mem_append.mp hc with hmem | hmem
    · exact .inl ⟨c', hmem, .refl c', hm⟩
    · rcases hm with hm | hm <;> simp [(hnew c' hmem).1] at hm

lemma CallsStep.backward {cs cs' : List Call} (h : CallsStep a cs cs') {c' : Call}
    (hc : c' ∈ cs') :
    (∃ c ∈ cs, SameCall c c') ∨ (a.minter = none → c'.origin.isFanOut = false) := by
  cases h with
  | moves hi hstep =>
    rcases List.mem_or_eq_of_mem_set hc with hmem | rfl
    · exact .inl ⟨c', hmem, .refl c'⟩
    · exact .inl ⟨_, List.mem_of_getElem? hi, hstep.same⟩
  | handles _ hi | parks _ hi =>
    rcases List.mem_or_eq_of_mem_set hc with hmem | rfl
    · exact .inl ⟨c', hmem, .refl c'⟩
    · exact .inl ⟨_, List.mem_of_getElem? hi, ⟨rfl, rfl, rfl, rfl⟩⟩
  | sends new _ ho =>
    rcases List.mem_append.mp hc with hmem | hmem
    · exact .inl ⟨c', hmem, .refl c'⟩
    · exact .inr fun ha => ho ha c' hmem

/-! ### The write a fan-out belongs to -/

lemma step_writes (h : step cfg s a = some s') {w : ℕ} {op : WriteOp}
    (hw : s.writes[w]? = some op) :
    ∃ op', s'.writes[w]? = some op' ∧ op'.coord = op.coord ∧ op'.version = op.version := by
  have hset : ∀ w' op₁ op₂, s.writes[w']? = some op₁ → op₂.coord = op₁.coord →
      op₂.version = op₁.version → ∃ op', (s.writes.set w' op₂)[w]? = some op' ∧
        op'.coord = op.coord ∧ op'.version = op.version := by
    intro w' op₁ op₂ h₁ hc hv
    by_cases he : w' = w
    · subst he
      rw [hw, Option.some.injEq] at h₁
      subst h₁
      exact ⟨op₂, by rw [List.getElem?_set_self (List.getElem?_eq_some_iff.mp hw).1], hc, hv⟩
    · exact ⟨op, by rw [List.getElem?_set_ne he]; exact hw, rfl, rfl⟩
  have hfan : ∀ self owners o r, ∃ op', (fanOut cfg s self owners o r).writes[w]? = some op' ∧
      op'.coord = op.coord ∧ op'.version = op.version := by
    rintro self owners o ⟨_ | ⟨kind, v⟩, m⟩
    · exact ⟨op, hw, rfl, rfl⟩
    · refine ⟨op, ?_, rfl, rfl⟩
      exact (List.getElem?_append_left (List.getElem?_eq_some_iff.mp hw).1).trans hw
  cases stepped h with
  | write | delete => exact hfan _ _ _ _
  | report _ _ _ hw' => exact hset _ _ _ hw' rfl rfl
  | reply hw' => exact hset _ _ _ hw' rfl rfl
  | @repair j env coord need st r todo =>
    cases r <;> exact ⟨op, hw, rfl, rfl⟩
  | _ => exact ⟨op, hw, rfl, rfl⟩

/-- The blob of a fan-out is the version of its write. -/
def Matched (s : State σ) : Prop :=
  ∀ c ∈ s.calls, ∀ w, c.origin = .fanOut w →
    ∃ op, s.writes[w]? = some op ∧ siblingsOf c.blob = [op.version] ∧ op.coord = c.src

lemma matched_fanOut (hm : Matched s) {self : Bytes} (owners : Owners) (o : ClockOrder)
    {r : Except StoreError (WriteKind × Version) × MapStore σ} (hr : Applied cfg s self r) :
    Matched (fanOut cfg s self owners o r) := by
  cases hr with
  | @minted kind v m _ _ hfits =>
    intro c hc w hw
    rcases List.mem_append.mp hc with hc | hc
    · obtain ⟨op, hop, hrest⟩ := hm c hc w hw
      refine ⟨op, ?_, hrest⟩
      exact (List.getElem?_append_left (List.getElem?_eq_some_iff.mp hop).1).trans hop
    · obtain ⟨p, -, rfl⟩ := List.mem_map.mp hc
      obtain rfl : s.writes.length = w := by simpa using hw
      exact ⟨_, List.getElem?_concat_length, siblingsOf_encode o hfits.encodable, rfl⟩
  | refused => exact hm

lemma Matched.step (hs : Sound cfg s) (hm : Matched s) (h : step cfg s a = some s') :
    Matched s' := by
  by_cases ha : a.minter = none
  · intro c' hc' w hw
    rcases (step_calls h).backward hc' with ⟨c, hc, hsame⟩ | hno
    · obtain ⟨op, hop, hblob, hsrc⟩ := hm c hc w (hsame.origin ▸ hw)
      obtain ⟨op', hop', hcoord, hver⟩ := step_writes h hop
      exact ⟨op', hop', by rw [hsame.blob, hblob, hver], by rw [hcoord, hsrc, hsame.src]⟩
    · simp [Origin.isFanOut, hw] at hno
      exact absurd ha hno
  · cases stepped h with
    | write hself _ hval => exact matched_fanOut hm _ _ (writeLocal_applied hs _ hself hval)
    | delete hself => exact matched_fanOut hm _ _ (deleteLocal_applied hs _ _ hself)
    | _ => exact absurd rfl ha

/-! ### Hints -/

lemma hints_setNode {n : Bytes} {nd : Node σ} (hn : nd.hints = (s.node n).hints) (k : Bytes) :
    ((s.setNode n nd).node k).hints = (s.node k).hints := by
  by_cases hk : k = n
  · subst hk; simp [State.setNode, hn]
  · simp [State.setNode, Function.update_of_ne hk]

lemma step_hints (h : step cfg s a = some s') (hp : ∀ i, a ≠ .park i) (hf : ∀ i, a ≠ .forget i)
    (k : Bytes) : (s'.node k).hints = (s.node k).hints := by
  have hfan : ∀ self owners o r,
      ((fanOut cfg s self owners o r).node k).hints = (s.node k).hints := by
    rintro self owners o ⟨_ | ⟨kind, v⟩, m⟩ <;> exact hints_setNode (by rfl) k
  cases stepped h with
  | write | delete => exact hfan _ _ _ _
  | deliver | read | rget | fold | reap | other | lookup => exact hints_setNode (by rfl) k
  | @repair j env coord need st r todo =>
    cases r with
    | own merged => exact hints_setNode (by rfl) k
    | push addr v => rfl
  | @park i => exact absurd rfl (hp i)
  | @forget i => exact absurd rfl (hf i)
  | _ => rfl

end Kyria.Cluster
