import Kyria.Cluster.Hints

/-!
One coordinated write, from its fan-out to the last result.

The coordinator stops receiving as soon as the quorum is met, but the goroutines of the fan-out
run on. The results in the channel and the goroutines still running are told by the requests
alone; so is the reply, whenever it was made, once the last goroutine is done.
-/

namespace Kyria.Cluster

open Kyria.Lib.Cursor Kyria.Lib.Runs
open Kyria.Version Kyria.Store Kyria.Replica Kyria.Handoff Kyria.Protocol Kyria.Coordinator

variable {σ : Type} {cfg : Config σ}

/-- Nothing happens but to the write number `w`, whose requests come from the `n`-th on, and to
other keys. -/
def Alone (n w : ℕ) : Action → Prop
  | .deliver i _ | .lose i | .ack i | .fail i | .park i | .report i => n ≤ i
  | .reply w' => w' = w
  | .other .. | .lookup .. => True
  | _ => False

instance (n w : ℕ) : DecidablePred (Alone n w) := fun a => by
  cases a <;> unfold Alone <;> infer_instance

/-! ### Results and requests -/

/-- What the goroutine of a request has sent to the channel. -/
def Call.outcome (c : Call) : Option Bool :=
  match c.phase with
  | .finished ok => some ok
  | _ => none

/-- The results of the requests that have one, and the receivers of the others. -/
def outcomes (cs : List Call) : List (Bytes × Bool) :=
  cs.filterMap fun c => c.outcome.map fun ok => (c.dst, ok)

def unfinished (cs : List Call) : List Bytes := (cs.filter fun c => c.outcome = none).map Call.dst

lemma exists_split {old sent : List Call} {i : ℕ} {c : Call} (hn : old.length ≤ i)
    (hi : (old ++ sent)[i]? = some c) :
    ∃ A B, sent = A ++ c :: B ∧ ∀ c', (old ++ sent).set i c' = old ++ (A ++ c' :: B) := by
  rw [List.getElem?_append_right hn] at hi
  obtain ⟨hlt, hget⟩ := List.getElem?_eq_some_iff.mp hi
  refine ⟨sent.take (i - old.length), sent.drop (i - old.length + 1), ?_, fun c' => ?_⟩
  · rw [← hget, List.cons_getElem_drop_succ, List.take_append_drop]
  · rw [List.set_append_right _ _ hn, List.set_eq_take_append_cons_drop, if_pos hlt]

lemma outcomes_append_cons (A B : List Call) (c : Call) :
    outcomes (A ++ c :: B) =
      outcomes A ++ ((c.outcome.map fun ok => (c.dst, ok)).toList ++ outcomes B) := by
  rw [outcomes, List.filterMap_append, ← outcomes, List.filterMap_cons, ← outcomes]
  cases c.outcome <;> rfl

lemma unfinished_append_cons (A B : List Call) (c : Call) :
    unfinished (A ++ c :: B) =
      unfinished A ++ ((if c.outcome = none then [c.dst] else []) ++ unfinished B) := by
  rw [unfinished, List.filter_append, List.map_append, ← unfinished, List.filter_cons]
  split_ifs with h₁ h₂ <;> simp_all [unfinished]

lemma outcomes_finished {A B : List Call} {c : Call} (h : c.outcome = none) (ok : Bool) :
    (outcomes (A ++ { c with phase := .finished ok } :: B)).Perm
      (outcomes (A ++ c :: B) ++ [(c.dst, ok)]) := by
  have hnew : outcomes (A ++ { c with phase := .finished ok } :: B) =
      outcomes A ++ (c.dst, ok) :: outcomes B := outcomes_append_cons A B _
  have hold : outcomes (A ++ c :: B) = outcomes A ++ outcomes B := by
    rw [outcomes_append_cons, h]
    rfl
  rw [hnew, hold]
  exact List.perm_middle.trans (List.perm_append_singleton _ _).symm

lemma unfinished_finished {A B : List Call} {c : Call} (h : c.outcome = none) (ok : Bool) :
    (unfinished (A ++ { c with phase := .finished ok } :: B)).Perm
      ((unfinished (A ++ c :: B)).erase c.dst) := by
  have hnew : unfinished (A ++ { c with phase := .finished ok } :: B) =
      unfinished A ++ unfinished B := by
    rw [unfinished_append_cons, if_neg (by simp [Call.outcome])]
    rfl
  have hold : unfinished (A ++ c :: B) = unfinished A ++ c.dst :: unfinished B := by
    rw [unfinished_append_cons, if_pos h]
    rfl
  have hperm : (unfinished A ++ c.dst :: unfinished B).Perm
      (c.dst :: (unfinished A ++ unfinished B)) := List.perm_middle
  have herase := hperm.erase c.dst
  rw [List.erase_cons_head] at herase
  rw [hnew, hold]
  exact herase.symm

/-! ### The write along a run -/

/-- The number of acks from peers among results. -/
def acked (results : List (Bytes × Bool)) : ℕ := (results.map Prod.snd).count true

lemma acked_perm {l l' : List (Bytes × Bool)} (h : l.Perm l') : acked l = acked l' :=
  (h.map Prod.snd).count_eq true

/-- The reply is the one the results so far justify, and no later one can change that. -/
def Decided (op : WriteOp) : Prop :=
  ∀ reply, op.reply = some reply →
    op.need ≤ 1 + acked op.results ∧ reply = op.kind.success ∨
    op.running = [] ∧ reply = writeReply op.kind op.need (1 + acked op.results)

/-- The hints of the coordinator: the blob for every receiver whose request was missed, and what
was parked before for the others. -/
structure Parkings (cfg : Config σ) (s : State σ) (coord blob : Bytes) (t : State σ)
    (sent : List Call) : Prop where
  parked : ∀ c ∈ sent, c.Missed → (t.node coord).hints.parked c.dst cfg.key = some blob
  kept : ∀ p, (∀ c ∈ sent, c.dst = p → ¬ c.Missed) →
    (t.node coord).hints.parked p cfg.key = (s.node coord).hints.parked p cfg.key

/-- The state `t` some time after the fan-out of a write in `s`: its requests are `sent`, its
bookkeeping is `op`. -/
structure Fanning (cfg : Config σ) (s : State σ) (coord : Bytes) (peers : List Bytes)
    (blob : Bytes) (kind : WriteKind) (v : Version) (need : ℕ) (t : State σ) (sent : List Call)
    (op : WriteOp) : Prop where
  calls : t.calls = s.calls ++ sent
  same : sent.map (fun c => (c.src, c.dst, c.blob, c.origin)) =
    peers.map fun p => (coord, p, blob, Origin.fanOut s.writes.length)
  hints : Parkings cfg s coord blob t sent
  write : t.writes[s.writes.length]? = some op
  kind : op.kind = kind
  version : op.version = v
  need : op.need = need
  results : op.results.Perm (outcomes sent)
  running : op.running.Perm (unfinished sent)
  decided : Decided op

section Fanning

variable {s t t' : State σ} {coord : Bytes} {peers : List Bytes} {blob : Bytes} {kind : WriteKind}
  {v : Version} {need : ℕ} {sent A B : List Call} {c c' : Call} {op : WriteOp} {a : Action}

lemma fanning_fanOut (s : State σ) (coord : Bytes) (owners : Owners) (o : ClockOrder)
    (kind : WriteKind) (v : Version) (m : MapStore σ) :
    Fanning cfg s coord (peersExcept owners coord) (encode o [v]) kind v (min cfg.w owners.length)
      (fanOut cfg s coord owners o (.ok (kind, v), m))
      (fanOutCalls coord s.writes.length (encode o [v]) (peersExcept owners coord))
      { coord, kind, version := v, need := min cfg.w owners.length,
        running := peersExcept owners coord } where
  calls := rfl
  same := by simp [fanOutCalls]
  hints := by
    refine ⟨fun c hc hm => ?_, fun p _ => by simp [fanOut, State.update, State.setNode]⟩
    obtain ⟨p, -, rfl⟩ := List.mem_map.mp hc
    rcases hm with hm | hm <;> cases hm
  write := List.getElem?_concat_length
  kind := rfl
  version := rfl
  need := rfl
  results := by simp [outcomes, fanOutCalls, Call.outcome, List.filterMap_map]
  running := by
    simp [unfinished, fanOutCalls, Call.outcome, List.filter_map, Function.comp_def]
  decided := by simp [Decided]

lemma Fanning.mem (h : Fanning cfg s coord peers blob kind v need t sent op) (hc : c ∈ sent) :
    c.src = coord ∧ c.blob = blob ∧ c.origin = .fanOut s.writes.length := by
  have hmem := List.mem_map_of_mem (f := fun c : Call => (c.src, c.dst, c.blob, c.origin)) hc
  rw [h.same] at hmem
  obtain ⟨p, -, heq⟩ := List.mem_map.mp hmem
  simp only [Prod.mk.injEq] at heq
  exact ⟨heq.1.symm, heq.2.2.1.symm, heq.2.2.2.symm⟩

lemma Parkings.quiet (h : Parkings cfg s coord blob t (A ++ c :: B)) (hdst : c'.dst = c.dst)
    (hmissed : c'.Missed ↔ c.Missed) (hhints : (t'.node coord).hints = (t.node coord).hints) :
    Parkings cfg s coord blob t' (A ++ c' :: B) := by
  have hmem : ∀ p, (∃ d ∈ A ++ c' :: B, d.dst = p ∧ d.Missed) ↔
      ∃ d ∈ A ++ c :: B, d.dst = p ∧ d.Missed := by
    intro p
    simp only [List.mem_append, List.mem_cons, or_and_right, exists_or, exists_eq_left, hdst,
      hmissed]
  refine ⟨fun d hd hm => ?_, fun p hnone => ?_⟩
  · obtain ⟨e, he, hdst, hme⟩ := (hmem d.dst).mp ⟨d, hd, rfl, hm⟩
    rw [hhints, ← hdst]
    exact h.parked e he hme
  · rw [hhints]
    refine h.kept p fun e he hdst hme => ?_
    obtain ⟨d, hd, hdst', hmd⟩ := (hmem p).mpr ⟨e, he, hdst, hme⟩
    exact hnone d hd hdst' hmd

lemma Parkings.park (h : Parkings cfg s coord blob t (A ++ c :: B)) (hsrc : c.src = coord)
    (hblob : c.blob = blob) (i : ℕ) :
    Parkings cfg s coord blob (parkHint cfg t i c)
      (A ++ { c with phase := .parked } :: B) := by
  have hpark := fun p => parked_parkHint cfg t coord p i c
  refine ⟨fun d hd hm => ?_, fun p hnone => ?_⟩
  · rw [hpark]
    split_ifs with heq
    · rw [hblob]
    · refine h.parked d ?_ hm
      simp only [List.mem_append, List.mem_cons] at hd ⊢
      rcases hd with hd | rfl | hd
      · exact .inl hd
      · exact absurd ⟨hsrc.symm, rfl⟩ heq
      · exact .inr (.inr hd)
  · have hne : p ≠ c.dst := fun heq =>
      hnone { c with phase := .parked } (by simp) heq.symm (.inl rfl)
    rw [hpark, if_neg fun heq => hne heq.2]
    refine h.kept p fun d hd hdst => ?_
    simp only [List.mem_append, List.mem_cons] at hd
    rcases hd with hd | rfl | hd
    · exact hnone d (by simp [hd]) hdst
    · exact absurd hdst.symm hne
    · exact hnone d (by simp [hd]) hdst

lemma Fanning.moves (h : Fanning cfg s coord peers blob kind v need t (A ++ c :: B) op)
    (hcalls : t'.calls = s.calls ++ (A ++ c' :: B)) (hsame : SameCall c c')
    (hhints : Parkings cfg s coord blob t' (A ++ c' :: B)) (hwrites : t'.writes = t.writes)
    (hout : c'.outcome = c.outcome) :
    Fanning cfg s coord peers blob kind v need t' (A ++ c' :: B) op where
  calls := hcalls
  same := by
    rw [← h.same]
    simp [hsame.src, hsame.dst, hsame.blob, hsame.origin]
  hints := hhints
  write := hwrites ▸ h.write
  kind := h.kind
  version := h.version
  need := h.need
  results := by
    have hres := h.results
    rw [outcomes_append_cons] at hres ⊢
    rwa [hout, hsame.dst]
  running := by
    have hrun := h.running
    rw [unfinished_append_cons] at hrun ⊢
    rwa [hout, hsame.dst]
  decided := h.decided

lemma Fanning.report (h : Fanning cfg s coord peers blob kind v need t (A ++ c :: B) op) {ok : Bool}
    (hp : c.phase = .acked ∧ ok = true ∨ c.phase = .parked ∧ ok = false) (hr : c.dst ∈ op.running)
    (hcalls : t'.calls = s.calls ++ (A ++ { c with phase := .finished ok } :: B))
    (hhints : (t'.node coord).hints = (t.node coord).hints)
    (hwrites : t'.writes = t.writes.set s.writes.length { op with
      running := op.running.erase c.dst, results := op.results ++ [(c.dst, ok)] }) :
    Fanning cfg s coord peers blob kind v need t' (A ++ { c with phase := .finished ok } :: B)
      { op with running := op.running.erase c.dst, results := op.results ++ [(c.dst, ok)] } := by
  have hnone : c.outcome = none := by
    rcases hp with ⟨hp, -⟩ | ⟨hp, -⟩ <;> simp [Call.outcome, hp]
  have hmissed : Call.Missed { c with phase := .finished ok } ↔ c.Missed := by
    rcases hp with ⟨hp, rfl⟩ | ⟨hp, rfl⟩ <;> simp [Call.Missed, hp]
  have hlt : s.writes.length < t.writes.length := (List.getElem?_eq_some_iff.mp h.write).1
  refine
    { calls := hcalls
      same := by rw [← h.same]; simp
      hints := h.hints.quiet rfl hmissed hhints
      write := by rw [hwrites, List.getElem?_set_self hlt]
      kind := h.kind
      version := h.version
      need := h.need
      results := ?_
      running := ?_
      decided := ?_ }
  · exact (h.results.append_right _).trans (outcomes_finished hnone ok).symm
  · exact (h.running.erase c.dst).trans (unfinished_finished hnone ok).symm
  · intro reply hreply
    rcases h.decided reply hreply with ⟨hle, hsucc⟩ | ⟨hnil, -⟩
    · refine .inl ⟨hle.trans ?_, hsucc⟩
      simp [acked]
    · simp [hnil] at hr

lemma Fanning.reply (h : Fanning cfg s coord peers blob kind v need t sent op) {acks : ℕ}
    (hg : gather (op.running.length + op.results.length) op.need (op.results.map Prod.snd)
      = some acks) :
    Fanning cfg s coord peers blob kind v need
      { t with
        writes := t.writes.set s.writes.length
          { op with reply := some (writeReply op.kind op.need acks) } } sent
      { op with reply := some (writeReply op.kind op.need acks) } := by
  have hlt : s.writes.length < t.writes.length := (List.getElem?_eq_some_iff.mp h.write).1
  refine
    { h with
      hints := ⟨h.hints.parked, h.hints.kept⟩
      write := List.getElem?_set_self hlt
      decided := ?_ }
  rintro _ ⟨⟩
  obtain ⟨used, hused, rfl, hend⟩ := gatherLoop_spec hg
  rcases hend with hle | hlen
  · exact .inl ⟨hle.trans (gatherLoop_le hg), if_pos hle⟩
  · -- every result has come in
    have hmax := hused.length_le
    rw [List.length_map] at hmax
    have hnil : op.running = [] := List.length_eq_zero_iff.mp (by omega)
    have hall : used = op.results.map Prod.snd := hused.eq_of_length (by simp [hlen, hnil])
    exact .inr ⟨hnil, by rw [hall, acked]⟩

lemma Fanning.step (h : Fanning cfg s coord peers blob kind v need t sent op)
    (ha : Alone s.calls.length s.writes.length a) (hstep : step cfg t a = some t') :
    ∃ sent' op', Fanning cfg s coord peers blob kind v need t' sent' op' := by
  have hsplit : ∀ {i c}, s.calls.length ≤ i → t.calls[i]? = some c → ∃ A B, sent = A ++ c :: B ∧
      ∀ c', t.calls.set i c' = s.calls ++ (A ++ c' :: B) := fun hn hi => by
    rw [h.calls] at hi ⊢
    exact exists_split hn hi
  have hquiet := step_hints hstep
  cases stepped hstep with
  | @deliver i env c hi =>
    obtain ⟨A, B, rfl, hset⟩ := hsplit ha hi
    exact ⟨_, op, h.moves (hset _) ⟨rfl, rfl, rfl, rfl⟩
      (h.hints.quiet rfl .rfl (hquiet (by simp) (by simp) coord)) rfl rfl⟩
  | @lose i c hi =>
    obtain ⟨A, B, rfl, hset⟩ := hsplit ha hi
    exact ⟨_, op, h.moves (hset _) ⟨rfl, rfl, rfl, rfl⟩ (h.hints.quiet rfl .rfl rfl) rfl rfl⟩
  | @ack i c hi hp =>
    obtain ⟨A, B, rfl, hset⟩ := hsplit ha hi
    exact ⟨_, op, h.moves (hset _) ⟨rfl, rfl, rfl, rfl⟩
      (h.hints.quiet rfl (by simp [Call.Missed, hp]) rfl) rfl (by simp [Call.outcome, hp])⟩
  | @fail i c hi hp =>
    obtain ⟨A, B, rfl, hset⟩ := hsplit ha hi
    exact ⟨_, op, h.moves (hset _) ⟨rfl, rfl, rfl, rfl⟩
      (h.hints.quiet rfl (by simp [Call.Missed, hp]) rfl) rfl (by simp [Call.outcome, hp])⟩
  | @park i c hi hp =>
    obtain ⟨A, B, rfl, hset⟩ := hsplit ha hi
    obtain ⟨hsrc, hblob, -⟩ := h.mem (by simp : c ∈ A ++ c :: B)
    exact ⟨_, op, h.moves (hset _) ⟨rfl, rfl, rfl, rfl⟩ (h.hints.park hsrc hblob i) rfl
      (by simp [Call.outcome, hp])⟩
  | @report i c w op' ok hi ho hp hw hr =>
    obtain ⟨A, B, rfl, hset⟩ := hsplit ha hi
    obtain ⟨-, -, horigin⟩ := h.mem (by simp : c ∈ A ++ c :: B)
    obtain rfl : w = s.writes.length := by
      rw [ho] at horigin
      exact Origin.fanOut.inj horigin
    obtain rfl : op' = op := Option.some.inj (hw.symm.trans h.write)
    exact ⟨_, _, h.report hp hr (hset _) rfl rfl⟩
  | @reply w op' acks hw hr hg =>
    obtain rfl : w = s.writes.length := ha
    obtain rfl : op' = op := Option.some.inj (hw.symm.trans h.write)
    exact ⟨_, _, h.reply hg⟩
  | other | lookup =>
    have hhints := hquiet (by simp) (by simp) coord
    exact ⟨sent, op, { h with
      hints := ⟨fun c => hhints ▸ h.hints.parked c, fun p => hhints ▸ h.hints.kept p⟩ }⟩
  | _ => exact False.elim ha

lemma Fanning.steps (h : Fanning cfg s coord peers blob kind v need t sent op)
    (hrun : Steps (Cluster.step cfg) (fun _ a => Alone s.calls.length s.writes.length a) t t') :
    ∃ sent' op', Fanning cfg s coord peers blob kind v need t' sent' op' :=
  hrun.invariant (I := fun t => ∃ sent op, Fanning cfg s coord peers blob kind v need t sent op)
    ⟨sent, op, h⟩ fun _ _ _ ⟨_, _, h⟩ ha hstep => h.step ha hstep

/-! ### After the last result -/

lemma outcome_eq_some_iff {ok : Bool} : c.outcome = some ok ↔ c.phase = .finished ok := by
  cases hp : c.phase <;> simp [Call.outcome, hp]

lemma acked_outcomes (sent : List Call) :
    acked (outcomes sent) = sent.countP fun c => c.phase = .finished true := by
  rw [acked, outcomes, List.map_filterMap, List.count_filterMap]
  refine List.countP_congr fun c _ => ?_
  simp only [Option.map_map, beq_iff_eq, decide_eq_true_eq, ← outcome_eq_some_iff]
  cases c.outcome <;> simp

variable (h : Fanning cfg s coord peers blob kind v need t sent op)
include h

lemma Fanning.finished (hdone : op.running = []) (hc : c ∈ sent) :
    c.phase = .finished true ∨ c.phase = .finished false := by
  have hnil : unfinished sent = [] := (hdone ▸ h.running).nil_eq.symm
  rw [unfinished, List.map_eq_nil_iff, List.filter_eq_nil_iff] at hnil
  obtain ⟨ok, hok⟩ := Option.ne_none_iff_exists'.mp (by simpa using hnil c hc)
  rw [← outcome_eq_some_iff, ← outcome_eq_some_iff, hok]
  cases ok <;> simp

lemma Fanning.reply_eq {reply : Value} (hreply : op.reply = some reply) :
    reply = writeReply kind need (1 + sent.countP fun c => c.phase = .finished true) := by
  rw [← acked_outcomes, ← acked_perm h.results, ← h.kind, ← h.need]
  rcases h.decided reply hreply with ⟨hle, hsucc⟩ | ⟨-, heq⟩
  · rw [hsucc, writeReply, if_pos hle]
  · exact heq

lemma Fanning.exists_reply (hdone : op.running = []) (hnone : op.reply = none) :
    ∃ t', Cluster.step cfg t (.reply s.writes.length) = some t' := by
  have hg := gatherLoop_isSome op.need 1
    (le_of_eq (by simp [hdone] :
      op.running.length + op.results.length = (op.results.map Prod.snd).length))
  obtain ⟨acks, hacks⟩ := Option.isSome_iff_exists.mp hg
  have hfinish : finishWrite t s.writes.length op = some { t with
      writes := t.writes.set s.writes.length
        { op with reply := some (writeReply op.kind op.need acks) } } := by
    rw [finishWrite, if_pos hnone, gather, hacks, Option.map_some]
  exact ⟨_, Option.bind_eq_some_iff.mpr ⟨op, h.write, hfinish⟩⟩

lemma Fanning.map_dst : sent.map Call.dst = peers := by
  simpa [Function.comp_def] using congrArg (List.map fun x => x.2.1) h.same

lemma Fanning.countP_dst (hnodup : peers.Nodup) {p : Bytes} (hp : p ∈ peers) :
    sent.countP (fun c => c.dst = p) = 1 := by
  have hcount : (sent.map Call.dst).count p = 1 := by
    rw [h.map_dst]
    exact List.count_eq_one_of_mem hnodup hp
  rw [← hcount, List.count_eq_countP, List.countP_map]
  exact List.countP_congr fun c _ => by simp

lemma Fanning.hint (hnodup : peers.Nodup) (hdone : op.running = []) (hc : c ∈ sent) :
    (t.node coord).hints.parked c.dst cfg.key =
      if c.phase = .finished false then some blob
      else (s.node coord).hints.parked c.dst cfg.key := by
  split_ifs with hp
  · exact h.hints.parked c hc (.inr hp)
  · refine h.hints.kept c.dst fun d hd hdst hm => ?_
    have hinj := List.inj_on_of_nodup_map (h.map_dst.symm ▸ hnodup)
    obtain rfl : d = c := hinj hd hc hdst
    rcases h.finished hdone hd with hd | hd <;> simp_all [Call.Missed]

omit h

lemma refused_step (hcalls : t.calls = s.calls) (hwrites : t.writes = s.writes)
    (ha : Alone s.calls.length s.writes.length a) (hstep : step cfg t a = some t') :
    t'.writes = s.writes ∧ t'.calls = s.calls := by
  have hnone : ∀ {i c}, s.calls.length ≤ i → t.calls[i]? ≠ some c := fun hi => by
    simp [hcalls, hi]
  cases stepped hstep with
  | deliver hi | lose hi | ack hi | fail hi | park hi | report hi => exact absurd hi (hnone ha)
  | @reply w op acks hw =>
    obtain rfl : w = s.writes.length := ha
    simp [hwrites] at hw
  | other | lookup => exact ⟨hwrites, hcalls⟩
  | _ => exact False.elim ha

end Fanning

/-- **The quorum decision and the complete fan-out.** A write that runs alone on its key to its
last result has sent its version to each other owner once. The number of them that took it
decides the reply, whenever that was made, and a hint is parked for each of the others. -/
theorem write_decided_by_successes {s t : State σ} {self value : Bytes} {owners : Owners}
    {env : Env} {o : ClockOrder} {op : WriteOp} (hnodup : owners.Nodup)
    (hrun : Steps (step cfg) (fun _ a => Alone s.calls.length s.writes.length a)
      (fanOut cfg s self owners o (writeLocal (s.node self).store env self cfg.key value)) t)
    (hop : t.writes[s.writes.length]? = some op) (hdone : op.running = []) :
    let sent := t.calls.drop s.calls.length
    let acks := 1 + sent.countP fun c => c.phase = .finished true
    let need := min cfg.w owners.length
    (writeLocal (s.node self).store env self cfg.key value).1 = .ok (.write, op.version) ∧
    (∀ reply, op.reply = some reply → reply =
      if need ≤ acks then .simpleString (ascii "OK") else quorumError "write" acks need) ∧
    (op.reply = none → ∃ t', step cfg t (.reply s.writes.length) = some t') ∧
    (∀ c ∈ sent, c.src = self ∧ c.blob = encode o [op.version] ∧ c.dst ∈ owners ∧ c.dst ≠ self) ∧
    (∀ p ∈ owners, p ≠ self → sent.countP (fun c => c.dst = p) = 1) ∧
    (∀ c ∈ sent, c.phase = .finished true ∨ c.phase = .finished false) ∧
    (∀ c ∈ sent, (t.node self).hints.parked c.dst cfg.key =
      if c.phase = .finished false then some (encode o [op.version])
      else (s.node self).hints.parked c.dst cfg.key) ∧
    ∀ p, (∀ c ∈ sent, c.dst ≠ p) →
      (t.node self).hints.parked p cfg.key = (s.node self).hints.parked p cfg.key := by
  rcases hlocal : writeLocal (s.node self).store env self cfg.key value with ⟨e | ⟨kind, v⟩, m⟩
  · rw [hlocal] at hrun
    have hidle := hrun.invariant (I := fun t => t.writes = s.writes ∧ t.calls = s.calls)
      ⟨rfl, rfl⟩ fun _ _ _ h ha hstep => refused_step h.2 h.1 ha hstep
    simp [hidle.1] at hop
  · obtain rfl : kind = .write := by
      simp only [writeLocal, Prod.mk.injEq] at hlocal
      cases hmint : (mint (s.node self).store env self cfg.key fun clock => { value, clock }).1 <;>
        simp_all [Except.map]
    rw [hlocal] at hrun
    obtain ⟨sent, op', h⟩ := (fanning_fanOut s self owners o .write v m).steps hrun
    obtain rfl : op' = op := Option.some.inj (h.write.symm.trans hop)
    obtain rfl := h.version
    have hpeers : ∀ p, p ∈ peersExcept owners self ↔ p ∈ owners ∧ p ≠ self := by
      simp [peersExcept]
    have hnodup' : (peersExcept owners self).Nodup := hnodup.filter _
    have hsent : t.calls.drop s.calls.length = sent := by rw [h.calls, List.drop_left]
    simp only [hsent]
    refine ⟨trivial, fun reply hreply => h.reply_eq hreply, h.exists_reply hdone, fun c hc => ?_,
      fun p hp hne => h.countP_dst hnodup' ((hpeers p).mpr ⟨hp, hne⟩),
      fun c hc => h.finished hdone hc, fun c hc => h.hint hnodup' hdone hc,
      fun p hnone => h.hints.kept p fun c hc hdst => absurd hdst (hnone c hc)⟩
    obtain ⟨hsrc, hblob, -⟩ := h.mem hc
    exact ⟨hsrc, hblob, (hpeers c.dst).mp (h.map_dst ▸ List.mem_map_of_mem hc)⟩

/-- Three nodes that hold every key, two of which make a quorum. -/
def trio : Config Unit :=
  { pair with nodes := [ascii "a", ascii "b", ascii "c"], n := 3, ids := by decide }

/-- One peer acknowledges the write, the coordinator answers, and only then the request to the
other peer fails. -/
theorem write_decided_by_successes_early :
    ∃ t op, Steps (step trio) (fun _ a => Alone 0 0 a)
        (fanOut trio (init trio) (ascii "a") trio.nodes default
          (writeLocal ((init trio).node (ascii "a")).store default (ascii "a") trio.key
            (ascii "1"))) t ∧
      t.writes[0]? = some op ∧ op.running = [] ∧
      op.reply = some (.simpleString (ascii "OK")) ∧
      (t.node (ascii "a")).hints.parked (ascii "b") trio.key = none ∧
      (t.node (ascii "a")).hints.parked (ascii "c") trio.key =
        some (encode default [op.version]) := by
  have hrun : (exec (step trio) (fun _ a => decide (Alone 0 0 a))
      (fanOut trio (init trio) (ascii "a") trio.nodes default
        (writeLocal ((init trio).node (ascii "a")).store default (ascii "a") trio.key (ascii "1")))
      [.deliver 0 default, .ack 0, .report 0, .reply 0, .fail 1, .park 1, .report 1]).map
      (fun t => (t.writes.map fun op => (op.running, op.reply.isSome),
        t.calls.map fun c => (c.dst, c.phase))) =
      some ([([], true)], [(ascii "b", .finished true), (ascii "c", .finished false)]) := by
    decide +kernel
  obtain ⟨t, ht, hfacts⟩ := Option.map_eq_some_iff.mp hrun
  simp only [Prod.mk.injEq] at hfacts
  have hsteps : Steps (step trio) (fun _ a => Alone 0 0 a) _ t :=
    .of_exec_of_check ht fun _ _ hc => of_decide_eq_true hc
  obtain ⟨op, hop, hf⟩ := List.map_eq_singleton_iff.mp hfacts.1
  obtain ⟨b, _, hcalls, hb, hrest⟩ := List.map_eq_cons_iff.mp hfacts.2
  obtain ⟨c, rfl, hc⟩ := List.map_eq_singleton_iff.mp hrest
  simp only [Prod.mk.injEq] at hf hb hc
  obtain ⟨reply, hreply⟩ := Option.isSome_iff_exists.mp hf.2
  have hwrite : t.writes[0]? = some op := by simp [hop]
  obtain ⟨-, hreplies, -, -, -, -, hhints, -⟩ :=
    write_decided_by_successes (s := init trio) (by decide) hsteps hwrite hf.1
  have hsent : t.calls.drop (init trio).calls.length = [b, c] := hcalls
  simp only [hsent] at hreplies hhints
  refine ⟨t, op, hsteps, hwrite, hf.1, ?_, ?_, ?_⟩
  · rw [hreply, hreplies reply hreply, if_pos (by simp [hb.2, hc.2, trio, pair])]
  · have hhint := hhints b (by simp)
    rw [hb.1, hb.2, if_neg (by decide)] at hhint
    exact hhint.trans (by decide)
  · have hhint := hhints c (by simp)
    rwa [hc.1, hc.2, if_pos rfl] at hhint

end Kyria.Cluster
