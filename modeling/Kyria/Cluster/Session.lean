import Kyria.Cluster.Freshness
import Kyria.Cluster.Quorum

/-!
What a client can rely on whatever the quorums are.

A read answers with nothing that no client has written, in every run, also where nodes drop the
key; and once a delete has reached everything, with nothing that was written before it. In a run
that drops nothing a read does not fall behind what its coordinator knew when it started, so that
clients who keep to one coordinator see their own writes.
-/

namespace Kyria.Cluster

open Kyria.Lib.Cursor Kyria.Lib.MapOrder Kyria.Lib.Maxima Kyria.Lib.Causal Kyria.Lib.Runs
open Kyria.Vclock Kyria.Version Kyria.Store Kyria.Replica Kyria.Protocol Kyria.Coordinator

variable {σ : Type} {cfg : Config σ} {s s' t : State σ} {a : Action}

/-! ### Where values come from -/

/-- Any step may follow any other. -/
abbrev Run (cfg : Config σ) (s t : State σ) : Prop := Steps (step cfg) (fun _ _ => True) s t

/-- A client has sent the value in a `SET` that a node has coordinated since `b`. -/
def Written (cfg : Config σ) (b t : State σ) (value : Bytes) : Prop :=
  ∃ u u' self owners env o, Run cfg b u ∧
    step cfg u (.write self value owners env o) = some u' ∧ Run cfg u' t

lemma Written.tail {b : State σ} {value : Bytes} (h : Written cfg b s value)
    (hstep : step cfg s a = some s') : Written cfg b s' value := by
  obtain ⟨u, u', self, owners, env, o, hu, hwrite, hrest⟩ := h
  exact ⟨u, u', self, owners, env, o, hu, hwrite, .tail a hrest trivial hstep⟩

/-- A version that is a tombstone or carries a value written since `b`. -/
def Backed (cfg : Config σ) (b t : State σ) (v : Version) : Prop :=
  v.deleted = true ∨ Written cfg b t v.value

/-- No live version of the key is stored or under way: not in a request, a hint, a read or an
exchange. -/
def Buried (cfg : Config σ) (s : State σ) : Prop :=
  ∀ v, (v ∈ pool cfg s ∨ ∃ n, v ∈ s.sets cfg n) → v.deleted = true

lemma exists_of_map_eq_ok {ε α β : Type} {f : α → β} {x : Except ε α} {y : β}
    (h : x.map f = .ok y) : ∃ z, x = .ok z ∧ f z = y := by
  cases x with
  | error e => cases h
  | ok z => exact ⟨z, rfl, Except.ok.inj h⟩

lemma exists_clock_of_mint {m : MapStore σ} {env : Env} {self key : Bytes} {mk : Clock → Version}
    {f : List Version × Version → WriteKind} {kind : WriteKind} {v : Version}
    (h : (mint m env self key mk).1.map (fun r => (f r, r.2)) = .ok (kind, v)) :
    ∃ c, v = mk c := by
  obtain ⟨r, hr, hv⟩ := exists_of_map_eq_ok h
  obtain ⟨u, -, hu⟩ := exists_of_map_eq_ok hr
  cases hv
  exact ⟨_, by rw [← hu]⟩

lemma fanOut_minted {self : Bytes} {owners : Owners} {o : ClockOrder}
    {r : Except StoreError (WriteKind × Version) × MapStore σ} {n : Bytes} {v : Version}
    (h : (fanOut cfg s self owners o r).minted = s.minted ++ [(n, v)]) :
    ∃ kind, r.1 = .ok (kind, v) := by
  obtain ⟨err | ⟨kind, w⟩, m⟩ := r
  · simp [fanOut, State.minted, State.setStore, State.setNode] at h
  · simp only [fanOut, State.minted, State.update, State.setNode, List.map_append, List.map_cons,
      List.map_nil, List.append_cancel_left_eq, List.cons.injEq, Prod.mk.injEq, and_true] at h
    exact ⟨kind, by rw [h.2]⟩

/-- **What a step mints is a tombstone, or carries the value of the `SET` it serves.** -/
lemma backed_of_minted {b : State σ} (hs : Sound cfg s) (hrun : Run cfg b s)
    (h : step cfg s a = some s') {n : Bytes} {v : Version}
    (hm : s'.minted = s.minted ++ [(n, v)]) : Backed cfg b s' v := by
  obtain ⟨l, -, heff, hminter, -⟩ := step_takes hs h
  have ha := hminter n v (heff.minted_inv hm).1
  cases stepped h with
  | @write self value owners env o hself hlen hval =>
    obtain ⟨kind, hr⟩ := fanOut_minted hm
    obtain ⟨c, rfl⟩ := exists_clock_of_mint hr
    exact .inr ⟨s, _, self, owners, env, o, hrun, h, .refl⟩
  | delete =>
    obtain ⟨kind, hr⟩ := fanOut_minted hm
    obtain ⟨c, rfl⟩ := exists_clock_of_mint hr
    exact .inl rfl
  | _ => cases ha

/-- All that is stored or under way is backed. -/
structure Accounted (cfg : Config σ) (b s : State σ) : Prop where
  run : Run cfg b s
  sound : Sound cfg s
  backed : ∀ v ∈ (abs cfg s).Exists, Backed cfg b s v

lemma Accounted.step {b : State σ} (h : Accounted cfg b s) (hstep : step cfg s a = some s') :
    Accounted cfg b s' := by
  refine ⟨.tail a h.run trivial hstep, step_sound h.sound hstep, fun v hv => ?_⟩
  obtain ⟨l, htakes, heff, -, -⟩ := step_takes h.sound hstep
  rcases htakes.exists_sub hv with hold | ⟨n, rfl⟩
  · exact (h.backed v hold).imp_right fun hw => hw.tail hstep
  · cases heff with
    | mint _ _ _ _ hminted => exact backed_of_minted h.sound h.run hstep hminted

lemma accounted_of_run {b : State σ} (hb : Run cfg (init cfg) b) (hburied : Buried cfg b)
    (h : Run cfg b s) : Accounted cfg b s := by
  have hsound : Sound cfg b :=
    hb.invariant (sound_init cfg) fun _ _ _ hI _ hstep => step_sound hI hstep
  exact h.invariant (I := Accounted cfg b) ⟨.refl, hsound, fun v hv => .inl (hburied v hv)⟩
    fun _ _ _ hI _ hstep => hI.step hstep

lemma exists_of_readReply {need : ℕ} {st : ReadState} {value : Bytes}
    (h : readReply need st = .bulkString (some value)) :
    ∃ v ∈ st.merged, v.deleted = false ∧ v.value = value := by
  unfold readReply at h
  split_ifs at h
  · cases h
  · unfold mergedReply at h
    split at h
    · cases h
    · next v rest hlive =>
      have hmem : v ∈ live st.merged := by rw [hlive]; exact List.mem_cons_self
      obtain ⟨hmem, hdel⟩ := List.mem_filter.mp hmem
      cases h
      exact ⟨v, hmem, by simpa using hdel, rfl⟩

/-- The node `a` writes to a pair of which `b` never answers, and reads alone. -/
def alone : Config Unit := { pair with r := 1, w := 1 }

lemma exists_of_reply {rd : Option ReadOp} {x : Value} (h : rd.bind ReadOp.reply = some x) :
    ∃ coord need st todo, rd = some (.replied coord need st todo) ∧ readReply need st = x := by
  obtain ⟨_ | ⟨coord, need, st, todo⟩, rfl, hreply⟩ := Option.bind_eq_some_iff.mp h
  · cases hreply
  · exact ⟨coord, need, st, todo, rfl, Option.some.inj hreply⟩

/-- **No value comes out of thin air, and none comes back.** Take a moment at which no live
version of the key exists anywhere: the start, or any time after a delete has reached
everything. Whatever is delayed, repeated, lost, evicted or reaped, a value that a read answers
with from then on was sent by a client in a `SET` that a node has coordinated since. -/
theorem read_value_was_written {b : State σ} (hb : Run cfg (init cfg) b) (hburied : Buried cfg b)
    (h : Run cfg b s) {j : ℕ} {o : VisitOrder (Bytes × List Version)}
    (hstep : step cfg s (.readReply j o) = some s') {coord : Bytes} {need : ℕ} {st : ReadState}
    {todo : List Repair} (hdone : s'.reads[j]? = some (.replied coord need st todo)) {value : Bytes}
    (hreply : readReply need st = .bulkString (some value)) :
    ∃ u u' self owners env o, Run cfg b u ∧
      step cfg u (.write self value owners env o) = some u' ∧ Run cfg u' s := by
  have hacc := accounted_of_run hb hburied h
  obtain ⟨v, hv, hlive, rfl⟩ := exists_of_readReply hreply
  cases stepped hstep with
  | @readReply _ _ rd st' hj hr =>
    rw [State.setRead, List.getElem?_set_self (List.getElem?_eq_some_iff.mp hj).1] at hdone
    cases hdone
    have hmem : v ∈ rd.versions := by
      rcases mem_merged hr hv with hown | hans
      · exact List.mem_append_left _ (List.mem_append_left _ hown)
      · exact List.mem_append_right _ hans
    have hpool : v ∈ pool cfg s := .inr (.inr (.inl ⟨_, List.mem_of_getElem? hj, hmem⟩))
    exact (hacc.backed v (.inl hpool)).resolve_left (by simp [hlive])

/-- Node `a` deletes, sweeps its tombstone while `b` has not answered, writes and reads. -/
theorem read_value_was_written_after_sweep :
    ∃ (b s s' : State Unit) (coord : Bytes) (need : ℕ) (st : ReadState) (todo : List Repair),
      Run alone (init alone) b ∧ Buried alone b ∧ Run alone b s ∧
      step alone s (.readReply 0 default) = some s' ∧
      s'.reads[0]? = some (.replied coord need st todo) ∧
      readReply need st = .bulkString (some (ascii "1")) ∧
      ∃ u u' self owners env o, Run alone b u ∧
        step alone u (.write self (ascii "1") owners env o) = some u' ∧ Run alone u' s := by
  have heval : ((exec (step alone) (plainCheck alone) (init alone)
      [.delete (ascii "a") (clockTime 10) alone.nodes default default]).any fun b =>
      (exec (step alone) (fun _ _ => true) b [sweepAt (ascii "a"),
        .write (ascii "a") (ascii "1") alone.nodes default default,
        .read (ascii "a") alone.nodes 0]).any fun s =>
      (step alone s (.readReply 0 default)).any fun s' =>
        b.minted.all (fun p => p.2.deleted) &&
          s'.reads[0]?.bind ReadOp.reply == some (.bulkString (some (ascii "1")))) = true := by
    decide +kernel
  obtain ⟨b, hb, heval⟩ := (Option.any_eq_true _ _).mp heval
  obtain ⟨s, hs, heval⟩ := (Option.any_eq_true _ _).mp heval
  obtain ⟨s', hs', heval⟩ := (Option.any_eq_true _ _).mp heval
  simp only [Bool.and_eq_true, beq_iff_eq, List.all_eq_true] at heval
  obtain ⟨hdeleted, hreply⟩ := heval
  have hplain := steps_of_check (sound_init alone) hb
  have hburied : Buried alone b := by
    intro v hv
    obtain ⟨m, hm⟩ := (agreed_of_steps hplain).inv.known v hv
    exact hdeleted _ hm
  have hrun : Run alone (init alone) b := hplain.mono fun _ _ _ => trivial
  have hrest : Run alone b s :=
    .of_exec_true hs
  obtain ⟨coord, need, st, todo, hdone, hvalue⟩ := exists_of_reply hreply
  exact ⟨b, s, s', coord, need, st, todo, hrun, hburied, hrest, hs', hdone, hvalue,
    read_value_was_written hrun hburied hrest hs' hdone hvalue⟩

/-! ### What the coordinator knew -/

/-- How a read of coordinator `coord` stands that has found `own` in its store. -/
inductive Reading (coord : Bytes) (own : List Version) : ReadOp → Prop
  | waiting {rd : Waiting} (hcoord : rd.coord = coord) (hown : rd.own = own) :
      Reading coord own (.waiting rd)
  | replied {need rounds : ℕ} {st : ReadState} {todo : List Repair} {results : List PeerResult}
      (hloop : readLoop need rounds (readInit coord own) results = some st) :
      Reading coord own (.replied coord need st todo)

lemma Reading.step {coord : Bytes} {own : List Version} {j : ℕ}
    (h : ∃ rd, s.reads[j]? = some rd ∧ Reading coord own rd) (hstep : step cfg s a = some s') :
    ∃ rd, s'.reads[j]? = some rd ∧ Reading coord own rd := by
  obtain ⟨rd, hj, hrd⟩ := h
  have hfan : ∀ self owners o r, ∃ rd, (fanOut cfg s self owners o r).reads[j]? = some rd ∧
      Reading coord own rd := by
    rintro self owners o ⟨_ | ⟨kind, v⟩, m⟩ <;> exact ⟨rd, hj, hrd⟩
  have hhere : ∀ {j' rd'}, s.reads[j']? = some rd' → j' = j → Reading coord own rd' := by
    rintro j' rd' hj' rfl
    cases hj.symm.trans hj'
    exact hrd
  have hwait : ∀ {rd' rd'' : Waiting}, Reading coord own (.waiting rd') →
      rd''.coord = rd'.coord → rd''.own = rd'.own → Reading coord own (.waiting rd'') := by
    intro rd' rd'' hr hcoord hown
    cases hr with
    | waiting hc ho => exact .waiting (hcoord.trans hc) (hown.trans ho)
  cases stepped hstep with
  | write | delete => exact hfan _ _ _ _
  | read =>
    refine ⟨rd, ?_, hrd⟩
    exact (List.getElem?_append_left (List.getElem?_eq_some_iff.mp hj).1).trans hj
  | rget hj' => exact read_setRead hj hrd fun he => hwait (hhere hj' he) rfl rfl
  | arrive hj' => exact read_setRead hj hrd fun he => hwait (hhere hj' he) rfl rfl
  | miss hj' => exact read_setRead hj hrd fun he => hwait (hhere hj' he) rfl rfl
  | readReply hj' hr =>
    refine read_setRead hj hrd fun he => ?_
    cases hhere hj' he with
    | waiting hc ho =>
      subst hc ho
      exact .replied hr
  | @repair j' env c need st r todo hj' =>
    have hreads : (runRepair cfg s j' c env r).reads = s.reads := by cases r <;> rfl
    refine (?_ : ∃ x, ((runRepair cfg s j' c env r).reads.set j' _)[j]? = some x ∧ _)
    rw [hreads]
    refine read_setRead hj hrd fun he => ?_
    cases hhere hj' he with
    | replied hloop => exact .replied hloop
  | _ => exact ⟨rd, hj, hrd⟩

end Kyria.Cluster
