import Kyria.Cluster.Calls
import Kyria.Cluster.Convergence

/-!
A read that reaches its quorum sees every write that was acknowledged before it started.

The nodes that acknowledged the write, its coordinator among them, cover its version from
then on. The nodes a read has heard of, its coordinator among them, make a set that meets
theirs when `R + W > N`, and a small cluster only waits for as many nodes as it has.
-/

namespace Kyria.Cluster

open Kyria.Lib.Cursor Kyria.Lib.Maxima Kyria.Lib.Causal Kyria.Lib.Runs
open Kyria.Vclock Kyria.Version Kyria.Store Kyria.Replica Kyria.Protocol Kyria.Coordinator

variable {σ : Type} {cfg : Config σ} {s s' : State σ} {a : Action} {replicas : List Bytes}

/-- The request a node coordinates in this step, with the owners it found. -/
def Action.coordinates : Action → Option (Bytes × Owners)
  | .write self _ owners _ _ | .delete self _ owners _ _ | .read self owners _ =>
    some (self, owners)
  | _ => none

/-- Nothing is dropped, and every request is coordinated by a member of the replica set, which
finds that set to own the key. -/
structure Within (cfg : Config σ) (replicas : List Bytes) (s : State σ) (a : Action) : Prop where
  keeps : ∀ n, ¬ Drops cfg s a n
  owners : ∀ self owners, a.coordinates = some (self, owners) →
    self ∈ replicas ∧ owners.Perm replicas

/-! ### What a step keeps -/

lemma step_covers (hs : Sound cfg s) (hok : Within cfg replicas s a)
    (h : step cfg s a = some s') {n : Bytes} {c : Bytes → ℕ} (hc : Covers clk (s.sets cfg n) c) :
    Covers clk (s'.sets cfg n) c := by
  obtain ⟨l, htakes, heff, -, -⟩ := step_takes hs h
  refine htakes.covers ?_ hc
  rintro rfl
  exact hok.keeps n (heff.drops h)

lemma step_antichain (hs : Sound cfg s) (h : step cfg s a = some s')
    (hanti : ∀ n, Antichain clk (s.sets cfg n)) (n : Bytes) : Antichain clk (s'.sets cfg n) := by
  have hupd : ∀ m S, Antichain clk S → s'.sets cfg = Function.update (s.sets cfg) m S →
      Antichain clk (s'.sets cfg n) := by
    intro m S hS he
    rw [he]
    by_cases hn : n = m
    · subst hn
      rwa [Function.update_self]
    · rw [Function.update_of_ne hn]
      exact hanti n
  obtain ⟨-, l, heff, -, -⟩ := step_effect hs h
  cases heff with
  | mint _ _ hsets => exact hupd _ _ (reconcile_eq ▸ (hanti _).absorb _) hsets
  | fold _ hsets => exact hupd _ _ (reconcile_eq ▸ (hanti _).foldl _) hsets
  | remove _ hsets => exact hupd _ _ .nil hsets

/-! ### Nodes asked and heard of -/

/-- The other members of the replica set a coordinator has asked: those heard of and those it
still waits for. -/
structure Asked (replicas : List Bytes) (me : Bytes) (heard waiting : List Bytes) : Prop where
  nodup : (heard ++ waiting).Nodup
  mem : ∀ p ∈ heard ++ waiting, p ∈ replicas ∧ p ≠ me

lemma Asked.start (hn : replicas.Nodup) {self : Bytes} {owners : Owners}
    (hp : owners.Perm replicas) : Asked replicas self [] (peersExcept owners self) where
  nodup := (hp.nodup_iff.mpr hn).filter _
  mem p hmem := by
    obtain ⟨hmem, hne⟩ := List.mem_filter.mp hmem
    exact ⟨hp.mem_iff.mp hmem, of_decide_eq_true hne⟩

lemma Asked.hear {self p : Bytes} {heard waiting : List Bytes}
    (h : Asked replicas self heard waiting) (hp : p ∈ waiting) :
    Asked replicas self (heard ++ [p]) (waiting.erase p) := by
  have hperm : (heard ++ [p] ++ waiting.erase p).Perm (heard ++ waiting) := by
    rw [List.append_assoc, List.singleton_append]
    exact (List.perm_cons_erase hp).symm.append_left heard
  exact ⟨hperm.nodup_iff.mpr h.nodup, fun q hq => h.mem q (hperm.mem_iff.mp hq)⟩

lemma Asked.members {self : Bytes} {heard waiting some : List Bytes}
    (h : Asked replicas self heard waiting) (hself : self ∈ replicas) (hsub : some.Sublist heard) :
    (self :: some).Nodup ∧ (self :: some) ⊆ replicas := by
  have hmem : ∀ p ∈ some, p ∈ replicas ∧ p ≠ self := fun p hp =>
    h.mem p (List.mem_append_left _ (hsub.subset hp))
  refine ⟨List.nodup_cons.mpr ⟨fun hin => (hmem self hin).2 rfl, ?_⟩, ?_⟩
  · exact hsub.nodup (List.Nodup.of_append_left h.nodup)
  · intro p hp
    rcases List.mem_cons.mp hp with rfl | hp
    · exact hself
    · exact (hmem p hp).1

lemma exists_common {A B : List Bytes} (hA : A.Nodup) (hB : B.Nodup) (hAr : A ⊆ replicas)
    (hBr : B ⊆ replicas) (hr : replicas.Nodup) (hlt : replicas.length < A.length + B.length) :
    ∃ p ∈ A, p ∈ B := by
  have hcard : replicas.toFinset.card < A.toFinset.card + B.toFinset.card := by
    rwa [List.toFinset_card_of_nodup hr, List.toFinset_card_of_nodup hA,
      List.toFinset_card_of_nodup hB]
  have hsub : ∀ {l : List Bytes}, l ⊆ replicas → l.toFinset ⊆ replicas.toFinset :=
    fun h p hp => List.mem_toFinset.mpr (h (List.mem_toFinset.mp hp))
  obtain ⟨p, hp⟩ := Finset.inter_nonempty_of_card_lt_card_add_card (hsub hAr) (hsub hBr) hcard
  rw [Finset.mem_inter, List.mem_toFinset, List.mem_toFinset] at hp
  exact ⟨p, hp.1, hp.2⟩

/-! ### Writes -/

/-- A request that was acknowledged has been handled, and what was handled is covered. -/
structure CallOk (cfg : Config σ) (s : State σ) (c : Call) : Prop where
  handled : c.Delivered → c.handled = true
  covers : c.handled = true → ∀ v ∈ siblingsOf c.blob, Covers clk (s.sets cfg c.dst) (clk v)

lemma handle_covers (hs : Sound cfg s) {i : ℕ} {c : Call} {env : Env}
    (hok : (rset (s.node c.dst).store env cfg.key c.blob).1 = .simpleString (ascii "OK"))
    {v : Version} (hv : v ∈ siblingsOf c.blob) :
    Covers clk ((handle cfg s i c env).sets cfg c.dst) (clk v) := by
  rw [State.sets_of_node (s := s) (n := c.dst) rfl, Function.update_self]
  obtain ⟨-, ⟨-, hsib⟩ | ⟨hne, -⟩⟩ := rset_spec (hs.stores c.dst) env c.blob
  · simp only [hsib, reconcile_eq]
    exact covers_foldl_of_mem hv
  · exact absurd hok hne

lemma CallStep.ok {c c' : Call} (h : CallStep c c') (hc : CallOk cfg s c) : CallOk cfg s c' := by
  refine ⟨fun hd => ?_, fun hh v hv => ?_⟩
  · cases h with
    | lost => exact hc.handled hd
    | acked _ hh => exact hh
    | failed => rcases hd with hd | hd <;> simp at hd
    | finished ok hok =>
      rcases hok with ⟨hp, -⟩ | ⟨-, rfl⟩
      · exact hc.handled (.inl hp)
      · rcases hd with hd | hd <;> simp at hd
  · have hcov : c.handled = true → Covers clk (s.sets cfg c'.dst) (clk v) := fun hh =>
      h.same.dst ▸ hc.covers hh v (h.same.blob ▸ hv)
    cases h <;> exact hcov hh

lemma CallOk.step (hs : Sound cfg s) (hok : Within cfg replicas s a)
    (hcalls : ∀ c ∈ s.calls, CallOk cfg s c) (h : step cfg s a = some s') :
    ∀ c ∈ s'.calls, CallOk cfg s' c := by
  have hold : ∀ c ∈ s.calls, CallOk cfg s' c := fun c hc =>
    ⟨(hcalls c hc).handled, fun hh v hv => step_covers hs hok h ((hcalls c hc).covers hh v hv)⟩
  have hset : ∀ {i c c'}, s.calls[i]? = some c → (CallOk cfg s' c → CallOk cfg s' c') →
      ∀ d ∈ s.calls.set i c', CallOk cfg s' d := by
    intro i c c' hi hcc d hd
    rcases List.mem_or_eq_of_mem_set hd with hd | rfl
    · exact hold d hd
    · exact hcc (hold c (List.mem_of_getElem? hi))
  have hdeliver : ∀ i env, a = .deliver i env → ∀ c ∈ s'.calls, CallOk cfg s' c := by
    rintro i env rfl
    cases stepped h with
    | @deliver _ _ c hi =>
      refine hset hi fun hc => ⟨fun hd => by simp [hc.handled hd], fun hh v hv => ?_⟩
      rcases Bool.or_eq_true_iff.mp hh with hh | hh
      · exact hc.covers hh v hv
      · exact handle_covers hs (of_decide_eq_true hh) hv
  have hstep := step_calls h
  generalize s'.calls = cs at hdeliver hstep
  cases hstep with
  | moves hi hstep => exact hset hi hstep.ok
  | handles ha => exact hdeliver _ _ ha
  | parks _ hi =>
    refine hset hi fun hc => ⟨?_, hc.covers⟩
    rintro (hd | hd) <;> simp at hd
  | sends new hnew =>
    intro c hc
    rcases List.mem_append.mp hc with hc | hc
    · exact hold c hc
    · obtain ⟨hp, hh⟩ := hnew c hc
      refine ⟨?_, fun hh' => by simp [hh] at hh'⟩
      rintro (hd | hd) <;> simp [hp] at hd

/-- What is known of a write of the replica set. -/
structure WriteOk (cfg : Config σ) (replicas : List Bytes) (s : State σ) (op : WriteOp) :
    Prop where
  coord : op.coord ∈ replicas
  need : op.need = min cfg.w replicas.length
  asked : Asked replicas op.coord (op.results.map Prod.fst) op.running
  own : Covers clk (s.sets cfg op.coord) (clk op.version)
  acked : ∀ p, (p, true) ∈ op.results → Covers clk (s.sets cfg p) (clk op.version)
  success : op.reply = some op.kind.success → op.need ≤ 1 + (op.results.map Prod.snd).count true

lemma WriteOk.mono (hs : Sound cfg s) (hok : Within cfg replicas s a) {op : WriteOp}
    (hop : WriteOk cfg replicas s op) (h : step cfg s a = some s') :
    WriteOk cfg replicas s' op :=
  { hop with
    own := step_covers hs hok h hop.own
    acked := fun p hp => step_covers hs hok h (hop.acked p hp) }

lemma fanOut_writeOk (hn : replicas.Nodup) {self : Bytes} (hself : self ∈ replicas)
    {owners : Owners} (ho : owners.Perm replicas) {o : ClockOrder} {kind : WriteKind}
    {v : Version} {m : MapStore σ} (hsib : siblings m cfg.key = reconcile (s.sets cfg self) v) :
    WriteOk cfg replicas (fanOut cfg s self owners o (.ok (kind, v), m))
      { coord := self, kind, version := v, need := min cfg.w owners.length,
        running := peersExcept owners self } where
  coord := hself
  need := by rw [ho.length_eq]
  asked := .start hn ho
  own := by
    rw [State.sets_of_node (s := s) (n := self) rfl, Function.update_self]
    simp only [hsib, reconcile_eq]
    exact covers_absorb_self _ _
  acked := by simp
  success := by simp

lemma fanOut_writes (hn : replicas.Nodup) {self : Bytes} (hself : self ∈ replicas)
    {owners : Owners} (ho : owners.Perm replicas) {o : ClockOrder}
    {r : Except StoreError (WriteKind × Version) × MapStore σ} (hr : Applied cfg s self r)
    (hold : ∀ op ∈ s.writes, WriteOk cfg replicas (fanOut cfg s self owners o r) op) :
    ∀ op ∈ (fanOut cfg s self owners o r).writes,
      WriteOk cfg replicas (fanOut cfg s self owners o r) op := by
  cases hr with
  | minted _ _ _ hsib =>
    intro op hop
    rcases List.mem_append.mp hop with hop | hop
    · exact hold op hop
    · rw [List.mem_singleton.mp hop]
      exact fanOut_writeOk hn hself ho hsib
  | refused => exact hold

/-- Everything a run of the replica set keeps. -/
structure Counted (cfg : Config σ) (replicas : List Bytes) (s : State σ) : Prop where
  sound : Sound cfg s
  matched : Matched s
  antichain : ∀ n, Antichain clk (s.sets cfg n)
  calls : ∀ c ∈ s.calls, CallOk cfg s c
  writes : ∀ op ∈ s.writes, WriteOk cfg replicas s op

lemma Counted.covers_of_acked (hc : Counted cfg replicas s) {x : Call} (hx : x ∈ s.calls) {w : ℕ}
    (ho : x.origin = .fanOut w) {op : WriteOp} (hw : s.writes[w]? = some op)
    (hacked : x.phase = .acked) : Covers clk (s.sets cfg x.dst) (clk op.version) := by
  obtain ⟨op', hop', hblob, -⟩ := hc.matched x hx w ho
  rw [hw, Option.some.injEq] at hop'
  subst hop'
  have hcall := hc.calls x hx
  exact hcall.covers (hcall.handled (.inl hacked)) op.version (by simp [hblob])

lemma Counted.writes_step (hn : replicas.Nodup) (hc : Counted cfg replicas s)
    (hok : Within cfg replicas s a) (h : step cfg s a = some s') :
    ∀ op ∈ s'.writes, WriteOk cfg replicas s' op := by
  have hold : ∀ op ∈ s.writes, WriteOk cfg replicas s' op := fun op hop =>
    (hc.writes op hop).mono hc.sound hok h
  have hset : ∀ {w op op'}, s.writes[w]? = some op →
      (WriteOk cfg replicas s' op → WriteOk cfg replicas s' op') →
      ∀ x ∈ s.writes.set w op', WriteOk cfg replicas s' x := by
    intro w op op' hw himp x hx
    rcases List.mem_or_eq_of_mem_set hx with hx | rfl
    · exact hold x hx
    · exact himp (hold op (List.mem_of_getElem? hw))
  cases stepped h with
  | write hself _ hval =>
    obtain ⟨hmem, hperm⟩ := hok.owners _ _ rfl
    exact fanOut_writes hn hmem hperm (writeLocal_applied hc.sound _ hself hval) hold
  | delete hself =>
    obtain ⟨hmem, hperm⟩ := hok.owners _ _ rfl
    exact fanOut_writes hn hmem hperm (deleteLocal_applied hc.sound _ _ hself) hold
  | @report i c w op ok hi ho hp hw hr =>
    refine hset hw fun hop => { hop with asked := ?_, acked := ?_, success := ?_ }
    · simpa using hop.asked.hear hr
    · intro p hmem
      rcases List.mem_append.mp hmem with hmem | hmem
      · exact hop.acked p hmem
      · rw [List.mem_singleton, Prod.mk.injEq] at hmem
        obtain ⟨rfl, rfl⟩ := hmem
        have hacked : c.phase = .acked := by simpa using hp
        have hcov := hc.covers_of_acked (List.mem_of_getElem? hi) ho hw hacked
        exact step_covers hc.sound hok h hcov
    · intro hreply
      have := hop.success hreply
      simp only [List.map_append, List.count_append]
      omega
  | @reply w op acks hw _ hg =>
    refine hset hw fun hop => { hop with success := fun hreply => ?_ }
    have hle := gatherLoop_le hg
    rw [Option.some.injEq] at hreply
    have := le_of_writeReply_eq_success hreply
    simp only
    omega
  | @repair j env coord need st r todo => cases r <;> exact hold
  | _ => exact hold

lemma counted_init (cfg : Config σ) (replicas : List Bytes) : Counted cfg replicas (init cfg) where
  sound := sound_init cfg
  matched := by simp [Matched, init]
  antichain n := by
    have hnil : (init cfg).sets cfg n = [] :=
      siblings_of_blob_eq_nil (blob_of_none (by simp [init, cfg.empty]))
    rw [hnil]
    exact .nil
  calls := by simp [init]
  writes := by simp [init]

lemma Counted.step (hn : replicas.Nodup) (hc : Counted cfg replicas s)
    (hok : Within cfg replicas s a) (h : step cfg s a = some s') : Counted cfg replicas s' where
  sound := step_sound hc.sound h
  matched := hc.matched.step hc.sound h
  antichain := step_antichain hc.sound h hc.antichain
  calls := CallOk.step hc.sound hok hc.calls h
  writes := hc.writes_step hn hok h

lemma WriteOk.acknowledged {op : WriteOp} (h : WriteOk cfg replicas s op)
    (hr : op.reply = some op.kind.success) :
    ∃ A : List Bytes, A.Nodup ∧ A ⊆ replicas ∧ min cfg.w replicas.length ≤ A.length ∧
      ∀ p ∈ A, Covers clk (s.sets cfg p) (clk op.version) := by
  obtain ⟨hnodup, hsub⟩ := h.asked.members h.coord
    ((List.filter_sublist (p := fun r => r.2) (l := op.results)).map Prod.fst)
  refine ⟨_, hnodup, hsub, ?_, fun p hp => ?_⟩
  · have hcount := h.success hr
    rw [List.count_eq_countP, List.countP_map, List.countP_eq_length_filter] at hcount
    rw [← h.need, List.length_cons, List.length_map]
    simpa [Function.comp_def, add_comm] using hcount
  · rcases List.mem_cons.mp hp with rfl | hp
    · exact h.own
    · obtain ⟨⟨q, ok⟩, hq, rfl⟩ := List.mem_map.mp hp
      obtain ⟨hq, hok⟩ := List.mem_filter.mp hq
      simp only at hok
      subst hok
      exact h.acked q hq

/-! ### Reads -/

/-- What is known of a read in progress: the nodes of `A` show a version at or above `c`. -/
structure WaitOk (cfg : Config σ) (replicas A : List Bytes) (c : Bytes → ℕ) (rd : Waiting) :
    Prop where
  coord : rd.coord ∈ replicas
  need : rd.need = min cfg.r replicas.length
  asked : Asked replicas rd.coord (rd.results.map Prod.fst) rd.asked
  antichain : Antichain clk rd.own
  own : rd.coord ∈ A → Covers clk rd.own c
  answers : ∀ x ∈ rd.answers, x.1 ∈ A → Covers clk (siblingsOf x.2) c
  results : ∀ p vs, (p, some vs) ∈ rd.results → p ∈ A → Covers clk vs c

/-- What is known of a read: it is in progress, or has a quorum only if it shows a version at or
above `c`. -/
def ReadOk (cfg : Config σ) (replicas A : List Bytes) (c : Bytes → ℕ) : ReadOp → Prop
  | .waiting rd => WaitOk cfg replicas A c rd
  | .replied _ need st _ => need ≤ st.responses →
      Covers clk st.merged c ∧ Antichain clk st.merged

section Read

variable {A : List Bytes} {c : Bytes → ℕ} {rd : Waiting}

lemma WaitOk.finish (hn : replicas.Nodup) (hA : A.Nodup) (hAr : A ⊆ replicas)
    (hq : replicas.length < A.length + min cfg.r replicas.length)
    (h : WaitOk cfg replicas A c rd) {rounds : ℕ} {st : ReadState}
    (hr : readLoop rd.need rounds (readInit rd.coord rd.own) rd.results = some st)
    (hquorum : rd.need ≤ st.responses) : Covers clk st.merged c ∧ Antichain clk st.merged := by
  obtain ⟨used, hused, hcount, hmerged⟩ := readLoop_spec hr
  rw [reconcile_eq] at hmerged
  refine ⟨?_, hmerged ▸ h.antichain.foldl _⟩
  obtain ⟨hB, hBr⟩ := h.asked.members h.coord
    (((List.filter_sublist (p := fun r => r.2.isSome) (l := used)).trans hused.sublist).map
      Prod.fst)
  have hlen : rd.need ≤ (rd.coord :: (used.filter fun r => r.2.isSome).map Prod.fst).length := by
    rw [List.length_cons, List.length_map, ← List.countP_eq_length_filter]
    simp only [readInit] at hcount
    omega
  rw [h.need] at hlen
  obtain ⟨p, hpA, hpB⟩ := exists_common hA hB hAr hBr hn (by omega)
  rw [hmerged]
  rcases List.mem_cons.mp hpB with rfl | hpB
  · exact (h.own hpA).foldl _
  · obtain ⟨⟨q, vs⟩, hmem, rfl⟩ := List.mem_map.mp hpB
    obtain ⟨hmem, hsome⟩ := List.mem_filter.mp hmem
    obtain ⟨vs, rfl⟩ := Option.isSome_iff_exists.mp hsome
    obtain ⟨w, hw, hle⟩ := h.results q vs (hused.subset hmem) hpA
    have hans : w ∈ answered used := List.mem_flatMap.mpr ⟨_, hmem, hw⟩
    exact (covers_foldl_of_mem hans).trans hle

lemma WaitOk.answer {rd : Waiting} (h : WaitOk cfg replicas A c rd) {p blob : Bytes}
    (hblob : p ∈ A → Covers clk (siblingsOf blob) c) :
    WaitOk cfg replicas A c { rd with answers := rd.answers ++ [(p, blob)] } := by
  refine { h with answers := fun x hx hxA => ?_ }
  rcases List.mem_append.mp hx with hx | hx
  · exact h.answers x hx hxA
  · rw [List.mem_singleton.mp hx] at hxA ⊢
    exact hblob hxA

lemma WaitOk.hear {rd : Waiting} (h : WaitOk cfg replicas A c rd) {p : Bytes} (hp : p ∈ rd.asked)
    {res : Option (List Version)} (hres : ∀ vs, res = some vs → p ∈ A → Covers clk vs c) :
    WaitOk cfg replicas A c
      { rd with asked := rd.asked.erase p, results := rd.results ++ [(p, res)] } := by
  refine { h with asked := by simpa using h.asked.hear hp, results := fun q vs hmem hqA => ?_ }
  rcases List.mem_append.mp hmem with hmem | hmem
  · exact h.results q vs hmem hqA
  · rw [List.mem_singleton, Prod.mk.injEq] at hmem
    obtain ⟨rfl, hvs⟩ := hmem
    exact hres vs hvs.symm hqA

lemma siblingsOf_of_peerResult {p blob : Bytes} {vs : List Version}
    (h : (peerResult p blob).2 = some vs) : siblingsOf blob = vs := by
  unfold peerResult at h
  rcases hd : decode blob with e | ws
  · simp [hd] at h
  · simpa [siblingsOf, hd] using h

/-- The nodes of `A` cover `c`, and the read is as it should be. -/
structure Watched (cfg : Config σ) (replicas A : List Bytes) (c : Bytes → ℕ) (j : ℕ)
    (s : State σ) : Prop where
  covers : ∀ p ∈ A, Covers clk (s.sets cfg p) c
  read : ∃ rd, s.reads[j]? = some rd ∧ ReadOk cfg replicas A c rd

lemma read_setRead {j j' : ℕ} {rd rd' : ReadOp} {P : ReadOp → Prop} {s : State σ}
    (hj : s.reads[j]? = some rd) (hP : P rd) (hset : j' = j → P rd') :
    ∃ x, (s.reads.set j' rd')[j]? = some x ∧ P x := by
  by_cases he : j' = j
  · subst he
    exact ⟨rd', by rw [List.getElem?_set_self (List.getElem?_eq_some_iff.mp hj).1], hset rfl⟩
  · exact ⟨rd, by rw [List.getElem?_set_ne he]; exact hj, hP⟩

lemma Watched.step (hn : replicas.Nodup) (hA : A.Nodup) (hAr : A ⊆ replicas)
    (hq : replicas.length < A.length + min cfg.r replicas.length) {j : ℕ} (hs : Sound cfg s)
    (hw : Watched cfg replicas A c j s) (hok : Within cfg replicas s a)
    (h : step cfg s a = some s') : Watched cfg replicas A c j s' := by
  refine ⟨fun p hp => step_covers hs hok h (hw.covers p hp), ?_⟩
  obtain ⟨rd, hj, hrd⟩ := hw.read
  have hfan : ∀ self owners o r, ∃ rd, (fanOut cfg s self owners o r).reads[j]? = some rd ∧
      ReadOk cfg replicas A c rd := by
    rintro self owners o ⟨_ | ⟨kind, v⟩, m⟩ <;> exact ⟨rd, hj, hrd⟩
  have hhere : ∀ {j' rd'}, s.reads[j']? = some rd' → j' = j → ReadOk cfg replicas A c rd' := by
    rintro j' rd' hj' rfl
    rw [hj, Option.some.injEq] at hj'
    exact hj' ▸ hrd
  cases stepped h with
  | write | delete => exact hfan _ _ _ _
  | read =>
    refine ⟨rd, ?_, hrd⟩
    exact (List.getElem?_append_left (List.getElem?_eq_some_iff.mp hj).1).trans hj
  | @rget j' p now rd' hj' =>
    refine read_setRead hj hrd fun he => WaitOk.answer (hhere hj' he) fun hpA => ?_
    rw [siblingsOf_get (hs.stores p)]
    exact hw.covers p hpA
  | @arrive j' k rd' x hj' hx ha =>
    refine read_setRead hj hrd fun he => ?_
    have hrd' : WaitOk cfg replicas A c rd' := hhere hj' he
    refine hrd'.hear ha fun vs hvs hxA => ?_
    rw [← siblingsOf_of_peerResult (p := x.1) hvs]
    exact hrd'.answers x (List.mem_of_getElem? hx) hxA
  | @miss j' p rd' hj' ha =>
    exact read_setRead hj hrd fun he => WaitOk.hear (hhere hj' he) ha (by simp)
  | @readReply j' o rd' st hj' hr =>
    refine read_setRead hj hrd fun he hquorum => ?_
    have hrd' : WaitOk cfg replicas A c rd' := hhere hj' he
    exact hrd'.finish hn hA hAr hq hr hquorum
  | @repair j' env coord need st r todo hj' =>
    have hreads : (runRepair cfg s j' coord env r).reads = s.reads := by cases r <;> rfl
    refine (?_ : ∃ x, ((runRepair cfg s j' coord env r).reads.set j' _)[j]? = some x ∧ _)
    rw [hreads]
    exact read_setRead hj hrd fun he => (hhere hj' he : _ → _)
  | _ => exact ⟨rd, hj, hrd⟩

lemma startRead_ok (hc : Counted cfg replicas s) (hn : replicas.Nodup) {self : Bytes}
    (hself : self ∈ replicas) {owners : Owners} (ho : owners.Perm replicas) {now : ℕ}
    (hA : ∀ p ∈ A, Covers clk (s.sets cfg p) c) :
    ReadOk cfg replicas A c (.waiting
      { coord := self, need := min cfg.r owners.length
        own := siblingsOf (((s.node self).store.get now cfg.key).1.getD [])
        asked := if 1 < min cfg.r owners.length then peersExcept owners self else [] }) where
  coord := hself
  need := by rw [ho.length_eq]
  asked := by
    split
    · exact .start hn ho
    · exact ⟨by simp, by simp⟩
  antichain := by
    rw [siblingsOf_get (hc.sound.stores self)]
    exact hc.antichain self
  own := by
    rw [siblingsOf_get (hc.sound.stores self)]
    exact hA self
  answers := by simp
  results := by simp

end Read

/-- **Quorum reads see acknowledged writes.** A read that starts after a write was answered
with success, and that reaches its quorum, has merged a version at or above the one written,
and no version it may answer with is before that one. -/
theorem quorum_read_sees_acknowledged_write (hn : replicas.Nodup) (hr : 1 ≤ cfg.r)
    (hw : 1 ≤ cfg.w) (hrw : cfg.n < cfg.r + cfg.w) {s₀ s₁ s₂ : State σ}
    (h₀ : Steps (step cfg) (Within cfg replicas) (init cfg) s₀) {i : ℕ} {op : WriteOp}
    (hop : s₀.writes[i]? = some op) (hreply : op.reply = some op.kind.success)
    {self : Bytes} {owners : Owners} {now : ℕ}
    (hok : Within cfg replicas s₀ (.read self owners now))
    (hread : step cfg s₀ (.read self owners now) = some s₁)
    (h₂ : Steps (step cfg) (Within cfg replicas) s₁ s₂) {coord : Bytes} {need : ℕ}
    {st : ReadState} {todo : List Repair}
    (hdone : s₂.reads[s₀.reads.length]? = some (.replied coord need st todo))
    (hquorum : need ≤ st.responses) :
    (∃ w ∈ st.merged, Clock.compare w.clock op.version.clock = .after ∨
      Clock.compare w.clock op.version.clock = .equal) ∧
    readReply need st = mergedReply st.merged ∧
    ∀ x ∈ live st.merged, Clock.compare x.clock op.version.clock ≠ .before := by
  have hc₀ : Counted cfg replicas s₀ :=
    h₀.invariant (counted_init cfg replicas) fun _ _ _ hI hok hstep => hI.step hn hok hstep
  obtain ⟨A, hA, hAr, hlen, hcov⟩ :=
    (hc₀.writes op (List.mem_of_getElem? hop)).acknowledged hreply
  obtain ⟨hself, hperm⟩ := hok.owners self owners rfl
  -- the replica set is not empty and no larger than `n`, so the quorums meet
  have hM : replicas.length ≤ cfg.n ∧ 0 < replicas.length := by
    cases stepped hread with
    | read _ hlen => exact ⟨hperm.length_eq ▸ hlen, List.length_pos_of_mem hself⟩
  have hq : replicas.length < A.length + min cfg.r replicas.length := by omega
  have hw₁ : Watched cfg replicas A (clk op.version) s₀.reads.length s₁ := by
    refine ⟨fun p hp => step_covers hc₀.sound hok hread (hcov p hp), ?_⟩
    cases stepped hread with
    | read => exact ⟨_, List.getElem?_concat_length, startRead_ok hc₀ hn hself hperm hcov⟩
  obtain ⟨-, hw₂⟩ : Sound cfg s₂ ∧
      Watched cfg replicas A (clk op.version) s₀.reads.length s₂ := by
    refine h₂.invariant (I := fun s => Sound cfg s ∧
      Watched cfg replicas A (clk op.version) s₀.reads.length s)
      ⟨step_sound hc₀.sound hread, hw₁⟩ ?_
    rintro s a s' ⟨hs, hI⟩ hok hstep
    exact ⟨step_sound hs hstep, hI.step hn hA hAr hq hs hok hstep⟩
  obtain ⟨rd, hrd, hfin⟩ := hw₂.read
  rw [hdone, Option.some.injEq] at hrd
  subst hrd
  obtain ⟨⟨w, hwm, hle⟩, hanti⟩ := hfin hquorum
  refine ⟨⟨w, hwm, (compare_eq_after_or_equal_iff w op.version).mpr hle⟩, ?_,
    fun x hx hbefore => ?_⟩
  · rw [readReply, if_neg (not_lt.mpr hquorum)]
  · have hlt : clk x < clk w := ((compare_eq_before_iff x op.version).mp hbefore).trans_le hle
    have hxm : x ∈ st.merged := (List.mem_filter.mp hx).1
    rw [hanti.eq_of_le hxm hwm hlt.le] at hlt
    exact lt_irrefl _ hlt

def withinCheck (replicas : List Bytes) (a : Action) : Bool :=
  !a.mayDrop && a.coordinates.all fun x => x.1 ∈ replicas && x.2 = replicas

lemma within_of_check (hs : Sound cfg s) (h : withinCheck replicas a = true) :
    Within cfg replicas s a := by
  simp only [withinCheck, Bool.and_eq_true, Bool.not_eq_true'] at h
  refine ⟨not_drops hs h.1, fun self owners he => ?_⟩
  simp only [he, Option.all_some, Bool.and_eq_true, decide_eq_true_eq] at h
  exact ⟨h.2.1, h.2.2 ▸ .refl _⟩

lemma steps_within {t : State σ} {as : List Action} (hs : Sound cfg s)
    (h : exec (step cfg) (fun _ => withinCheck replicas) s as = some t) :
    Steps (step cfg) (Within cfg replicas) s t :=
  .of_exec h hs (fun _ _ _ hs hstep => step_sound hs hstep) fun _ _ hs hc => within_of_check hs hc

/-- The quorum a finished read needed and the responses it had. -/
def ReadOp.counts : ReadOp → Option (ℕ × ℕ)
  | .waiting _ => none
  | .replied _ need st _ => some (need, st.responses)

/-- A write of `a` that `b` has acknowledged, then a read of `b`. -/
theorem quorum_read_sees_acknowledged_write_pair :
    ∃ (s₀ s₁ s₂ : State Unit) (op : WriteOp) (st : ReadState),
      Steps (step pair) (Within pair pair.nodes) (init pair) s₀ ∧
      op.reply = some op.kind.success ∧ step pair s₀ (.read (ascii "b") pair.nodes 0) = some s₁ ∧
      Steps (step pair) (Within pair pair.nodes) s₁ s₂ ∧ st.responses = 2 ∧
      ∃ w ∈ st.merged, Clock.compare w.clock op.version.clock = .after ∨
        Clock.compare w.clock op.version.clock = .equal := by
  have hrun : ((exec (step pair) (fun _ => withinCheck pair.nodes) (init pair)
      [.write (ascii "a") (ascii "1") pair.nodes default default, .deliver 0 default, .ack 0,
        .report 0, .reply 0]).bind fun s₀ =>
      (step pair s₀ (.read (ascii "b") pair.nodes 0)).bind fun s₁ =>
      (exec (step pair) (fun _ => withinCheck pair.nodes) s₁
        [.rget 0 (ascii "a") 0, .arrive 0 0, .readReply 0 default]).map fun s₂ =>
        (s₀.writes.map fun op => (op.reply, op.kind.success), s₀.reads.length,
          s₂.reads.map ReadOp.counts)) =
      some ([(some (.simpleString (ascii "OK")), .simpleString (ascii "OK"))], 0,
        [some (2, 2)]) := by decide +kernel
  obtain ⟨s₀, hs₀, hrest⟩ := Option.bind_eq_some_iff.mp hrun
  obtain ⟨s₁, hs₁, hrest⟩ := Option.bind_eq_some_iff.mp hrest
  obtain ⟨s₂, hs₂, hfacts⟩ := Option.map_eq_some_iff.mp hrest
  simp only [Prod.mk.injEq] at hfacts
  obtain ⟨hwrites, hlen, hmerged⟩ := hfacts
  obtain ⟨op, hop, hreply⟩ : ∃ op, s₀.writes[0]? = some op ∧ op.reply = some op.kind.success := by
    obtain ⟨op, hw, he⟩ := List.map_eq_singleton_iff.mp hwrites
    rw [Prod.mk.injEq] at he
    exact ⟨op, by simp [hw], by rw [he.1, he.2]⟩
  have hsteps₀ := steps_within (sound_init pair) hs₀
  have hsound₀ : Sound pair s₀ :=
    hsteps₀.invariant (sound_init pair) fun _ _ _ hI _ hstep => step_sound hI hstep
  have hsteps₂ := steps_within (step_sound hsound₀ hs₁) hs₂
  obtain ⟨rd, hrd, hcounts⟩ := List.map_eq_singleton_iff.mp hmerged
  cases rd with
  | waiting rd => simp [ReadOp.counts] at hcounts
  | replied coord need st todo =>
    simp only [ReadOp.counts, Option.some.injEq, Prod.mk.injEq] at hcounts
    have hdone : s₂.reads[s₀.reads.length]? = some (.replied coord need st todo) := by
      simp [hlen, hrd]
    refine ⟨s₀, s₁, s₂, op, st, hsteps₀, hreply, hs₁, hsteps₂, hcounts.2, ?_⟩
    exact (quorum_read_sees_acknowledged_write (by decide) (by decide) (by decide) (by decide)
      hsteps₀ hop hreply (within_of_check hsound₀ (by decide)) hs₁ hsteps₂ hdone (by omega)).1

end Kyria.Cluster
