import Kyria.Cluster.Effects

/-!
Every step of the cluster has one of the four effects, and brings nothing into transit that
was not stored, in transit or just minted. Runs of the cluster are thereby runs of the
general model of replicas.
-/

namespace Kyria.Cluster

open Kyria.Lib.Cursor Kyria.Lib.MapOrder Kyria.Lib.Maxima Kyria.Lib.Causal Kyria.Lib.Runs
open Kyria.Vclock Kyria.Version Kyria.Binenc Kyria.Store Kyria.Store.MapStore Kyria.Replica
open Kyria.Handoff Kyria.Protocol Kyria.Coordinator Kyria.TombstoneGC

variable {σ : Type} {cfg : Config σ} {s s' : State σ}

/-- The node that mints a version in this step, if any does. -/
def Action.minter : Action → Option Bytes
  | .write self _ _ _ _ | .delete self _ _ _ _ => some self
  | _ => none

/-- The steps in which a node's set may go: a sweep, or an update of another key that evicts. -/
def Action.mayDrop : Action → Bool
  | .reap .. | .other .. => true
  | _ => false

lemma minted_set {w : ℕ} {op op' : WriteOp} (h : s.writes[w]? = some op)
    (hc : op'.coord = op.coord) (hv : op'.version = op.version) :
    (s.writes.set w op').map (fun op => (op.coord, op.version)) = s.minted := by
  rw [List.map_set, hc, hv]
  refine List.ext_getElem? fun i => ?_
  by_cases hi : i = w
  · subst hi
    rw [List.getElem?_set_self (by simpa using (List.getElem?_eq_some_iff.mp h).1)]
    simp [State.minted, h]
  · rw [List.getElem?_set_ne (Ne.symm hi)]
    rfl

/-! ### The stored sets -/

/-- What `step_effect` proves for each action: the effect, and which actions mint or drop. -/
def HasEffect (cfg : Config σ) (s : State σ) (a : Action) (s' : State σ) : Prop :=
  (∀ n, Intact (s'.node n).store cfg.key) ∧ ∃ l, Effect cfg s s' l ∧
    (∀ n v, l = .mint n v → a.minter = some n) ∧ ∀ n, l = .remove n → a.mayDrop = true

lemma HasEffect.quiet (hs : Sound cfg s) (a : Action) (hn : s'.node = s.node)
    (hm : s'.minted = s.minted) : HasEffect cfg s a s' :=
  ⟨hn ▸ hs.stores, _, .quiet hn hm, by simp, by simp⟩

lemma HasEffect.of_keeps (hs : Sound cfg s) (a : Action) {n : Bytes} {nd : Node σ}
    (hn : s'.node = Function.update s.node n nd) (hf : nd.folded = s.folded n)
    (hm : s'.minted = s.minted) (hi : Intact nd.store cfg.key)
    (h : Keeps (s.node n).store nd.store cfg.key) : HasEffect cfg s a s' :=
  ⟨intact_of_node hs.stores hn hi, _, .of_keeps hn hf hm h, by simp, by simp⟩

lemma HasEffect.of_keeps_or_none (hs : Sound cfg s) {a : Action} (ha : a.mayDrop = true)
    {n : Bytes} {nd : Node σ} (hn : s'.node = Function.update s.node n nd)
    (hf : nd.folded = s.folded n) (hm : s'.minted = s.minted) (hi : Intact nd.store cfg.key)
    (h : Keeps (s.node n).store nd.store cfg.key ∨ nd.store.data[cfg.key]? = none) :
    HasEffect cfg s a s' := by
  refine ⟨intact_of_node hs.stores hn hi, ?_⟩
  rcases Effect.of_keeps_or_none hn hf hm h with hl | hl
  · exact ⟨_, hl, by simp, by simp⟩
  · exact ⟨_, hl, by simp, fun _ _ => ha⟩

lemma HasEffect.of_get (hs : Sound cfg s) (a : Action) {n k : Bytes} {now : ℕ}
    (hn : s'.node = Function.update s.node n
      { s.node n with store := ((s.node n).store.get now k).2 })
    (hm : s'.minted = s.minted) : HasEffect cfg s a s' :=
  have hk := get_keeps (s.node n).store now k cfg.key
  .of_keeps hs a hn rfl hm ((hs.stores n).of_keeps hk (get_sameLimits _ now k)) hk

lemma HasEffect.of_fold (hs : Sound cfg s) (a : Action) {n : Bytes} {m : MapStore σ} {ok : Bool}
    {vs : List Version}
    (hn : s'.node = Function.update s.node n { s.node n with
      store := m, folded := (s.node n).folded ++ if ok then vs else [] })
    (hm : s'.minted = s.minted) (hk : ∀ v ∈ vs, v ∈ pool cfg s) (hi : Intact m cfg.key)
    (h : ok = true ∧ siblings m cfg.key = vs.foldl reconcile (s.sets cfg n) ∨
      ok = false ∧ siblings m cfg.key = s.sets cfg n) : HasEffect cfg s a s' := by
  refine ⟨intact_of_node hs.stores hn hi, .fold n (if ok then vs else []), ?_, by simp, by simp⟩
  rcases h with ⟨rfl, hsib⟩ | ⟨rfl, hsib⟩
  · exact .of_fold hn hm rfl hk hsib
  · exact .of_fold hn hm rfl (by simp) hsib

lemma HasEffect.of_foldIn (hs : Sound cfg s) (a : Action) {n : Bytes} (env : Env)
    {vs : List Version}
    (hn : s'.node = (s.update n (foldIn (s.node n).store env cfg.key vs).2
      (foldIn (s.node n).store env cfg.key vs).1.isOk vs).node)
    (hm : s'.minted = s.minted) (hk : ∀ v ∈ vs, v ∈ pool cfg s) (hfits : ∀ v ∈ vs, Fits v) :
    HasEffect cfg s a s' := by
  obtain ⟨hi, h⟩ := foldIn_spec (hs.stores n) env hfits
  refine .of_fold hs a hn hm hk hi (h.imp ?_ ?_)
  · rintro ⟨hok, hsib⟩
    exact ⟨by rw [hok]; rfl, hsib⟩
  · rintro ⟨err, herr, hsib⟩
    exact ⟨by rw [herr]; rfl, hsib⟩

lemma handle_effect (hs : Sound cfg s) (a : Action) {i : ℕ} {c : Call}
    (hc : s.calls[i]? = some c) (hl : c.lost = false) (env : Env) :
    HasEffect cfg s a (handle cfg s i c env) := by
  obtain ⟨hi, h⟩ := rset_spec (hs.stores c.dst) env c.blob
  refine .of_fold hs a rfl rfl (fun v hv => ?_) hi (h.imp ?_ ?_)
  · exact .inl ⟨c, List.mem_of_getElem? hc, .inl hl, hv⟩
  · rintro ⟨hok, hsib⟩
    exact ⟨decide_eq_true hok, hsib⟩
  · rintro ⟨hne, hsib⟩
    exact ⟨decide_eq_false hne, hsib⟩

lemma runRepair_effect (hs : Sound cfg s) (a : Action) {j : ℕ} {self : Bytes} {need : ℕ}
    {st : ReadState} {r : Repair} {todo : List Repair}
    (hj : s.reads[j]? = some (.replied self need st (r :: todo))) (env : Env) :
    HasEffect cfg s a ((runRepair cfg s j self env r).setRead j (.replied self need st todo)) := by
  cases r with
  | own merged =>
    have hmem : ∀ v ∈ merged,
        v ∈ (ReadOp.replied self need st (.own merged :: todo)).versions := fun v hv => by
      simp [ReadOp.versions, repairVersions, hv]
    have hrd := List.mem_of_getElem? hj
    exact .of_foldIn hs a env rfl rfl
      (fun v hv => .inr (.inr (.inl ⟨_, hrd, hmem v hv⟩))) fun v hv => hs.fits _ hrd v (hmem v hv)
  | push addr v => exact .quiet hs a rfl rfl

/-- **Every step mints, folds or drops at one node, or leaves the stored sets alone.** -/
theorem step_effect (hs : Sound cfg s) {a : Action} (h : step cfg s a = some s') :
    HasEffect cfg s a s' := by
  cases stepped h with
  | @write self value owners env o hself _ hval =>
    obtain ⟨hi, l, hl, hm, hr⟩ := fanOut_effect hs owners o (writeLocal_applied hs env hself hval)
    exact ⟨hi, l, hl, fun n v he => by rw [hm n v he]; rfl, fun n he => absurd he (hr n)⟩
  | @delete self called owners env o hself =>
    obtain ⟨hi, l, hl, hm, hr⟩ := fanOut_effect hs owners o
      (deleteLocal_applied hs env called hself)
    exact ⟨hi, l, hl, fun n v he => by rw [hm n v he]; rfl, fun n he => absurd he (hr n)⟩
  | deliver hi hl => exact handle_effect hs _ hi hl _
  | park | forget => exact .of_keeps hs _ rfl rfl rfl (hs.stores _) (.refl _ _)
  | report _ _ _ hw | reply hw => exact .quiet hs _ rfl (minted_set hw rfl rfl)
  | read | rget | lookup => exact .of_get hs _ rfl rfl
  | repair hj => exact runRepair_effect hs _ hj _
  | @fold i env p hi =>
    have hmem := List.mem_of_getElem? hi
    exact .of_foldIn hs _ env rfl rfl (fun v hv => .inr (.inr (.inr ⟨p, hmem, hv⟩)))
      fun v hv => fits_of_mem_siblingsOf hv
  | @reap self k now t =>
    obtain ⟨hi, hk⟩ := reap_spec (hs.stores self) k now cfg.grace t
    exact .of_keeps_or_none hs rfl rfl rfl rfl hi hk
  | @other self k value env hne =>
    obtain ⟨hi, hk⟩ := updateReplica_spec_of_ne (hs.stores self) env.entries env.now
      (Ne.symm hne) fun _ => value
    exact .of_keeps_or_none hs rfl rfl rfl rfl hi hk
  | _ => exact .quiet hs _ rfl rfl

/-! ### What is under way -/

section Carried

variable {E : Set Version}

lemma fanOut_carried (hc : Carried cfg s E) {self : Bytes} (owners : Owners) (o : ClockOrder)
    {r : Except StoreError (WriteKind × Version) × MapStore σ} (hr : Applied cfg s self r)
    (hm : ∀ n v, (fanOut cfg s self owners o r).minted = s.minted ++ [(n, v)] → v ∈ E) :
    Carried cfg (fanOut cfg s self owners o r) E := by
  cases hr with
  | @minted kind v m hi hclock hfits hsib =>
    have hv : v ∈ E := hm self v (by simp [fanOut, State.minted])
    have hnew : ∀ c ∈ fanOutCalls self s.writes.length (encode o [v]) (peersExcept owners self),
        ∀ w ∈ siblingsOf c.blob, w ∈ E := by
      intro c hcm w hw
      obtain ⟨p, -, rfl⟩ := List.mem_map.mp hcm
      rw [siblingsOf_encode o hfits.encodable, List.mem_singleton] at hw
      exact hw ▸ hv
    exact { (hc.update self m true [v]).addCalls hnew with }
  | refused hi hsib => exact hc.setStore self _

lemma parkHint_carried (hc : Carried cfg s E) {i : ℕ} {c : Call} (hi : s.calls[i]? = some c)
    (hp : c.phase = .failed) (ho : c.origin.isFanOut = true) :
    Carried cfg (parkHint cfg s i c) E := by
  have halive : c.Alive := .inr ⟨ho, .inr hp⟩
  refine Carried.setCall (c := c) (hc.setNode fun t b hb => ?_) hi rfl fun _ => halive
  rw [HintStore.parked_add] at hb
  split_ifs at hb with ht
  · cases hb
    exact hc.calls c (List.mem_of_getElem? hi) halive
  · exact hc.hints c.src t b hb

lemma forgetHint_carried (hc : Carried cfg s E) {i : ℕ} {c : Call} (hi : s.calls[i]? = some c) :
    Carried cfg (forgetHint cfg s i c) E := by
  refine Carried.setCall (c := c) (hc.setNode fun t b hb => ?_) hi rfl ?_
  · rw [HintStore.parked_remove] at hb
    split_ifs at hb
    exact hc.hints c.src t b hb
  · rintro (h | ⟨-, h | h⟩)
    · exact .inl h
    · simp at h
    · simp at h

lemma replay_carried (hc : Carried cfg s E) (self : Bytes) :
    Carried cfg { s with calls := s.calls ++ replayCalls cfg s self } E := by
  refine hc.addCalls fun c hcm v hv => ?_
  obtain ⟨⟨t, k, b⟩, hb, rfl⟩ := List.mem_map.mp hcm
  obtain ⟨hsnap, hk⟩ := List.mem_filter.mp hb
  have hparked : (s.node self).hints.parked t cfg.key = some b := by
    rw [HintStore.mem_snapshot, show k = cfg.key from of_decide_eq_true hk] at hsnap
    exact hsnap
  exact hc.hints self t b hparked v hv

lemma startRead_carried (hs : Sound cfg s) (hc : Carried cfg s E)
    (hst : ∀ n, ∀ v ∈ s.sets cfg n, v ∈ E) (self : Bytes) (owners : Owners) (now : ℕ) :
    Carried cfg (startRead cfg s self owners now) E := by
  refine { hc.setStore self ((s.node self).store.get now cfg.key).2 with reads := ?_ }
  intro rd hrd v hv
  rcases List.mem_append.mp hrd with hrd | hrd
  · exact hc.reads rd hrd v hv
  · rw [List.mem_singleton.mp hrd] at hv
    simp only [ReadOp.versions, Waiting.versions, List.flatMap_nil, answered, List.append_nil] at hv
    rw [siblingsOf_get (hs.stores self)] at hv
    exact hst self v hv

lemma mem_peerResult {p blob : Bytes} {v : Version} (h : v ∈ (peerResult p blob).2.getD []) :
    v ∈ siblingsOf blob := by
  unfold peerResult at h
  unfold siblingsOf
  rcases hd : decode blob with e | vs
  · simp [hd] at h
  · simpa [hd] using h

lemma receive_carried (hc : Carried cfg s E) {j : ℕ} {rd : Waiting} (res : PeerResult)
    (hj : s.reads[j]? = some (.waiting rd)) (hres : ∀ v ∈ res.2.getD [], v ∈ E) :
    Carried cfg (s.setRead j (.waiting
      { rd with asked := rd.asked.erase res.1, results := rd.results ++ [res] })) E := by
  refine hc.setRead fun v hv => ?_
  simp only [ReadOp.versions, Waiting.versions, answered, List.flatMap_append, List.mem_append,
    List.flatMap_cons, List.flatMap_nil, List.append_nil] at hv
  have hold := hc.reads _ (List.mem_of_getElem? hj) v
  simp only [ReadOp.versions, Waiting.versions, answered, List.mem_append] at hold
  rcases hv with h | h | h
  · exact hold (.inl h)
  · exact hold (.inr h)
  · exact hres v h

lemma finishRead_carried (hc : Carried cfg s E) {j : ℕ} {rd : Waiting} {st : ReadState}
    {rounds : ℕ} (o : VisitOrder (Bytes × List Version)) (hj : s.reads[j]? = some (.waiting rd))
    (hloop : readLoop rd.need rounds (readInit rd.coord rd.own) rd.results = some st) :
    Carried cfg (s.setRead j
      (.replied rd.coord rd.need st (repairs o rd.coord rd.need st))) E := by
  refine hc.setRead fun v hv => ?_
  obtain ⟨r, hr, hvr⟩ := List.mem_flatMap.mp hv
  refine hc.reads _ (List.mem_of_getElem? hj) v ?_
  rcases mem_merged hloop (mem_repairs hr hvr) with hown | hans
  · exact List.mem_append_left _ (List.mem_append_left _ hown)
  · exact List.mem_append_right _ hans

lemma runRepair_carried (hs : Sound cfg s) (hc : Carried cfg s E) {j : ℕ} {self : Bytes}
    {need : ℕ} {st : ReadState} {r : Repair} {todo : List Repair}
    (hj : s.reads[j]? = some (.replied self need st (r :: todo))) (env : Env) :
    Carried cfg ((runRepair cfg s j self env r).setRead j (.replied self need st todo)) E := by
  have hrd := List.mem_of_getElem? hj
  have hmem : ∀ v ∈ repairVersions r ++ todo.flatMap repairVersions,
      v ∈ (ReadOp.replied self need st (r :: todo)).versions := by simp [ReadOp.versions]
  refine Carried.setRead ?_ fun v hv => hc.reads _ hrd v (hmem v (List.mem_append_right _ hv))
  cases r with
  | own merged => exact hc.update self _ _ _
  | push addr v =>
    have hv := hmem v (by simp [repairVersions])
    refine hc.addCalls fun c hcm w hw => ?_
    rw [List.mem_singleton.mp hcm] at hw
    simp only at hw
    rw [siblingsOf_encode _ (hs.fits _ hrd v hv).encodable, List.mem_singleton] at hw
    exact hw ▸ hc.reads _ hrd v hv

lemma serveGet_carried (hs : Sound cfg s) (hc : Carried cfg s E)
    (hst : ∀ n, ∀ v ∈ s.sets cfg n, v ∈ E) {j : ℕ} {rd : Waiting}
    (hj : s.reads[j]? = some (.waiting rd)) (p : Bytes) (now : ℕ) :
    Carried cfg (serveGet cfg s j rd p now) E := by
  refine (hc.setStore p _).setRead fun v hv => ?_
  have hold := hc.reads _ (List.mem_of_getElem? hj) v
  simp only [ReadOp.versions, Waiting.versions, List.mem_append] at hold
  simp only [ReadOp.versions, Waiting.versions, List.flatMap_append, List.flatMap_cons,
    List.flatMap_nil, List.append_nil, List.mem_append, siblingsOf_get (hs.stores p)] at hv
  rcases hv with (h | h | h) | h
  · exact hold (.inl (.inl h))
  · exact hold (.inl (.inr h))
  · exact hst p v h
  · exact hold (.inr h)

lemma Carried.setPhase (hc : Carried cfg s E) {i : ℕ} {c : Call} (hi : s.calls[i]? = some c)
    {p : Phase} (hp : p ≠ .sent) (hf : p = .failed → c.phase = .sent) :
    Carried cfg (s.setCall i { c with phase := p }) E := by
  refine hc.setCall hi rfl ?_
  rintro (h | ⟨h, hs | hs⟩)
  · exact .inl h
  · exact absurd hs hp
  · exact .inr ⟨h, .inl (hf hs)⟩

/-- **Nothing gets under way that was not stored, under way or just minted.** -/
theorem step_carried (hs : Sound cfg s) (hc : Carried cfg s E)
    (hst : ∀ n, ∀ v ∈ s.sets cfg n, v ∈ E) {a : Action} (h : step cfg s a = some s')
    (hm : ∀ n v, s'.minted = s.minted ++ [(n, v)] → v ∈ E) : Carried cfg s' E := by
  cases stepped h with
  | write hself _ hval => exact fanOut_carried hc _ _ (writeLocal_applied hs _ hself hval) hm
  | delete hself => exact fanOut_carried hc _ _ (deleteLocal_applied hs _ _ hself) hm
  | @deliver i env c hi =>
    exact Carried.setCall (c := c) (hc.update c.dst _ _ _) hi rfl id
  | lose hi =>
    refine hc.setCall hi rfl ?_
    rintro (h | h)
    · simp at h
    · exact .inr h
  | ack hi => exact hc.setPhase hi (by simp) (by simp)
  | fail hi hp => exact hc.setPhase hi (by simp) fun _ => hp
  | park hi hp ho => exact parkHint_carried hc hi hp ho
  | report hi => exact { hc.setPhase hi (by simp) (by simp) with }
  | reply => exact { hc with }
  | replay => exact replay_carried hc _
  | forget hi => exact forgetHint_carried hc hi
  | read => exact startRead_carried hs hc hst _ _ _
  | rget hj => exact serveGet_carried hs hc hst hj _ _
  | @arrive j k rd x hj hx =>
    refine receive_carried hc (peerResult x.1 x.2) hj fun v hv => ?_
    refine hc.reads _ (List.mem_of_getElem? hj) v ?_
    have hans : v ∈ rd.answers.flatMap fun a => siblingsOf a.2 :=
      List.mem_flatMap.mpr ⟨x, List.mem_of_getElem? hx, mem_peerResult hv⟩
    exact List.mem_append_left _ (List.mem_append_right _ hans)
  | @miss j p rd hj => exact receive_carried hc (p, none) hj (by simp)
  | readReply hj hr => exact finishRead_carried hc _ hj hr
  | repair hj => exact runRepair_carried hs hc hj _
  | @pull self p now blob _ _ hb =>
    refine { hc with pulls := fun q hq v hv => ?_ }
    rcases List.mem_append.mp hq with hq | hq
    · exact hc.pulls q hq v hv
    · have hget := siblingsOf_get (hs.stores p) now
      rw [hb, Option.getD_some] at hget
      rw [List.mem_singleton.mp hq, hget] at hv
      exact hst p v hv
  | @fold i env p =>
    refine { hc.update p.1 _ _ _ with pulls := fun q hq => ?_ }
    exact hc.pulls q (List.mem_of_mem_eraseIdx hq)
  | dropPull => exact { hc with pulls := fun q hq => hc.pulls q (List.mem_of_mem_eraseIdx hq) }
  | reap | other | lookup => exact hc.setStore _ _

end Carried

/-! ### The simulation -/

lemma Effect.minted_inv {l : Label Bytes Version} (h : Effect cfg s s' l) {n : Bytes} {v : Version}
    (hm : s'.minted = s.minted ++ [(n, v)]) : l = .mint n v ∧ Fits v := by
  cases h with
  | mint _ hfits _ _ hminted =>
    rw [hminted] at hm
    simp only [List.append_cancel_left_eq, List.cons.injEq, Prod.mk.injEq, and_true] at hm
    obtain ⟨rfl, rfl⟩ := hm
    exact ⟨rfl, hfits⟩
  | fold _ _ _ hminted =>
    rw [hminted] at hm
    simp at hm
  | remove _ _ _ hminted =>
    rw [hminted] at hm
    simp at hm

lemma Sound.carried_fits (hs : Sound cfg s) : Carried cfg s {v | Fits v} where
  calls _ _ _ _ hv := fits_of_mem_siblingsOf hv
  hints _ _ _ _ _ hv := fits_of_mem_siblingsOf hv
  reads := hs.fits
  pulls _ _ _ hv := fits_of_mem_siblingsOf hv

theorem step_sound (hs : Sound cfg s) {a : Action} (h : step cfg s a = some s') :
    Sound cfg s' := by
  obtain ⟨hi, l, hl, -, -⟩ := step_effect hs h
  refine ⟨hi, (step_carried hs hs.carried_fits (fun _ _ hv => fits_of_mem_siblings hv) h ?_).reads⟩
  exact fun n v hm => (hl.minted_inv hm).2

lemma sound_init (cfg : Config σ) : Sound cfg (init cfg) where
  stores _ := .of_none cfg.limit (by simp [init, cfg.empty])
  fits _ h := absurd h (by simp [init])

/-- The cluster as a set of replicas. -/
def abs (cfg : Config σ) (s : State σ) : Replicas Bytes Version where
  sets := s.sets cfg
  pool := pool cfg s
  minted := s.minted
  folded n := {v | v ∈ s.folded n}

lemma carried_exists (cfg : Config σ) (s : State σ) : Carried cfg s (abs cfg s).Exists :=
  (carried_pool cfg s).mono fun _ hv => .inl hv

lemma pool_subset_of_mayDrop {a : Action} (ha : a.mayDrop = true) (h : step cfg s a = some s') :
    pool cfg s' ⊆ pool cfg s := by
  cases stepped h with
  | reap | other => exact ((carried_pool cfg s).setStore _ _).pool_subset
  | _ => simp [Action.mayDrop] at ha

/-- **A step of the cluster is a step of the replicas**, with the label its effect has. -/
theorem step_takes (hs : Sound cfg s) {a : Action} (h : step cfg s a = some s') :
    ∃ l, Takes clk (abs cfg s) l (abs cfg s') ∧ Effect cfg s s' l ∧
      (∀ n v, l = .mint n v → a.minter = some n) ∧ ∀ n, l = .remove n → a.mayDrop = true := by
  obtain ⟨-, l, hl, hlabel⟩ := step_effect hs h
  refine ⟨l, ?_, hl, hlabel⟩
  have hpool : ∀ E, (abs cfg s).Exists ⊆ E → (∀ n v, l = .mint n v → v ∈ E) → pool cfg s' ⊆ E := by
    intro E hE hmint
    refine (step_carried hs ((carried_exists cfg s).mono hE)
      (fun n v hv => hE (.inr ⟨n, hv⟩)) h ?_).pool_subset
    exact fun n v hm => hmint n v (hl.minted_inv hm).1
  cases hl with
  | @mint n v hclock hfits hsets hfolded hminted =>
    refine ⟨reconcile_eq ▸ hsets, ?_, hminted, hpool _ (Set.subset_insert _ _) ?_⟩
    · funext m
      by_cases hm : m = n
      · subst hm
        simp only [abs, hfolded, Function.update_self]
        ext w
        simp [or_comm]
      · simp only [abs, hfolded, Function.update_of_ne hm]
    · rintro n' v' ⟨⟩
      exact Set.mem_insert _ _
  | @fold n vs hknown hsets hfolded hminted =>
    refine ⟨fun v hv => .inl (hknown v hv), reconcile_eq ▸ hsets, ?_, hminted,
      hpool _ le_rfl (by simp)⟩
    funext m
    by_cases hm : m = n
    · subst hm
      simp only [abs, hfolded, Function.update_self]
      ext w
      simp
    · simp only [abs, hfolded, Function.update_of_ne hm]
  | remove hhad hsets hfolded hminted =>
    exact ⟨hsets, hminted, pool_subset_of_mayDrop (hlabel.2 _ rfl) h⟩

end Kyria.Cluster
