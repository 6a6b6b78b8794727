import Kyria.Cluster.Model
import Kyria.Lib.Causal

/-!
What a step of the cluster does to the sibling sets and to the versions in transit.

Whatever the action, it is one of four things for the stored sets: nothing, a version minted
by its coordinator, versions folded in that were already somewhere, or a set dropped. The
properties of runs only look at that.
-/

namespace Kyria.Cluster

open Kyria.Lib.Cursor Kyria.Lib.MapOrder Kyria.Lib.Maxima Kyria.Lib.Causal
open Kyria.Vclock Kyria.Version Kyria.Binenc Kyria.Store Kyria.Store.MapStore Kyria.Replica
open Kyria.Handoff Kyria.Protocol Kyria.Coordinator Kyria.TombstoneGC

variable {σ : Type}

namespace State

/-- The sibling set each node stores for the key. -/
def sets (cfg : Config σ) (s : State σ) (n : Bytes) : List Version :=
  siblings (s.node n).store cfg.key

def folded (s : State σ) (n : Bytes) : List Version := (s.node n).folded

/-- Every version ever minted, with the node that minted it. -/
def minted (s : State σ) : List (Bytes × Version) := s.writes.map fun op => (op.coord, op.version)

variable {cfg : Config σ} {s s' : State σ} {n : Bytes} {nd : Node σ}

lemma sets_of_node (h : s'.node = Function.update s.node n nd) :
    s'.sets cfg = Function.update (s.sets cfg) n (siblings nd.store cfg.key) := by
  funext m
  by_cases hm : m = n
  · subst hm; simp [sets, h]
  · simp [sets, h, Function.update_of_ne hm]

lemma folded_of_node (h : s'.node = Function.update s.node n nd) :
    s'.folded = Function.update s.folded n nd.folded := by
  funext m
  by_cases hm : m = n
  · subst hm; simp [folded, h]
  · simp [folded, h, Function.update_of_ne hm]

end State

/-! ### Versions in transit -/

/-- The request may still be handled, or its blob may still be parked. -/
def Call.Alive (c : Call) : Prop :=
  c.lost = false ∨ c.origin.isFanOut = true ∧ (c.phase = .sent ∨ c.phase = .failed)

def Waiting.versions (rd : Waiting) : List Version :=
  rd.own ++ rd.answers.flatMap (fun a => siblingsOf a.2) ++ answered rd.results

def repairVersions : Repair → List Version
  | .own merged => merged
  | .push _ v => [v]

def ReadOp.versions : ReadOp → List Version
  | .waiting rd => rd.versions
  | .replied _ _ _ todo => todo.flatMap repairVersions

/-- All that is under way lies in `E`. -/
structure Carried (cfg : Config σ) (s : State σ) (E : Set Version) : Prop where
  calls : ∀ c ∈ s.calls, c.Alive → ∀ v ∈ siblingsOf c.blob, v ∈ E
  hints : ∀ n t b, (s.node n).hints.parked t cfg.key = some b → ∀ v ∈ siblingsOf b, v ∈ E
  reads : ∀ rd ∈ s.reads, ∀ v ∈ rd.versions, v ∈ E
  pulls : ∀ p ∈ s.pulls, ∀ v ∈ siblingsOf p.2, v ∈ E

/-- The versions under way: in requests that are not lost, in parked hints, in reads that
have not done their repairs, in blobs anti-entropy has fetched. -/
def pool (cfg : Config σ) (s : State σ) : Set Version :=
  {v | (∃ c ∈ s.calls, c.Alive ∧ v ∈ siblingsOf c.blob) ∨
    (∃ n t b, (s.node n).hints.parked t cfg.key = some b ∧ v ∈ siblingsOf b) ∨
    (∃ rd ∈ s.reads, v ∈ rd.versions) ∨ ∃ p ∈ s.pulls, v ∈ siblingsOf p.2}

lemma carried_pool (cfg : Config σ) (s : State σ) : Carried cfg s (pool cfg s) where
  calls c hc ha _ hv := .inl ⟨c, hc, ha, hv⟩
  hints n t b hb _ hv := .inr (.inl ⟨n, t, b, hb, hv⟩)
  reads rd hrd _ hv := .inr (.inr (.inl ⟨rd, hrd, hv⟩))
  pulls p hp _ hv := .inr (.inr (.inr ⟨p, hp, hv⟩))

lemma Carried.pool_subset {cfg : Config σ} {s : State σ} {E : Set Version} (h : Carried cfg s E) :
    pool cfg s ⊆ E := by
  rintro v (⟨c, hc, ha, hv⟩ | ⟨n, t, b, hb, hv⟩ | ⟨rd, hrd, hv⟩ | ⟨p, hp, hv⟩)
  · exact h.calls c hc ha v hv
  · exact h.hints n t b hb v hv
  · exact h.reads rd hrd v hv
  · exact h.pulls p hp v hv

lemma Carried.mono {cfg : Config σ} {s : State σ} {E E' : Set Version} (h : Carried cfg s E)
    (hE : E ⊆ E') : Carried cfg s E' where
  calls c hc ha v hv := hE (h.calls c hc ha v hv)
  hints n t b hb v hv := hE (h.hints n t b hb v hv)
  reads rd hrd v hv := hE (h.reads rd hrd v hv)
  pulls p hp v hv := hE (h.pulls p hp v hv)

/-- Every node stores an encoded sibling set, and reads hold what the codec can carry. -/
structure Sound (cfg : Config σ) (s : State σ) : Prop where
  stores : ∀ n, Intact (s.node n).store cfg.key
  fits : ∀ rd ∈ s.reads, ∀ v ∈ rd.versions, Fits v

section Carried

variable {cfg : Config σ} {s s' : State σ} {E : Set Version}

lemma Carried.setNode (h : Carried cfg s E) {n : Bytes} {nd : Node σ}
    (hh : ∀ t b, nd.hints.parked t cfg.key = some b → ∀ v ∈ siblingsOf b, v ∈ E) :
    Carried cfg (s.setNode n nd) E :=
  { h with
    hints := by
      intro k t b hb
      by_cases hk : k = n
      · subst hk
        exact hh t b (by simpa [State.setNode] using hb)
      · exact h.hints k t b (by simpa [State.setNode, Function.update_of_ne hk] using hb) }

lemma Carried.setStore (h : Carried cfg s E) (n : Bytes) (m : MapStore σ) :
    Carried cfg (s.setStore n m) E := h.setNode (h.hints n)

lemma Carried.update (h : Carried cfg s E) (n : Bytes) (m : MapStore σ) (ok : Bool)
    (vs : List Version) : Carried cfg (s.update n m ok vs) E := h.setNode (h.hints n)

lemma Carried.addCalls (h : Carried cfg s E) {cs : List Call}
    (hcs : ∀ c ∈ cs, ∀ v ∈ siblingsOf c.blob, v ∈ E) :
    Carried cfg { s with calls := s.calls ++ cs } E :=
  { h with
    calls := by
      intro c hc ha
      rcases List.mem_append.mp hc with hc | hc
      · exact h.calls c hc ha
      · exact hcs c hc }

lemma Carried.setCall (h : Carried cfg s E) {i : ℕ} {c c' : Call} (hc : s.calls[i]? = some c)
    (hb : c'.blob = c.blob) (ha : c'.Alive → c.Alive) : Carried cfg (s.setCall i c') E :=
  { h with
    calls := by
      intro d hd hda
      rcases List.mem_or_eq_of_mem_set hd with hd | rfl
      · exact h.calls d hd hda
      · rw [hb]
        exact h.calls c (List.mem_of_getElem? hc) (ha hda) }

lemma Carried.setRead (h : Carried cfg s E) {j : ℕ} {rd : ReadOp}
    (hrd : ∀ v ∈ rd.versions, v ∈ E) : Carried cfg (s.setRead j rd) E :=
  { h with
    reads := by
      intro rd' hrd'
      rcases List.mem_or_eq_of_mem_set hrd' with hrd' | rfl
      · exact h.reads rd' hrd'
      · exact hrd }

lemma siblingsOf_get {m : MapStore σ} {key : Bytes} (h : Intact m key) (now : ℕ) :
    siblingsOf ((m.get now key).1.getD []) = siblings m key := by
  rw [getD_get_of_permanent h.permanent, siblings]

lemma answered_subset {used results : List PeerResult} (h : used <+: results) :
    answered used ⊆ answered results := by
  intro v hv
  obtain ⟨r, hr, hvr⟩ := List.mem_flatMap.mp hv
  exact List.mem_flatMap.mpr ⟨r, h.subset hr, hvr⟩

lemma mem_merged {need rounds : ℕ} {st st' : ReadState} {results : List PeerResult}
    (h : readLoop need rounds st results = some st') {v : Version} (hv : v ∈ st'.merged) :
    v ∈ st.merged ∨ v ∈ answered results := by
  obtain ⟨used, hused, -, hm⟩ := readLoop_spec h
  rw [hm, reconcile_eq] at hv
  exact (mem_of_mem_foldl hv).imp_right fun h => answered_subset hused h

lemma mem_repairs {o : VisitOrder (Bytes × List Version)} {self : Bytes} {need : ℕ}
    {st : ReadState} {r : Repair} (hr : r ∈ repairs o self need st) {v : Version}
    (hv : v ∈ repairVersions r) : v ∈ st.merged := by
  unfold repairs at hr
  split_ifs at hr
  · simp at hr
  · simp only [readRepair, List.mem_flatMap] at hr
    obtain ⟨⟨addr, set⟩, -, hr⟩ := hr
    simp only at hr
    split_ifs at hr
    · simp at hr
    · rw [List.mem_singleton.mp hr] at hv
      exact hv
    · obtain ⟨w, hw, rfl⟩ := List.mem_map.mp hr
      rw [List.mem_singleton.mp hv]
      exact hw
  · simp at hr

end Carried

/-! ### The effect of a step on the stored sets -/

/-- A quiet step is one that folds nothing in. -/
inductive Effect (cfg : Config σ) (s s' : State σ) : Label Bytes Version → Prop
  | mint {n : Bytes} {v : Version}
      (clock : v.clock = newClock n (s.sets cfg n)) (fits : Fits v)
      (sets : s'.sets cfg = Function.update (s.sets cfg) n (reconcile (s.sets cfg n) v))
      (folded : s'.folded = Function.update s.folded n (s.folded n ++ [v]))
      (minted : s'.minted = s.minted ++ [(n, v)]) : Effect cfg s s' (.mint n v)
  | fold {n : Bytes} {vs : List Version} (known : ∀ v ∈ vs, v ∈ pool cfg s)
      (sets : s'.sets cfg = Function.update (s.sets cfg) n (vs.foldl reconcile (s.sets cfg n)))
      (folded : s'.folded = Function.update s.folded n (s.folded n ++ vs))
      (minted : s'.minted = s.minted) : Effect cfg s s' (.fold n vs)
  | remove {n : Bytes} (had : s.sets cfg n ≠ [])
      (sets : s'.sets cfg = Function.update (s.sets cfg) n [])
      (folded : s'.folded = s.folded) (minted : s'.minted = s.minted) :
      Effect cfg s s' (.remove n)

section Effect

variable {cfg : Config σ} {s s' : State σ} {n : Bytes} {nd : Node σ}

lemma Effect.quiet (hn : s'.node = s.node) (hm : s'.minted = s.minted) :
    Effect cfg s s' (.fold [] []) := by
  refine .fold (by simp) ?_ ?_ hm
  · rw [List.foldl_nil, Function.update_eq_self]
    unfold State.sets
    rw [hn]
  · rw [List.append_nil, Function.update_eq_self]
    unfold State.folded
    rw [hn]

lemma Effect.of_keeps (hn : s'.node = Function.update s.node n nd) (hf : nd.folded = s.folded n)
    (hm : s'.minted = s.minted) (h : Keeps (s.node n).store nd.store cfg.key) :
    Effect cfg s s' (.fold n []) := by
  refine .fold (by simp) ?_ ?_ hm
  · rw [State.sets_of_node hn, siblings_of_keeps h, List.foldl_nil]
    rfl
  · rw [State.folded_of_node hn, hf, List.append_nil]

lemma Effect.of_keeps_or_none (hn : s'.node = Function.update s.node n nd)
    (hf : nd.folded = s.folded n) (hm : s'.minted = s.minted)
    (h : Keeps (s.node n).store nd.store cfg.key ∨ nd.store.data[cfg.key]? = none) :
    Effect cfg s s' (.fold n []) ∨ Effect cfg s s' (.remove n) := by
  rcases h with h | h
  · exact .inl (.of_keeps hn hf hm h)
  · have hfold : s'.folded = s.folded := by
      rw [State.folded_of_node hn, hf, Function.update_eq_self]
    have hsets : s'.sets cfg = Function.update (s.sets cfg) n [] := by
      rw [State.sets_of_node hn, siblings_of_blob_eq_nil (blob_of_none h)]
    by_cases hold : s.sets cfg n = []
    · refine .inl (.fold (by simp) ?_ ?_ hm)
      · rw [hsets, List.foldl_nil, hold]
      · rw [hfold, List.append_nil, Function.update_eq_self]
    · exact .inr (.remove hold hsets hfold hm)

lemma Effect.of_fold {vs : List Version} (hn : s'.node = Function.update s.node n nd)
    (hm : s'.minted = s.minted) (hf : nd.folded = s.folded n ++ vs)
    (hk : ∀ v ∈ vs, v ∈ pool cfg s)
    (hs : siblings nd.store cfg.key = vs.foldl reconcile (s.sets cfg n)) :
    Effect cfg s s' (.fold n vs) := by
  refine .fold hk ?_ ?_ hm
  · rw [State.sets_of_node hn, hs]
  · rw [State.folded_of_node hn, hf]

lemma intact_of_node (h : ∀ k, Intact (s.node k).store cfg.key)
    (hn : s'.node = Function.update s.node n nd) (hi : Intact nd.store cfg.key) (k : Bytes) :
    Intact (s'.node k).store cfg.key := by
  rw [hn]
  by_cases hk : k = n
  · subst hk
    rwa [Function.update_self]
  · rw [Function.update_of_ne hk]
    exact h k

/-! ### The two coordinated writes -/

/-- The outcome of a local apply: a version minted on the set found, or a refusal. -/
inductive Applied (cfg : Config σ) (s : State σ) (self : Bytes) :
    Except StoreError (WriteKind × Version) × MapStore σ → Prop
  | minted {kind : WriteKind} {v : Version} {m : MapStore σ} (intact : Intact m cfg.key)
      (clock : v.clock = newClock self (s.sets cfg self)) (fits : Fits v)
      (sets : siblings m cfg.key = reconcile (s.sets cfg self) v) :
      Applied cfg s self (.ok (kind, v), m)
  | refused {err : StoreError} {m : MapStore σ} (intact : Intact m cfg.key)
      (sets : siblings m cfg.key = s.sets cfg self) : Applied cfg s self (.error err, m)

lemma applied_of_mint (hs : Sound cfg s) {self : Bytes} (env : Env) {mk : Clock → Version}
    (f : List Version × Version → WriteKind) (hclock : ∀ c, (mk c).clock = c)
    (hfits : Fits (Replica.minted (s.node self).store self cfg.key mk)) :
    Applied cfg s self
      (((mint (s.node self).store env self cfg.key mk).1.map fun r => (f r, r.2)),
        (mint (s.node self).store env self cfg.key mk).2) := by
  obtain ⟨hi, ⟨hok, hsib⟩ | ⟨err, herr, hsib⟩⟩ := mint_spec (hs.stores self) env hfits
  · rw [hok]
    exact .minted hi (hclock _) hfits hsib
  · rw [herr]
    exact .refused hi hsib

lemma writeLocal_applied (hs : Sound cfg s) {self value : Bytes} (env : Env)
    (hself : self ∈ cfg.nodes) (hval : value.length ≤ maxBulkSize) :
    Applied cfg s self (writeLocal (s.node self).store env self cfg.key value) := by
  unfold writeLocal
  refine applied_of_mint hs env (fun _ => .write) (fun _ => rfl) ?_
  refine fits_newClock (hs.stores self) (cfg.ids self hself) (fun _ => rfl) (fun _ => ?_)
    fun _ _ => rfl
  unfold maxBulkSize at hval
  simp only
  omega

lemma deleteLocal_applied (hs : Sound cfg s) {self : Bytes} (env : Env) (called : ℕ)
    (hself : self ∈ cfg.nodes) :
    Applied cfg s self (deleteLocal (s.node self).store env self cfg.key called) := by
  unfold deleteLocal
  refine applied_of_mint hs env
    (fun r => .delete (if (live r.1).length > 0 then 1 else 0)) (fun _ => rfl) ?_
  refine fits_newClock (hs.stores self) (cfg.ids self hself) (fun _ => rfl) (fun _ => ?_)
    fun _ hd => ?_
  · simp [tombstone]
  · simp [tombstone] at hd

lemma fanOut_effect (hs : Sound cfg s) {self : Bytes} (owners : Owners) (o : ClockOrder)
    {r : Except StoreError (WriteKind × Version) × MapStore σ} (hr : Applied cfg s self r) :
    (∀ n, Intact ((fanOut cfg s self owners o r).node n).store cfg.key) ∧
      ∃ l, Effect cfg s (fanOut cfg s self owners o r) l ∧ (∀ n v, l = .mint n v → n = self) ∧
        ∀ n, l ≠ .remove n := by
  cases hr with
  | minted hi hclock hfits hsib =>
    refine ⟨intact_of_node hs.stores rfl hi, _, .mint hclock hfits ?_ ?_ ?_, by simp, by simp⟩
    · rw [State.sets_of_node rfl, hsib]
    · rw [State.folded_of_node rfl]
      rfl
    · simp [fanOut, State.minted]
  | refused hi hsib =>
    refine ⟨intact_of_node hs.stores rfl hi, .fold self [], ?_, by simp, by simp⟩
    exact .of_fold rfl rfl (by simp [State.folded]) (by simp) hsib

end Effect

end Kyria.Cluster
